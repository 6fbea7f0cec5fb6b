import Codegen.Allocation
import Codegen.Automaton.Links
import Codegen.Automaton.Trie
import Codegen.Compile
import Codegen.Error
import Codegen.Event
import Codegen.Expr.Arena
import Codegen.Expr.Node
import Codegen.Grammar.Pattern
import Codegen.Grammar.Rule
import Codegen.Instr
import Codegen.Interval
import Codegen.Label
import Codegen.Labeling
import Codegen.Main
import Codegen.Operand
import Codegen.Pool
import Codegen.Proofs.Application
import Codegen.Proofs.Arguments
import Codegen.Proofs.Binding
import Codegen.Proofs.Budget
import Codegen.Proofs.Calls
import Codegen.Proofs.Capture
import Codegen.Proofs.Choice
import Codegen.Proofs.Code
import Codegen.Proofs.Completeness
import Codegen.Proofs.Construction
import Codegen.Proofs.Coverage
import Codegen.Proofs.Derivation
import Codegen.Proofs.Emission
import Codegen.Proofs.Encoding
import Codegen.Proofs.Evaluation
import Codegen.Proofs.Exhaustion
import Codegen.Proofs.Forms
import Codegen.Proofs.Frame
import Codegen.Proofs.FreeSet
import Codegen.Proofs.Grafting
import Codegen.Proofs.Grounding
import Codegen.Proofs.Introduction
import Codegen.Proofs.Labeling
import Codegen.Proofs.Links
import Codegen.Proofs.Liveness
import Codegen.Proofs.Machine
import Codegen.Proofs.Masks
import Codegen.Proofs.Matching
import Codegen.Proofs.Narrowing
import Codegen.Proofs.Order
import Codegen.Proofs.Outcome
import Codegen.Proofs.Postorder
import Codegen.Proofs.Preservation
import Codegen.Proofs.Pressure
import Codegen.Proofs.Production
import Codegen.Proofs.Recognition
import Codegen.Proofs.Reducing
import Codegen.Proofs.Relabeling
import Codegen.Proofs.Reselection
import Codegen.Proofs.Reuse
import Codegen.Proofs.Run
import Codegen.Proofs.Scan
import Codegen.Proofs.Selecting
import Codegen.Proofs.Separation
import Codegen.Proofs.Session
import Codegen.Proofs.Settling
import Codegen.Proofs.Sharing
import Codegen.Proofs.Simulation
import Codegen.Proofs.Sites
import Codegen.Proofs.Spans
import Codegen.Proofs.Splicing
import Codegen.Proofs.Sweep
import Codegen.Proofs.Translation
import Codegen.Proofs.Tree
import Codegen.Proofs.Trie
import Codegen.Proofs.Validation
import Codegen.Proofs.X64Machine
import Codegen.Reduction
import Codegen.Report
import Codegen.Selection
import Codegen.Settings
import Codegen.Text.Dump
import Codegen.Text.Invisible
import Codegen.X64.Emit
import Codegen.X64.Price
import Codegen.X64.Rules
