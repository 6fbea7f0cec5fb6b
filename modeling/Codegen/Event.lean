import Codegen.Grammar.Pattern
import Codegen.Text.Dump

/-!
# Event — what happened during a run

A run records its events in order, each with a level of detail and a text.
-/

namespace Codegen

inductive Level
  | warn
  | debug
  | trace
  deriving DecidableEq

def Level.name : Level → String
  | .warn => "WARN"
  | .debug => "DEBUG"
  | .trace => "TRACE"

inductive Event
  | automatonBuilt (rules states : Nat)
  | labeled (id : NodeId) (result : Nonterminal) (rule : String) (cost : Nat)
  | emitted (i : Instr)
  | reduced (id : NodeId) (goal : Nonterminal) (rule : String)
  | measured (intervals : Nat)
  | expired (vreg reg : Nat)
  | placed (vreg start stop reg : Nat)
  | unplaced (vreg start live candidate : Nat)
  | allocated (vregs registers peak : Nat)
  | compiled (trees instrs vregs : Nat)
  deriving DecidableEq

/-- The events of a run, in order. -/
abbrev Trace := Array Event

namespace Event

def level : Event → Level
  | .unplaced .. => .warn
  | .automatonBuilt .. | .reduced .. | .allocated .. | .compiled .. => .debug
  | .labeled .. | .emitted _ | .measured _ | .expired .. | .placed .. => .trace

def text : Event → String
  | .automatonBuilt rules states => s!"pattern automaton: {rules} rules, {states} states"
  | .labeled id result rule cost => s!"node #{id} : {result.name} <- {rule} (cost {cost})"
  | .emitted i => s!"  emit {i.dump}"
  | .reduced id goal rule => s!"reduce #{id} to {goal.name} with {rule}"
  | .measured intervals => s!"computed {intervals} live intervals"
  | .expired vreg reg => s!"v{vreg} expires, r{reg} free"
  | .placed vreg start stop reg => s!"v{vreg} [{start}, {stop}] -> r{reg}"
  | .unplaced vreg start live candidate =>
      s!"no register for v{vreg} at {start}: {live} live, spill candidate v{candidate}"
  | .allocated vregs registers peak =>
      s!"allocated {vregs} virtual registers into {registers} physical (peak pressure {peak})"
  | .compiled trees instrs vregs =>
      s!"compiled function: {trees} trees, {instrs} instructions, {vregs} virtual registers"

end Event

end Codegen
