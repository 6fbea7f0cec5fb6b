import Codegen.Event
import Codegen.Expr.Arena
import Codegen.Label

/-!
# Selection — the state of a function under selection

* `Stats`     : the trees selected, the instructions emitted, the virtual registers issued, and for
  each rule name how often a rule of that name was applied
* `Selection` : the arena, the labels of the tree at hand, the instructions so far, and the counts
* `SelectM`   : computations on that state; what was done before a failure stays done
* the steps that emission procedures are made of: reading nodes and operands, issuing a virtual
  register, appending a node, emitting an instruction
-/

namespace Codegen

/-! ## Counts -/

/-- Counts by name, in increasing order of the names. -/
abbrev Tally := List (String × Nat)

namespace Tally

def add (name : String) : Tally → Tally
  | [] => [(name, 1)]
  | (other, count) :: rest =>
      if name = other then (other, count + 1) :: rest
      else if name < other then (name, 1) :: (other, count) :: rest
      else (other, count) :: add name rest

def count (t : Tally) (name : String) : Nat :=
  (t.lookup name).getD 0

end Tally

structure Stats where
  trees : Nat := 0
  instrs : Nat := 0
  vregs : Nat := 0
  applied : Tally := []
  deriving DecidableEq

/-- The counts, a line each; the tally is left out when it is empty. -/
def Stats.text (s : Stats) : String :=
  let counts :=
    s!"Selection Statistics:\n  Trees selected: {s.trees}\n" ++
      s!"  Instructions emitted: {s.instrs}\n  Virtual registers: {s.vregs}\n"
  let entries := s.applied.map fun (name, count) => s!"    {name}: {count}\n"
  if s.applied.isEmpty then counts else counts ++ "  Rule applications:\n" ++ String.join entries

/-! ## The state -/

structure Selection where
  arena : Arena
  table : LabelTable := {}
  stream : Stream := #[]
  nextReg : Nat := 0
  stats : Stats := {}
  trace : Trace := #[]

/-- The state for the next function over the same arena. -/
def Selection.renew (s : Selection) : Selection :=
  { arena := s.arena, trace := s.trace }

abbrev SelectM := EStateM Failure Selection

namespace SelectM

/-! ## Reading -/

def fail {α : Type} (e : Error) : SelectM α := throw (.error e)

def ofArena {α : Type} (f : Arena → Except Fault α) : SelectM α := do
  match f (← get).arena with
  | .ok a => return a
  | .error e => throw (.fault e)

def node (id : NodeId) : SelectM Node := ofArena (·.node id)

def kind (id : NodeId) : SelectM NodeKind := ofArena (·.kind id)

def child? (id : NodeId) (index : Nat) : SelectM (Option NodeId) := ofArena (·.child? id index)

/-- The operand a reduced node stands for. -/
def operand (id : NodeId) : SelectM Operand := do
  match ← node id with
  | .vreg r => return .vreg r
  | .mem a => return .mem a
  | .literal value => return .imm value
  | n => fail (.notOperand id n.kind)

/-- The operand that the child in slot `index` of a node stands for. -/
def operandAt (id : NodeId) (index : Nat) : SelectM Operand := do
  match ← child? id index with
  | some child => operand child
  | none => fail (.notOperand id (← kind id))

/-! ## Writing -/

def log (e : Event) : SelectM Unit :=
  modify fun s => { s with trace := s.trace.push e }

/-- Issues the next virtual register. -/
def freshReg : SelectM VirtualReg :=
  modifyGet fun s =>
    ({ index := s.nextReg },
      { s with nextReg := s.nextReg + 1, stats := { s.stats with vregs := s.stats.vregs + 1 } })

def append (n : Node) : SelectM NodeId :=
  modifyGet fun s => (s.arena.size, { s with arena := s.arena.push n })

def appendReg (r : VirtualReg) : SelectM NodeId := append (.vreg r)

/-- Points slot `index` of a node to `new`, if it has that slot. -/
def setChild (id : NodeId) (index : Nat) (new : NodeId) : SelectM Unit := do
  match (← node id).setChild? index new with
  | some n => modify fun s => { s with arena := s.arena.set id n }
  | none => return ()

def emit (i : Instr) : SelectM Unit := do
  log (.emitted i)
  modify fun s =>
    { s with
      stream := s.stream.push i
      stats := { s.stats with instrs := s.stats.instrs + 1 } }

/-- Counts one application of a rule. -/
def tally (rule : String) : SelectM Unit :=
  modify fun s => { s with stats := { s.stats with applied := s.stats.applied.add rule } }

end SelectM

end Codegen
