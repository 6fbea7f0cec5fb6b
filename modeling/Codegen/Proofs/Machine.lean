import Codegen.Instr
import Mathlib.Logic.Function.Basic

/-!
# Machine — running an instruction stream

A machine has a file of register cells for the temporaries, and beside it a world that every
register assignment has in common.  What an opcode computes is left to an interpretation; which
operands it reads and whether it writes its destination is fixed.

* `World`          : memory, machine registers, flags, and what pushes and calls have done
* `Interpretation` : opcodes as functions of the operand values they read
* `Locator`        : the cell a virtual register lives in; `byIndex` gives each its own cell,
  `byPhys` the cell of the physical register it is bound to
* `step`, `exec`   : one instruction, and a sequence of them
* `trace`          : what every instruction of a sequence read, and the world it left
-/

namespace Codegen

abbrev Word := BitVec 64

/-- A memory of word cells. -/
abbrev Memory := Word → Word

/-! ## Operand access of the opcodes -/

namespace Opcode

/-- Whether the opcode reads its destination. -/
def readsDst : Opcode → Bool
  | .mov | .movsx | .lea => false
  | _ => true

/-- Whether the opcode writes its destination. -/
def writesDst : Opcode → Bool
  | .cmp | .idiv | .cqo | .push | .call => false
  | _ => true

end Opcode

namespace Machine

/-- What instructions act on besides the register file. -/
structure World (F E : Type) where
  memory : Memory
  fixed : MachineReg → Word
  flags : F
  /-- What pushes and calls have done. -/
  effects : E

/-- The value of an operand; a memory operand has an address and the contents found there. -/
inductive Value
  | word (w : Word)
  | cell (address contents : Word)
  | symbol (name : String)
  deriving DecidableEq

/-- What an instruction reads before it acts.  The address of a memory destination is computed
even if its contents are not read. -/
structure Reading where
  dst : Option Value
  address : Option Word
  src : Option Value
  deriving DecidableEq

/-- The opcodes as functions of the operand values they read and of the world: the value for the
destination and the world afterwards, or a trap. -/
structure Interpretation (F E : Type) where
  run : Opcode → Option Value → Option Value → World F E → Option (Word × World F E)

/-- The cell of the register file that a virtual register lives in. -/
abbrev Locator := VirtualReg → Option Nat

/-- A cell of its own for every virtual register. -/
def byIndex : Locator := fun r => some r.index

/-- The cell of the physical register that a virtual register is bound to. -/
def byPhys : Locator := fun r => r.phys

structure State (F E : Type) where
  file : Nat → Word
  world : World F E

variable {F E : Type}

/-! ## Operands -/

/-- The address that a base and a displacement amount to. -/
def address? (loc : Locator) (s : State F E) (a : Address) : Option Word :=
  match a.base with
  | .absolute => some (BitVec.ofInt 64 a.disp)
  | .framePointer => some (s.world.fixed .rbp + BitVec.ofInt 64 a.disp)
  | .reg r => (loc r).map fun c => s.file c + BitVec.ofInt 64 a.disp

def value? (loc : Locator) (s : State F E) : Operand → Option Value
  | .vreg r => (loc r).map fun c => .word (s.file c)
  | .mem a => (address? loc s a).map fun p => .cell p (s.world.memory p)
  | .imm v => some (.word (BitVec.ofInt 64 v))
  | .fixed r => some (.word (s.world.fixed r))
  | .symbol name => some (.symbol name)

/-- Where a destination keeps the value written to it. -/
inductive Sink
  | cell (c : Nat)
  | memory (p : Word)
  | fixed (r : MachineReg)
  | nowhere
  deriving DecidableEq

def Sink.address? : Sink → Option Word
  | .memory p => some p
  | _ => none

def sink? (loc : Locator) (s : State F E) : Operand → Option Sink
  | .vreg r => (loc r).map .cell
  | .mem a => (address? loc s a).map .memory
  | .fixed r => some (.fixed r)
  | .imm _ | .symbol _ => some .nowhere

def State.put (s : State F E) (v : Word) : Sink → State F E
  | .cell c => { s with file := Function.update s.file c v }
  | .memory p =>
      { s with world := { s.world with memory := Function.update s.world.memory p v } }
  | .fixed r => { s with world := { s.world with fixed := Function.update s.world.fixed r v } }
  | .nowhere => s

/-! ## Instructions -/

def srcValue? (loc : Locator) (s : State F E) (i : Instr) : Option (Option Value) :=
  i.src.mapM (value? loc s)

/-- The value of the destination, if the opcode reads it. -/
def dstValue? (loc : Locator) (s : State F E) (i : Instr) : Option (Option Value) :=
  if i.opcode.readsDst then i.dst.mapM (value? loc s) else some none

def dstSink? (loc : Locator) (s : State F E) (i : Instr) : Option Sink :=
  (i.dst.map (sink? loc s)).getD (some .nowhere)

/-- What `i` reads and where it may write; there is no access if a virtual register that it
mentions has no cell. -/
def access? (loc : Locator) (s : State F E) (i : Instr) : Option (Reading × Sink) := do
  let src ← srcValue? loc s i
  let sink ← dstSink? loc s i
  let dst ← dstValue? loc s i
  return ({ dst, address := sink.address?, src }, sink)

/-- Runs one instruction. -/
def step (I : Interpretation F E) (loc : Locator) (i : Instr) (s : State F E) :
    Option (State F E) := do
  let (r, sink) ← access? loc s i
  let (v, world) ← I.run i.opcode r.dst r.src s.world
  return { s with world }.put v (if i.opcode.writesDst then sink else .nowhere)

/-- Runs a sequence of instructions. -/
def exec (I : Interpretation F E) (loc : Locator) : List Instr → State F E → Option (State F E)
  | [], s => some s
  | i :: rest, s => (step I loc i s).bind (exec I loc rest)

/-- For every instruction of a sequence up to the first one that does not finish, what it read and
the world it left. -/
def trace (I : Interpretation F E) (loc : Locator) :
    List Instr → State F E → List (Option Reading × Option (World F E))
  | [], _ => []
  | i :: rest, s =>
      let next := step I loc i s
      ((access? loc s i).map Prod.fst, next.map State.world) ::
        (match next with
        | some s => trace I loc rest s
        | none => [])

theorem exec_append (I : Interpretation F E) (loc : Locator) (code rest : List Instr)
    (s : State F E) :
    exec I loc (code ++ rest) s = (exec I loc code s).bind (exec I loc rest) := by
  induction code generalizing s with
  | nil => rfl
  | cons i code ih =>
      simp only [List.cons_append, exec, Option.bind_assoc]
      congr 1
      funext s'
      exact ih s'

end Machine
end Codegen
