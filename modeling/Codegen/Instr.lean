import Codegen.Operand

/-!
# Instr — two-address machine instructions

An instruction has an opcode, a destination that is read, written or both, and a source that is
read.  A function is the array of its instructions in order, `Stream`.
-/

namespace Codegen

/-! ## Opcodes -/

/-- The outcome of a comparison that a `set` instruction tests. -/
inductive Condition
  | e
  | ne
  | l
  | le
  | g
  | ge
  deriving DecidableEq

namespace Condition

def all : List Condition := [.e, .ne, .l, .le, .g, .ge]

def name : Condition → String
  | .e => "E"
  | .ne => "Ne"
  | .l => "L"
  | .le => "Le"
  | .g => "G"
  | .ge => "Ge"

end Condition

inductive Opcode
  | mov
  | movsx
  | lea
  | add
  | sub
  | imul
  | idiv
  | cqo
  | and
  | or
  | xor
  | shl
  | sar
  | neg
  | not
  | cmp
  | set (c : Condition)
  | push
  | call
  deriving DecidableEq

namespace Opcode

def all : List Opcode :=
  [.mov, .movsx, .lea, .add, .sub, .imul, .idiv, .cqo, .and, .or, .xor, .shl, .sar, .neg, .not,
    .cmp] ++ Condition.all.map .set ++ [.push, .call]

def name : Opcode → String
  | .mov => "Mov"
  | .movsx => "Movsx"
  | .lea => "Lea"
  | .add => "Add"
  | .sub => "Sub"
  | .imul => "Imul"
  | .idiv => "Idiv"
  | .cqo => "Cqo"
  | .and => "And"
  | .or => "Or"
  | .xor => "Xor"
  | .shl => "Shl"
  | .sar => "Sar"
  | .neg => "Neg"
  | .not => "Not"
  | .cmp => "Cmp"
  | .set c => "Set(" ++ c.name ++ ")"
  | .push => "Push"
  | .call => "Call"

end Opcode

/-! ## Instructions -/

structure Instr where
  opcode : Opcode
  dst : Option Operand := none
  src : Option Operand := none
  deriving DecidableEq

/-- The instructions of one function, in order. -/
abbrev Stream := Array Instr

namespace Instr

def bare (opcode : Opcode) : Instr := { opcode }

def unary (opcode : Opcode) (dst : Operand) : Instr := { opcode, dst := some dst }

def binary (opcode : Opcode) (dst src : Operand) : Instr :=
  { opcode, dst := some dst, src := some src }

def move (dst src : Operand) : Instr := binary .mov dst src

/-- The operands present, the destination first. -/
def operands (i : Instr) : List Operand :=
  i.dst.toList ++ i.src.toList

/-- The virtual registers an instruction mentions, the destination's first. -/
def regs (i : Instr) : List VirtualReg :=
  i.operands.filterMap Operand.reg?

/-- Applies `f` to every virtual register an instruction mentions. -/
def mapRegs (f : VirtualReg → VirtualReg) (i : Instr) : Instr :=
  { i with dst := i.dst.map (Operand.mapReg f), src := i.src.map (Operand.mapReg f) }

theorem regs_mapRegs (f : VirtualReg → VirtualReg) (i : Instr) :
    (i.mapRegs f).regs = i.regs.map f := by
  rcases i with ⟨opcode, dst, src⟩
  cases dst <;> cases src <;>
    simp [regs, operands, mapRegs, List.filterMap_cons, Operand.reg?_mapReg] <;>
    repeat' split <;> simp_all

end Instr

end Codegen
