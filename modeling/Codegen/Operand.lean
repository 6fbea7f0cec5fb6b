/-!
# Operand — registers, addresses and operands

The values an instruction mentions, shared by expression leaves and by the instruction stream:

* `VirtualReg` : a temporary, with the physical register it is bound to once allocation placed it
* `Address`    : a base and a displacement
* `MachineReg` : the registers with a fixed role, outside the allocatable pool
* `Operand`    : what an instruction reads or writes
-/

namespace Codegen

/-! ## Registers and addresses -/

/-- A temporary of the function being compiled; `phys` is set by register allocation. -/
structure VirtualReg where
  index : Nat
  phys : Option Nat := none
  deriving DecidableEq

inductive Base
  | absolute
  | framePointer
  | reg (r : VirtualReg)
  deriving DecidableEq

/-- The memory cell at `base + disp`. -/
structure Address where
  base : Base
  disp : Int
  deriving DecidableEq

namespace Address

def frame (disp : Int) : Address := ⟨.framePointer, disp⟩

def ofReg (r : VirtualReg) (disp : Int) : Address := ⟨.reg r, disp⟩

end Address

inductive MachineReg
  | rax
  | rcx
  | rdx
  | rsi
  | rdi
  | r8
  | r9
  | rsp
  | rbp
  deriving DecidableEq

namespace MachineReg

def all : List MachineReg := [.rax, .rcx, .rdx, .rsi, .rdi, .r8, .r9, .rsp, .rbp]

/-- The registers that carry the first integer arguments of a call, in order. -/
def arguments : List MachineReg := [.rdi, .rsi, .rdx, .rcx, .r8, .r9]

def name : MachineReg → String
  | .rax => "Rax"
  | .rcx => "Rcx"
  | .rdx => "Rdx"
  | .rsi => "Rsi"
  | .rdi => "Rdi"
  | .r8 => "R8"
  | .r9 => "R9"
  | .rsp => "Rsp"
  | .rbp => "Rbp"

end MachineReg

/-! ## Operands -/

inductive Operand
  | vreg (r : VirtualReg)
  | mem (a : Address)
  | imm (value : Int)
  | fixed (r : MachineReg)
  | symbol (name : String)
  deriving DecidableEq

namespace Operand

/-- The virtual register an operand mentions, directly or as the base of an address. -/
def reg? : Operand → Option VirtualReg
  | .vreg r => some r
  | .mem ⟨.reg r, _⟩ => some r
  | _ => none

/-- Applies `f` to the virtual register an operand mentions. -/
def mapReg (f : VirtualReg → VirtualReg) : Operand → Operand
  | .vreg r => .vreg (f r)
  | .mem ⟨.reg r, disp⟩ => .mem ⟨.reg (f r), disp⟩
  | o => o

def isImm : Operand → Bool
  | .imm _ => true
  | _ => false

theorem reg?_mapReg (f : VirtualReg → VirtualReg) (o : Operand) :
    (o.mapReg f).reg? = o.reg?.map f := by
  cases o with
  | mem a =>
      rcases a with ⟨base, disp⟩
      cases base <;> rfl
  | _ => rfl

end Operand

end Codegen
