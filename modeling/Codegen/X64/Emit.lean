import Codegen.Grammar.Rule
import Codegen.X64.Price

/-!
# Emit — x86-64 instructions for matched nodes

Two-address instructions overwrite their destination, so a value is first copied into a fresh
virtual register and then combined there.  Division works on `rax` and `rdx`, a shift count that is
no immediate goes through `rcx`, and a call passes six arguments in registers, the others on the
stack, and leaves its result in `rax`.
-/

namespace Codegen

/-- The condition that makes a comparison true. -/
def CompareOp.condition : CompareOp → Condition
  | .eq => .e
  | .ne => .ne
  | .lt => .l
  | .le => .le
  | .gt => .g
  | .ge => .ge

namespace X64

open SelectM

/-- Refuses a node of a kind that the emission is not for. -/
def refuse {α : Type} (id : NodeId) (n : Node) : SelectM α :=
  fail (.notOperand id n.kind)

/-! ## Leaves -/

/-- Copies an operand into a fresh register. -/
def copy : Emission := fun _ id => do
  let src ← operand id
  let dst ← freshReg
  emit (.move (.vreg dst) src)
  appendReg dst

/-- A variable is the memory cell of its slot. -/
def slot : Emission := fun _ id => do
  match ← node id with
  | .var v => append (.mem (.frame v.offset))
  | n => refuse id n

def framePointer : Emission := fun _ _ => do
  let dst ← freshReg
  emit (.move (.vreg dst) (.fixed .rbp))
  appendReg dst

def addressOf : Emission := fun _ id => do
  match ← node id with
  | .addrOf v =>
      let dst ← freshReg
      emit (.binary .lea (.vreg dst) (.mem (.frame v.offset)))
      appendReg dst
  | n => refuse id n

/-! ## Arithmetic -/

/-- The opcode that combines two operands in place; division has none and takes another way. -/
def opcode? : BinaryOp → Option Opcode
  | .add => some .add
  | .sub => some .sub
  | .mul => some .imul
  | .and => some .and
  | .or => some .or
  | .xor => some .xor
  | .shl => some .shl
  | .shr => some .sar
  | .div | .rem => none

/-- Whether the operator takes its second operand as a shift count. -/
def isShift (op : BinaryOp) : Bool := op = .shl || op = .shr

/-- The instructions that leave `lhs op rhs` in `dst`. -/
def arithmetic (op : BinaryOp) (dst : VirtualReg) (lhs rhs : Operand) : List Instr :=
  match opcode? op with
  | none =>
      [.move (.fixed .rax) lhs, .bare .cqo, .unary .idiv rhs,
        .move (.vreg dst) (.fixed (if op = .div then .rax else .rdx))]
  | some opcode =>
      if isShift op && !rhs.isImm then
        [.move (.vreg dst) lhs, .move (.fixed .rcx) rhs, .binary opcode (.vreg dst) (.fixed .rcx)]
      else
        [.move (.vreg dst) lhs, .binary opcode (.vreg dst) rhs]

/-- The instructions that leave 1 in `dst` if `lhs` and `rhs` compare by `c`, and 0 otherwise.
Only the low byte is set at the end, so the register is cleared first. -/
def comparison (c : Condition) (dst : VirtualReg) (lhs rhs : Operand) : List Instr :=
  [.move (.vreg dst) (.imm 0), .binary .cmp lhs rhs, .unary (.set c) (.vreg dst)]

def binary : Emission := fun _ id => do
  match ← node id with
  | .binary op _ _ =>
      let lhs ← operandAt id 0
      let rhs ← operandAt id 1
      let dst ← freshReg
      (arithmetic op dst lhs rhs).forM emit
      appendReg dst
  | n => refuse id n

def unary : Emission := fun _ id => do
  match ← node id with
  | .unary op _ =>
      let src ← operandAt id 0
      let dst ← freshReg
      match op with
      | .neg => [.move (.vreg dst) src, .unary .neg (.vreg dst)].forM emit
      | .not => [.move (.vreg dst) src, .unary .not (.vreg dst)].forM emit
      | .logicalNot => (comparison .e dst src (.imm 0)).forM emit
      appendReg dst
  | n => refuse id n

def compare : Emission := fun _ id => do
  match ← node id with
  | .compare op _ _ =>
      let lhs ← operandAt id 0
      let rhs ← operandAt id 1
      let dst ← freshReg
      (comparison op.condition dst lhs rhs).forM emit
      appendReg dst
  | n => refuse id n

/-- Both sides are made 0 or 1 before they are combined. -/
def logical : Emission := fun _ id => do
  match ← node id with
  | .logical op _ _ =>
      let lhs ← operandAt id 0
      let rhs ← operandAt id 1
      let left ← freshReg
      (comparison .ne left lhs (.imm 0)).forM emit
      let right ← freshReg
      (comparison .ne right rhs (.imm 0)).forM emit
      let dst ← freshReg
      emit (.move (.vreg dst) (.vreg left))
      emit (.binary (match op with | .and => .and | .or => .or) (.vreg dst) (.vreg right))
      appendReg dst
  | n => refuse id n

/-- The value of a group is that of its inner node. -/
def inner : Emission := fun _ id => do
  match ← child? id 0 with
  | some child => return child
  | none => fail (.notOperand id (← kind id))

def signExtend : Emission := fun _ id => do
  let src ← operandAt id 0
  let dst ← freshReg
  emit (.binary .movsx (.vreg dst) src)
  appendReg dst

/-! ## Memory -/

/-- The memory cell a register points to. -/
def deref : Emission := fun _ id => do
  match ← operandAt id 0 with
  | .vreg base => append (.mem (.ofReg base 0))
  | _ => fail (.notOperand id .deref)

/-- The memory cell at a fixed distance from the one a register points to. -/
def derefFolded : Emission := fun _ id => do
  match ← child? id 0 with
  | none => fail (.notOperand id .deref)
  | some sum =>
      match ← node sum with
      | .binary op _ _ =>
          let base ← operandAt sum 0
          let offset ← operandAt sum 1
          match base, offset with
          | .vreg base, .imm offset =>
              match displacement? op offset with
              | some disp => append (.mem (.ofReg base disp))
              | none => fail (.notOperand id .deref)
          | _, _ => fail (.notOperand id .deref)
      | _ => fail (.notOperand id .deref)

/-- The value of an assignment is the value it stores. -/
def store : Emission := fun _ id => do
  let target ← operandAt id 0
  let value ← operandAt id 1
  emit (.move target value)
  match ← child? id 1 with
  | some child => return child
  | none => fail (.notOperand id .assign)

/-! ## Calls -/

/-- The instructions of a call with its arguments at hand: the later ones are pushed from the last
on, the first six are moved into their registers, and the stack is cleared afterwards. -/
def callSequence (callee : String) (values : List Operand) (dst : VirtualReg) : List Instr :=
  let inRegs := MachineReg.arguments.length
  let stacked := values.length - inRegs
  (values.drop inRegs).reverse.map (.unary .push) ++
    (values.zip MachineReg.arguments).map (fun (value, reg) => .move (.fixed reg) value) ++
    [.unary .call (.symbol callee)] ++
    (if stacked = 0 then [] else [.binary .add (.fixed .rsp) (.imm (8 * stacked))]) ++
    [.move (.vreg dst) (.fixed .rax)]

/-- Arguments are selected left to right, each as a tree of its own. -/
def call : Emission := fun r id => do
  match ← node id with
  | .call callee args =>
      let values ← args.mapM fun arg => do operand (← r.select arg .reg)
      let dst ← freshReg
      (callSequence callee values dst).forM emit
      appendReg dst
  | n => refuse id n

end X64
end Codegen
