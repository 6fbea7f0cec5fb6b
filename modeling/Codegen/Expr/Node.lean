import Codegen.Operand

/-!
# Node — the shapes of expression nodes

An expression node refers to its children by their position in an arena (`NodeId`).

* `Node`     : the shapes, with their operators and leaves
* `NodeKind` : the shape alone, without operator, leaf value or children
* `Node.children`, `Node.setChild?` : the child slots a pattern can look into

The arguments of a call are not children in this sense: a pattern sees a call as a leaf.
-/

namespace Codegen

/-- The position of a node in its arena. -/
abbrev NodeId := Nat

/-! ## Operators -/

inductive BinaryOp
  | add
  | sub
  | mul
  | div
  | rem
  | and
  | or
  | xor
  | shl
  | shr
  deriving DecidableEq

inductive UnaryOp
  | neg
  | not
  | logicalNot
  deriving DecidableEq

inductive CompareOp
  | eq
  | ne
  | lt
  | le
  | gt
  | ge
  deriving DecidableEq

namespace CompareOp

def all : List CompareOp := [.eq, .ne, .lt, .le, .gt, .ge]

def name : CompareOp → String
  | .eq => "Eq"
  | .ne => "Ne"
  | .lt => "Lt"
  | .le => "Le"
  | .gt => "Gt"
  | .ge => "Ge"

end CompareOp

inductive LogicalOp
  | and
  | or
  deriving DecidableEq

/-! ## Nodes and their kinds -/

/-- A local variable and the frame offset of its slot. -/
structure Variable where
  name : String
  offset : Int
  deriving DecidableEq

inductive Node
  | binary (op : BinaryOp) (lhs rhs : NodeId)
  | call (callee : String) (args : List NodeId)
  | literal (value : Int)
  | var (v : Variable)
  | vreg (r : VirtualReg)
  | mem (a : Address)
  | unary (op : UnaryOp) (operand : NodeId)
  | grouping (inner : NodeId)
  | deref (inner : NodeId)
  | addrOf (v : Variable)
  | compare (op : CompareOp) (lhs rhs : NodeId)
  | logical (op : LogicalOp) (lhs rhs : NodeId)
  | assign (target value : NodeId)
  | signExtend (inner : NodeId)
  | framePointer
  deriving DecidableEq

inductive NodeKind
  | binary
  | call
  | literal
  | var
  | vreg
  | mem
  | unary
  | grouping
  | deref
  | addrOf
  | compare
  | logical
  | assign
  | signExtend
  | framePointer
  deriving DecidableEq

namespace NodeKind

def all : List NodeKind :=
  [.binary, .call, .literal, .var, .vreg, .mem, .unary, .grouping, .deref, .addrOf, .compare,
    .logical, .assign, .signExtend, .framePointer]

/-- The number of children of a node of this kind. -/
def arity : NodeKind → Nat
  | .binary | .compare | .logical | .assign => 2
  | .unary | .grouping | .deref | .signExtend => 1
  | .call | .literal | .var | .vreg | .mem | .addrOf | .framePointer => 0

def name : NodeKind → String
  | .binary => "Binary"
  | .call => "Call"
  | .literal => "Literal"
  | .var => "Var"
  | .vreg => "VReg"
  | .mem => "Mem"
  | .unary => "Unary"
  | .grouping => "Grouping"
  | .deref => "Deref"
  | .addrOf => "AddrOf"
  | .compare => "Compare"
  | .logical => "Logical"
  | .assign => "Assign"
  | .signExtend => "SignExtend"
  | .framePointer => "FramePointer"

theorem arity_le_two (k : NodeKind) : k.arity ≤ 2 := by
  cases k <;> decide

theorem mem_all (k : NodeKind) : k ∈ all := by
  cases k <;> decide

end NodeKind

namespace Node

def kind : Node → NodeKind
  | .binary .. => .binary
  | .call .. => .call
  | .literal _ => .literal
  | .var _ => .var
  | .vreg _ => .vreg
  | .mem _ => .mem
  | .unary .. => .unary
  | .grouping _ => .grouping
  | .deref _ => .deref
  | .addrOf _ => .addrOf
  | .compare .. => .compare
  | .logical .. => .logical
  | .assign .. => .assign
  | .signExtend _ => .signExtend
  | .framePointer => .framePointer

/-! ## Child slots -/

/-- The children a pattern can look into, in order. -/
def children : Node → List NodeId
  | .binary _ lhs rhs | .compare _ lhs rhs | .logical _ lhs rhs => [lhs, rhs]
  | .assign target value => [target, value]
  | .unary _ operand => [operand]
  | .grouping inner | .deref inner | .signExtend inner => [inner]
  | .call .. | .literal _ | .var _ | .vreg _ | .mem _ | .addrOf _ | .framePointer => []

/-- The node with the child in slot `index` replaced, if there is such a slot. -/
def setChild? (n : Node) (index : Nat) (new : NodeId) : Option Node :=
  match n, index with
  | .binary op _ rhs, 0 => some (.binary op new rhs)
  | .binary op lhs _, 1 => some (.binary op lhs new)
  | .compare op _ rhs, 0 => some (.compare op new rhs)
  | .compare op lhs _, 1 => some (.compare op lhs new)
  | .logical op _ rhs, 0 => some (.logical op new rhs)
  | .logical op lhs _, 1 => some (.logical op lhs new)
  | .assign _ value, 0 => some (.assign new value)
  | .assign target _, 1 => some (.assign target new)
  | .unary op _, 0 => some (.unary op new)
  | .grouping _, 0 => some (.grouping new)
  | .deref _, 0 => some (.deref new)
  | .signExtend _, 0 => some (.signExtend new)
  | _, _ => none

theorem length_children (n : Node) : n.children.length = n.kind.arity := by
  cases n <;> rfl

/-- Replacing a child changes that slot and no other. -/
theorem children_setChild? {n m : Node} {index : Nat} {new : NodeId}
    (h : n.setChild? index new = some m) : m.children = n.children.set index new := by
  unfold setChild? at h
  split at h <;> simp_all [children] <;> subst h <;> rfl

theorem kind_setChild? {n m : Node} {index : Nat} {new : NodeId}
    (h : n.setChild? index new = some m) : m.kind = n.kind := by
  unfold setChild? at h
  split at h <;> simp_all [kind] <;> subst h <;> rfl

theorem isSome_setChild? (n : Node) (index : Nat) (new : NodeId) :
    (n.setChild? index new).isSome = decide (index < n.children.length) := by
  cases n <;> match index with
  | 0 => rfl
  | 1 => rfl
  | _ + 2 => simp [setChild?, children]

end Node

end Codegen
