import Codegen.Expr.Arena
import Codegen.Proofs.Machine

/-!
# Evaluation — the meaning of expression trees

Expressions are evaluated over 64-bit words and a memory of word cells, strictly and from left to
right.  A variable, a memory cell and a dereference name a place; as values they are loaded, and
they are what can be assigned to.  An assignment computes its place, then its value, then stores.

* `BinaryOp.apply?`, `UnaryOp.apply`, `CompareOp.holds`, `LogicalOp.apply` : the operators
* `Env`       : what the memory is not: frame pointer and registers
* `Evaluates` : a node has a value, and leaves a memory behind
* `Locates`   : a node names a place
-/

namespace Codegen

/-! ## Operators -/

/-- The word for a truth value. -/
def truth (b : Bool) : Word := if b then 1 else 0

theorem truth_and (a b : Bool) : truth a &&& truth b = truth (a && b) := by
  cases a <;> cases b <;> rfl

theorem truth_or (a b : Bool) : truth a ||| truth b = truth (a || b) := by
  cases a <;> cases b <;> rfl

/-- Division by zero and the one division with a quotient out of range have no result; a shift count
counts modulo 64. -/
def BinaryOp.apply? : BinaryOp → Word → Word → Option Word
  | .add, x, y => some (x + y)
  | .sub, x, y => some (x - y)
  | .mul, x, y => some (x * y)
  | .div, x, y => if y = 0 ∨ (x = BitVec.intMin 64 ∧ y = -1) then none else some (x.sdiv y)
  | .rem, x, y => if y = 0 ∨ (x = BitVec.intMin 64 ∧ y = -1) then none else some (x.srem y)
  | .and, x, y => some (x &&& y)
  | .or, x, y => some (x ||| y)
  | .xor, x, y => some (x ^^^ y)
  | .shl, x, y => some (x <<< (y.toNat % 64))
  | .shr, x, y => some (x.sshiftRight (y.toNat % 64))

def UnaryOp.apply : UnaryOp → Word → Word
  | .neg, x => -x
  | .not, x => ~~~x
  | .logicalNot, x => truth (x == 0)

/-- Words compare as signed numbers. -/
def CompareOp.holds : CompareOp → Word → Word → Bool
  | .eq, x, y => x == y
  | .ne, x, y => x != y
  | .lt, x, y => x.slt y
  | .le, x, y => x.sle y
  | .gt, x, y => y.slt x
  | .ge, x, y => y.sle x

def LogicalOp.apply : LogicalOp → Word → Word → Word
  | .and, x, y => truth (x != 0 && y != 0)
  | .or, x, y => truth (x != 0 || y != 0)

/-! ## Evaluation -/

/-- What an expression can read besides the memory. -/
structure Env where
  frame : Word
  regs : Nat → Word

def Env.address (env : Env) (a : Address) : Word :=
  match a.base with
  | .absolute => BitVec.ofInt 64 a.disp
  | .framePointer => env.frame + BitVec.ofInt 64 a.disp
  | .reg r => env.regs r.index + BitVec.ofInt 64 a.disp

/-- The kinds that name a place. -/
def NodeKind.IsPlace (k : NodeKind) : Prop := k = .var ∨ k = .mem ∨ k = .deref

mutual

/-- In memory `m` the node has the value `v`, and its evaluation leaves the memory `m'`; `extend`
is the sign extension. -/
inductive Evaluates (extend : Word → Word) (env : Env) (a : Arena) :
    Node → Memory → Word → Memory → Prop
  | load {n : Node} {m m' : Memory} {p : Word} :
      Locates extend env a n m p m' → Evaluates extend env a n m (m' p) m'
  | literal {value : Int} {m : Memory} :
      Evaluates extend env a (.literal value) m (BitVec.ofInt 64 value) m
  | vreg {r : VirtualReg} {m : Memory} : Evaluates extend env a (.vreg r) m (env.regs r.index) m
  | framePointer {m : Memory} : Evaluates extend env a .framePointer m env.frame m
  | addrOf {var : Variable} {m : Memory} :
      Evaluates extend env a (.addrOf var) m (env.address (.frame var.offset)) m
  | binary {op : BinaryOp} {lhs rhs : NodeId} {l r : Node} {m m₁ m' : Memory} {x y v : Word} :
      a.get? lhs = some l → Evaluates extend env a l m x m₁ →
      a.get? rhs = some r → Evaluates extend env a r m₁ y m' →
      op.apply? x y = some v → Evaluates extend env a (.binary op lhs rhs) m v m'
  | unary {op : UnaryOp} {operand : NodeId} {n : Node} {m m' : Memory} {x : Word} :
      a.get? operand = some n → Evaluates extend env a n m x m' →
      Evaluates extend env a (.unary op operand) m (op.apply x) m'
  | grouping {inner : NodeId} {n : Node} {m m' : Memory} {v : Word} :
      a.get? inner = some n → Evaluates extend env a n m v m' →
      Evaluates extend env a (.grouping inner) m v m'
  | compare {op : CompareOp} {lhs rhs : NodeId} {l r : Node} {m m₁ m' : Memory} {x y : Word} :
      a.get? lhs = some l → Evaluates extend env a l m x m₁ →
      a.get? rhs = some r → Evaluates extend env a r m₁ y m' →
      Evaluates extend env a (.compare op lhs rhs) m (truth (op.holds x y)) m'
  | logical {op : LogicalOp} {lhs rhs : NodeId} {l r : Node} {m m₁ m' : Memory} {x y : Word} :
      a.get? lhs = some l → Evaluates extend env a l m x m₁ →
      a.get? rhs = some r → Evaluates extend env a r m₁ y m' →
      Evaluates extend env a (.logical op lhs rhs) m (op.apply x y) m'
  | assign {target value : NodeId} {l r : Node} {m m₁ m' : Memory} {p v : Word} :
      a.get? target = some l → Locates extend env a l m p m₁ →
      a.get? value = some r → Evaluates extend env a r m₁ v m' →
      Evaluates extend env a (.assign target value) m v (Function.update m' p v)
  | signExtend {inner : NodeId} {n : Node} {m m' : Memory} {x : Word} :
      a.get? inner = some n → Evaluates extend env a n m x m' →
      Evaluates extend env a (.signExtend inner) m (extend x) m'

/-- The node names the place at address `p`; finding it leaves the memory `m'`. -/
inductive Locates (extend : Word → Word) (env : Env) (a : Arena) :
    Node → Memory → Word → Memory → Prop
  | var {var : Variable} {m : Memory} :
      Locates extend env a (.var var) m (env.address (.frame var.offset)) m
  | mem {addr : Address} {m : Memory} : Locates extend env a (.mem addr) m (env.address addr) m
  | deref {inner : NodeId} {n : Node} {m m' : Memory} {p : Word} :
      a.get? inner = some n → Evaluates extend env a n m p m' →
      Locates extend env a (.deref inner) m p m'

end

/-- The value of a place is what is found there. -/
theorem Evaluates.exists_locates {extend : Word → Word} {env : Env} {a : Arena} {n : Node}
    (hplace : n.kind.IsPlace) {m m' : Memory} {v : Word} (h : Evaluates extend env a n m v m') :
    ∃ p, Locates extend env a n m p m' ∧ v = m' p := by
  cases h with
  | load hloc => exact ⟨_, hloc, rfl⟩
  | _ => simp [NodeKind.IsPlace, Node.kind] at hplace

end Codegen
