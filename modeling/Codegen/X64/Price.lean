import Codegen.Expr.Arena

/-!
# Price — prices of x86-64 rules that depend on the node

A price of `none` keeps a rule from applying.
-/

namespace Codegen
namespace X64

/-- Whether a value can be an immediate or a displacement: 32 bits, sign-extended. -/
def fits32 (value : Int) : Bool := -0x80000000 ≤ value && value < 0x80000000

/-- The displacement that adding or subtracting an offset amounts to, if it can be encoded. -/
def displacement? (op : BinaryOp) (offset : Int) : Option Int :=
  let disp := if op = .sub then -offset else offset
  if fits32 disp then some disp else none

namespace Price

/-- A literal that fits an immediate operand costs nothing. -/
def literal (arena : Arena) (id : NodeId) : Except Fault (Option Nat) := do
  match ← arena.node id with
  | .literal value => return if fits32 value then some 0 else none
  | _ => return none

/-- A literal too wide for an immediate operand has to be moved into a register. -/
def wideLiteral (arena : Arena) (id : NodeId) : Except Fault (Option Nat) := do
  match ← arena.node id with
  | .literal value => return if fits32 value then none else some 2
  | _ => return none

/-- A price by operator, for binary nodes only. -/
def byOperator (price : BinaryOp → Option Nat) (arena : Arena) (id : NodeId) :
    Except Fault (Option Nat) := do
  match ← arena.node id with
  | .binary op _ _ => return price op
  | _ => return none

/-- Division takes no immediate. -/
def binaryImm : Arena → NodeId → Except Fault (Option Nat) :=
  byOperator fun
    | .div | .rem => none
    | _ => some 2

/-- Division takes no memory operand, and a shift count in memory goes through a register. -/
def binaryMem : Arena → NodeId → Except Fault (Option Nat) :=
  byOperator fun
    | .div | .rem => none
    | .shl | .shr => some 3
    | _ => some 2

/-- Division moves its operands to and from fixed registers, a shift its count. -/
def binaryReg : Arena → NodeId → Except Fault (Option Nat) :=
  byOperator fun
    | .div | .rem => some 4
    | .shl | .shr => some 3
    | _ => some 2

/-- Folding a sum or difference with a literal into an address is free if the displacement can be
encoded. -/
def foldedDeref (arena : Arena) (id : NodeId) : Except Fault (Option Nat) := do
  match ← arena.child? id 0 with
  | none => return none
  | some inner =>
      match ← arena.node inner with
      | .binary op _ rhs =>
          if op = .add ∨ op = .sub then
            match ← arena.node rhs with
            | .literal value => return (displacement? op value).map fun _ => 0
            | _ => return none
          else
            return none
      | _ => return none

/-- A call costs more with each argument. -/
def call (arena : Arena) (id : NodeId) : Except Fault (Option Nat) := do
  match ← arena.node id with
  | .call _ args => return some (2 + args.length)
  | _ => return none

end Price

end X64
end Codegen
