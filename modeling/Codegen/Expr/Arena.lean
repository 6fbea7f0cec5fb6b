import Codegen.Error

/-!
# Arena — the store of expression trees

All trees of a function live in one arena.  Nodes are appended and never removed; what can change
afterwards is a child slot.  Reading a node outside the arena is a fault.
-/

namespace Codegen

structure Arena where
  nodes : Array Node := #[]
  deriving DecidableEq

namespace Arena

def size (a : Arena) : Nat := a.nodes.size

def get? (a : Arena) (id : NodeId) : Option Node := a.nodes[id]?

/-- The node at a position. -/
def node (a : Arena) (id : NodeId) : Except Fault Node :=
  match a.get? id with
  | some n => .ok n
  | none => .error (.outsideArena id)

def kind (a : Arena) (id : NodeId) : Except Fault NodeKind := do
  return (← a.node id).kind

def children (a : Arena) (id : NodeId) : Except Fault (List NodeId) := do
  return (← a.node id).children

/-- The child in slot `index` of the node at `id`, if it has that slot. -/
def child? (a : Arena) (id : NodeId) (index : Nat) : Except Fault (Option NodeId) := do
  return (← a.node id).children[index]?

/-- Appends a node; its position is the arena's size before. -/
def push (a : Arena) (n : Node) : Arena := ⟨a.nodes.push n⟩

/-- Puts another node at a position of the arena. -/
def set (a : Arena) (id : NodeId) (n : Node) : Arena := ⟨a.nodes.setIfInBounds id n⟩

/-- The arena with slot `index` of the node at `id` pointing to `new`, if there is that slot. -/
def setChild? (a : Arena) (id : NodeId) (index : Nat) (new : NodeId) :
    Except Fault (Option Arena) := do
  let n ← a.node id
  return (n.setChild? index new).map (a.set id)

/-! ## Reading back -/

@[simp] theorem size_push (a : Arena) (n : Node) : (a.push n).size = a.size + 1 := by
  simp [push, size]

theorem get?_eq_none_iff {a : Arena} {id : NodeId} : a.get? id = none ↔ a.size ≤ id := by
  simp [get?, size]

theorem get?_push (a : Arena) (n : Node) (id : NodeId) :
    (a.push n).get? id = if id = a.size then some n else a.get? id :=
  Array.getElem?_push

theorem node_eq_ok_iff {a : Arena} {id : NodeId} {n : Node} :
    a.node id = .ok n ↔ a.get? id = some n := by
  unfold node
  cases a.get? id <;> simp

theorem node_eq_error_iff {a : Arena} {id : NodeId} {f : Fault} :
    a.node id = .error f ↔ a.get? id = none ∧ f = .outsideArena id := by
  unfold node
  cases a.get? id <;> simp [eq_comm]

end Arena

end Codegen
