import Codegen.Labeling

/-!
# Reduction — instructions for a labeled tree

A node is reduced to a nonterminal by the rule recorded for the two.  First the subtrees that the
rule's pattern binds to nonterminals are reduced, left to right, and the nodes standing for their
values take their places; a chain rule reduces the node itself to its inner nonterminal instead.
Then the rule's emission procedure runs.  So the instructions that compute a value come before the
ones that use it.
-/

namespace Codegen
namespace Target

/-! ## Labels within a selection -/

/-- Labels the subtree of a node, in the table of the selection. -/
def relabel (t : Target) (id : NodeId) : SelectM Unit := fun s =>
  match t.label s.arena id { table := s.table, trace := s.trace } with
  | .ok _ l => .ok () { s with table := l.table, trace := l.trace }
  | .error f l => .error (.fault f) { s with table := l.table, trace := l.trace }

/-! ## Bound subtrees -/

/-- The child of a matched node in a slot of its pattern. -/
def boundChild (rule : String) (id : NodeId) (slot : Nat) : SelectM NodeId := do
  match ← SelectM.child? id slot with
  | some child => return child
  | none => SelectM.fail (.malformedRule rule (.missingChild (← SelectM.kind id) id slot))

mutual

/-- Reduces what a sub-pattern in slot `slot` of the node `id` binds to nonterminals. -/
def bindSub (reduce : NodeId → Nonterminal → SelectM NodeId) (rule : String) :
    Pattern → NodeId → Nat → SelectM Unit
  | .nt x, id, slot => do
      let child ← boundChild rule id slot
      let value ← reduce child x
      SelectM.setChild id slot value
  | .node _ subs, id, slot => do
      let child ← boundChild rule id slot
      bindSubs reduce rule subs child 0

/-- Reduces what the sub-patterns from slot `slot` on bind to nonterminals. -/
def bindSubs (reduce : NodeId → Nonterminal → SelectM NodeId) (rule : String) :
    List Pattern → NodeId → Nat → SelectM Unit
  | [], _, _ => return ()
  | p :: ps, id, slot => do
      bindSub reduce rule p id slot
      bindSubs reduce rule ps id (slot + 1)

end

/-! ## Reducing -/

/-- Labels a subtree that was left out so far, then reduces it.  Its root must be in the table. -/
def selectWith (t : Target) (reduce : NodeId → Nonterminal → SelectM NodeId) (id : NodeId)
    (goal : Nonterminal) : SelectM NodeId := do
  if (← get).table.covers id then
    t.relabel id
    reduce id goal
  else
    SelectM.fail (.detached id (← SelectM.kind id))

/-- Reduces a node to a nonterminal and returns the node that stands for its value; `fuel` bounds
the nesting. -/
def reduce (t : Target) : Nat → NodeId → Nonterminal → SelectM NodeId
  | 0, _, _ => throw (.fault .endless)
  | fuel + 1, id, goal => do
      match (← get).table.best id goal with
      | none => SelectM.fail (.noRule id (← SelectM.kind id) goal)
      | some choice =>
          match t.grammar.rules[choice.rule]? with
          | none => throw (.fault (.unknownRule choice.rule))
          | some r =>
              let bound ← match r.pattern with
                | .nt x => reduce t fuel id x
                | .node _ subs => do
                    bindSubs (reduce t fuel) r.name subs id 0
                    pure id
              SelectM.log (.reduced id goal r.name)
              SelectM.tally r.name
              r.emit { select := t.selectWith (reduce t fuel), reduce := reduce t fuel } bound

/-- How many steps forward there are in the selection of one tree: a child slot moves further down
the tree, a mask gains a bit, or a recorded cost falls. -/
def progress (t : Target) (arena : Arena) : Nat :=
  let slots := 2 * arena.size
  slots * (arena.size + 1) + arena.size * (64 * t.grammar.size + (Label.blank 0).potential)

/-- A nesting depth that suffices for an arena: between two steps forward a node comes up at most
once for each nonterminal, for otherwise it would come up without end. -/
def nesting (t : Target) (arena : Arena) : Nat :=
  Nonterminal.all.length * (arena.size + 1) * (t.progress arena + 1)

/-- Selects the tree of a node, and returns the node that stands for its value. -/
def selectRoot (t : Target) (root : NodeId) : SelectM NodeId := do
  modify fun s => { s with table := .blank s.arena.size t.grammar.size }
  t.relabel root
  let value ← t.reduce (t.nesting (← get).arena) root t.grammar.start
  modify fun s => { s with stats := { s.stats with trees := s.stats.trees + 1 } }
  return value

end Target
end Codegen
