import Codegen.Proofs.Derivation
import Mathlib.Algebra.GroupWithZero.Nat

/-!
# Postorder — derivations as lists of actions

What a reduction does with a tree can be read off a derivation: for each subtree that a pattern
binds to a nonterminal first the actions for the subtree, from left to right, then the value takes
the slot of the subtree, and in the end the rule itself is applied; a chain rule after what it
starts from.

* `Application`, `Action`   : a rule is applied to a node, or a value takes a slot
* `Grammar.Postorder`       : a list of actions is the post-order of a derivation
* `Postorder.derives`       : it costs the sum of the base costs
* `Postorder.nodup`         : no node of a tree is reduced twice by a rule of another form than a
  chain rule
-/

namespace Codegen

/-! ## Actions -/

/-- One application of a rule: the node that is reduced, the rule and its base cost there, the node
that the procedure of the rule is handed, and the node that it returns. -/
structure Application where
  id : NodeId
  rule : Rule
  cost : Nat
  handed : NodeId
  value : NodeId

/-- What a reduction does: it applies a rule, or points a slot of a node to the value of what was
there. -/
inductive Action
  | apply (step : Application)
  | splice (id : NodeId) (slot : Nat) (value : NodeId)

namespace Application

def event (step : Application) : Event := .reduced step.id step.rule.result step.rule.name

/-- The sum of the base costs. -/
def total (steps : List Application) : Nat := (steps.map cost).sum

/-- The nodes that are reduced by other rules than chain rules. -/
def matched (steps : List Application) : List NodeId :=
  (steps.filter (·.rule.chain?.isNone)).map id

variable {steps steps' : List Application}

theorem total_append : total (steps ++ steps') = total steps + total steps' := by
  simp [total]

theorem total_concat (step : Application) : total (steps ++ [step]) = step.cost + total steps := by
  rw [total_append, Nat.add_comm]
  rfl

theorem matched_append : matched (steps ++ steps') = matched steps ++ matched steps' := by
  simp [matched]

theorem exists_of_mem_matched {m : NodeId} (h : m ∈ matched steps) :
    ∃ step ∈ steps, step.id = m := by
  rcases List.mem_map.1 h with ⟨step, hstep, rfl⟩
  exact ⟨step, (List.mem_filter.1 hstep).1, rfl⟩

end Application

namespace Action

def step? : Action → Option Application
  | .apply step => some step
  | .splice .. => none

/-- The applications among the actions. -/
def steps (actions : List Action) : List Application := actions.filterMap step?

theorem steps_append (actions actions' : List Action) :
    steps (actions ++ actions') = steps actions ++ steps actions' :=
  List.filterMap_append

theorem steps_concat (actions : List Action) (step : Application) :
    steps (actions ++ [.apply step]) = steps actions ++ [step] :=
  steps_append actions [.apply step]

end Action

/-- A value takes the slot that a nonterminal is bound in; a node that the pattern looks into stays
where it is. -/
def Pattern.splice (p : Pattern) (id : NodeId) (slot : Nat) (value : NodeId) : List Action :=
  match p with
  | .nt _ => [.splice id slot value]
  | .node .. => []

theorem Pattern.steps_splice (p : Pattern) (id : NodeId) (slot : Nat) (value : NodeId) :
    Action.steps (p.splice id slot value) = [] := by
  cases p <;> rfl

open Action (steps steps_append steps_concat)
open Application (total matched total_append total_concat matched_append)

/-! ## Post-order -/

namespace Grammar

mutual

/-- The actions are those of a derivation of `id` to `x`, in post-order, and `v` is the value. -/
inductive Postorder (g : Grammar) (a : Arena) :
    NodeId → Nonterminal → NodeId → List Action → Prop
  | rule {r : Rule} {id handed v : NodeId} {base : Nat} {actions : List Action} : r ∈ g.rules →
      r.cost.base? a id = .ok (some base) → PostorderBound g a r.pattern id handed actions →
        Postorder g a id r.result v (actions ++ [.apply ⟨id, r, base, handed, v⟩])

/-- The actions for what a pattern binds.  The node that goes on from there is the value of a chain
rule's inner nonterminal, or the matched node itself. -/
inductive PostorderBound (g : Grammar) (a : Arena) :
    Pattern → NodeId → NodeId → List Action → Prop
  | nt {x : Nonterminal} {id v : NodeId} {actions : List Action} :
      Postorder g a id x v actions → PostorderBound g a (.nt x) id v actions
  | node {kind : NodeKind} {subs : List Pattern} {id : NodeId} {n : Node}
      {actions : List Action} : a.get? id = some n → n.kind = kind →
        PostorderAll g a subs id 0 n.children actions →
        PostorderBound g a (.node kind subs) id id actions

/-- The actions for what several patterns bind in the slots of `id` from a slot on, from left to
right. -/
inductive PostorderAll (g : Grammar) (a : Arena) :
    List Pattern → NodeId → Nat → List NodeId → List Action → Prop
  | nil {id : NodeId} {slot : Nat} : PostorderAll g a [] id slot [] []
  | cons {p : Pattern} {ps : List Pattern} {id c v : NodeId} {slot : Nat} {cs : List NodeId}
      {actions actions' : List Action} : PostorderBound g a p c v actions →
        PostorderAll g a ps id (slot + 1) cs actions' →
        PostorderAll g a (p :: ps) id slot (c :: cs) (actions ++ p.splice id slot v ++ actions')

end

variable {g : Grammar} {a : Arena}

theorem steps_cons (p : Pattern) (actions actions' : List Action) (id v : NodeId) (slot : Nat) :
    steps (actions ++ p.splice id slot v ++ actions') = steps actions ++ steps actions' := by
  rw [steps_append, steps_append, Pattern.steps_splice, List.append_nil]

mutual

/-- What is in post-order is a derivation, and costs the sum of the base costs. -/
theorem Postorder.derives : {id v : NodeId} → {x : Nonterminal} → {actions : List Action} →
    g.Postorder a id x v actions → g.Derives a id x (total (steps actions))
  | _, _, _, _, .rule hr hbase hbound => by
      rw [steps_concat, total_concat]
      exact .rule hr hbase hbound.covers

theorem PostorderBound.covers : {p : Pattern} → {id v : NodeId} → {actions : List Action} →
    g.PostorderBound a p id v actions → g.Covers a p id (total (steps actions))
  | _, _, _, _, .nt h => .nt h.derives
  | _, _, _, _, .node hn hkind hall => .node hn hkind hall.coversAll

theorem PostorderAll.coversAll : {ps : List Pattern} → {id : NodeId} → {slot : Nat} →
    {cs : List NodeId} → {actions : List Action} → g.PostorderAll a ps id slot cs actions →
    g.CoversAll a ps cs (total (steps actions))
  | _, _, _, _, _, .nil => .nil
  | _, _, _, _, _, .cons hfirst hrest => by
      rw [steps_cons, total_append]
      exact .cons hfirst.covers hrest.coversAll

end

mutual

/-- All applications are at nodes of the tree. -/
theorem Postorder.id_below : {id v : NodeId} → {x : Nonterminal} → {actions : List Action} →
    g.Postorder a id x v actions → ∀ step ∈ steps actions, a.Below Node.children id step.id
  | id, _, _, _, .rule _ _ hbound => by
      intro step hstep
      rw [steps_concat] at hstep
      rcases List.mem_append.1 hstep with hstep | hstep
      · exact hbound.id_below step hstep
      · rw [List.mem_singleton.1 hstep]
        exact .refl id

theorem PostorderBound.id_below : {p : Pattern} → {id v : NodeId} → {actions : List Action} →
    g.PostorderBound a p id v actions →
    ∀ step ∈ steps actions, a.Below Node.children id step.id
  | _, _, _, _, .nt h => h.id_below
  | _, _, _, _, .node hn _ hall => by
      intro step hstep
      rcases hall.id_below step hstep with ⟨c, hc, hbelow⟩
      exact (Arena.Below.of_mem hn hc).trans hbelow

theorem PostorderAll.id_below : {ps : List Pattern} → {id : NodeId} → {slot : Nat} →
    {cs : List NodeId} → {actions : List Action} → g.PostorderAll a ps id slot cs actions →
    ∀ step ∈ steps actions, ∃ c ∈ cs, a.Below Node.children c step.id
  | _, _, _, _, _, .nil => by simp [steps]
  | _, _, _, c :: cs, _, .cons hfirst hrest => by
      intro step hstep
      rw [steps_cons] at hstep
      rcases List.mem_append.1 hstep with hstep | hstep
      · exact ⟨c, List.mem_cons_self, hfirst.id_below step hstep⟩
      · rcases hrest.id_below step hstep with ⟨c', hc', hbelow⟩
        exact ⟨c', List.mem_cons_of_mem c hc', hbelow⟩

end

end Grammar

/-- No node is below two of the nodes. -/
def Arena.Disjoint (a : Arena) (ids : List NodeId) : Prop :=
  ids.Pairwise fun id id' => ∀ m, a.Below Node.children id m → ¬ a.Below Node.children id' m

theorem Arena.IsTree.disjoint_children {a : Arena} {id : NodeId} {n : Node}
    (h : a.IsTree Node.children id) (hn : a.get? id = some n) : a.Disjoint n.children := by
  refine List.pairwise_iff_getElem.2 ?_
  intro i j hi hj hlt m hm hm'
  have := h.slot_unique hn (List.getElem?_eq_getElem hi) (List.getElem?_eq_getElem hj) hm hm'
  omega

namespace Grammar

variable {g : Grammar} {a : Arena}

/-- What a pattern with a node at its root binds is further down. -/
theorem PostorderBound.id_ne {p : Pattern} {id v : NodeId} {actions : List Action}
    {kind : NodeKind} {subs : List Pattern} (h : g.PostorderBound a p id v actions)
    (htree : a.IsTree Node.children id) (hp : p = .node kind subs) :
    ∀ step ∈ steps actions, step.id ≠ id := by
  cases h with
  | nt => cases hp
  | node hn _ hall =>
      intro step hstep
      rcases hall.id_below step hstep with ⟨c, hc, hbelow⟩
      rcases List.mem_iff_getElem?.1 hc with ⟨slot, hslot⟩
      exact htree.ne_of_below_child hn hslot hbelow

mutual

/-- In a tree no node is reduced twice by a rule that is not a chain rule. -/
theorem Postorder.nodup : {id v : NodeId} → {x : Nonterminal} → {actions : List Action} →
    a.IsTree Node.children id → g.Postorder a id x v actions → (matched (steps actions)).Nodup
  | id, v, _, _, htree, @Postorder.rule _ _ r _ handed _ base _ _ _ hbound => by
      rw [steps_concat, matched_append]
      cases hpattern : r.pattern with
      | nt y =>
          have hchain : matched [⟨id, r, base, handed, v⟩] = [] := by
            simp [matched, Rule.chain?, hpattern]
          rw [hchain, List.append_nil]
          exact hbound.nodup htree
      | node kind subs =>
          have hself : matched [⟨id, r, base, handed, v⟩] = [id] := by
            simp [matched, Rule.chain?, hpattern]
          rw [hself]
          refine List.nodup_append.2 ⟨hbound.nodup htree, List.pairwise_singleton _ id, ?_⟩
          intro m hm m' hm'
          rcases Application.exists_of_mem_matched hm with ⟨step, hstep, rfl⟩
          rw [List.mem_singleton.1 hm']
          exact hbound.id_ne htree hpattern step hstep

theorem PostorderBound.nodup : {p : Pattern} → {id v : NodeId} → {actions : List Action} →
    a.IsTree Node.children id → g.PostorderBound a p id v actions →
    (matched (steps actions)).Nodup
  | _, _, _, _, htree, .nt h => h.nodup htree
  | _, _, _, _, htree, .node hn _ hall =>
      hall.nodup (fun _ hc => htree.of_below (.of_mem hn hc)) (htree.disjoint_children hn)

theorem PostorderAll.nodup : {ps : List Pattern} → {id : NodeId} → {slot : Nat} →
    {cs : List NodeId} → {actions : List Action} → (∀ c ∈ cs, a.IsTree Node.children c) →
    a.Disjoint cs → g.PostorderAll a ps id slot cs actions → (matched (steps actions)).Nodup
  | _, _, _, _, _, _, _, .nil => List.nodup_nil
  | _, _, _, c :: cs, _, htrees, hdisjoint, .cons hfirst hrest => by
      rcases List.pairwise_cons.1 hdisjoint with ⟨hapart, hdisjoint⟩
      rw [steps_cons, matched_append]
      refine List.nodup_append.2 ⟨hfirst.nodup (htrees c List.mem_cons_self),
        hrest.nodup (fun c' hc' => htrees c' (List.mem_cons_of_mem c hc')) hdisjoint, ?_⟩
      intro m hm m' hm' hid
      rcases Application.exists_of_mem_matched hm with ⟨step, hstep, rfl⟩
      rcases Application.exists_of_mem_matched hm' with ⟨step', hstep', rfl⟩
      rcases hrest.id_below step' hstep' with ⟨c', hc', hbelow⟩
      exact hapart c' hc' step.id (hfirst.id_below step hstep) (hid ▸ hbelow)

end

end Grammar

end Codegen
