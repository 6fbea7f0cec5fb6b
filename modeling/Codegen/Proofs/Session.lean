import Codegen.Proofs.Selecting

/-!
# Session — what selections do, however they end

A selection that fails keeps what was done before the failure, and the next one goes on from there.
So what is to hold of the state after any number of selections has to survive every way in which a
run can end.

* `SelectM.final`              : the state that a run ends in
* `Selection.Stepwise`         : relations between states that everything but emissions respects
* `Target.selectRoot_ensures`  : then selections respect them if the emissions do
* `Target.Selects`             : selections one after the other, some of them failing
-/

namespace Codegen

namespace SelectM

variable {α β : Type} {m : SelectM α} {f : α → SelectM β} {s s₁ : Selection} {v : α} {e : Failure}

/-- The state that a run ends in, whether it succeeds or fails. -/
def final (m : SelectM α) (s : Selection) : Selection :=
  match m.run s with
  | .ok _ s' | .error _ s' => s'

theorem final_bind_of_ok (h : m.run s = .ok v s₁) : (m >>= f).final s = (f v).final s₁ := by
  rw [final, run_bind_of_ok h, final]

theorem final_bind_of_error (h : m.run s = .error e s₁) : (m >>= f).final s = s₁ := by
  rw [final, EStateM.run_bind, h]

end SelectM

theorem Ensures.final {P : Selection → Prop} {α : Type} {Q : α → Selection → Prop} {x : SelectM α}
    {s : Selection} (h : Ensures P Q (x.run s)) : P (x.final s) := by
  rw [SelectM.final]
  cases hrun : x.run s with
  | ok v s' =>
      rw [hrun] at h
      exact h.1
  | error e s' =>
      rw [hrun] at h
      exact h

/-! ## Reading -/

namespace SelectM

variable (s : Selection) (id : NodeId) (slot : Nat)

theorem ofArena_ensures {α : Type} (f : Arena → Except Fault α) :
    Ensures (· = s) (fun a _ => f s.arena = .ok a) ((ofArena f).run s) := by
  rw [ofArena, run_bind_of_ok (EStateM.run_get s)]
  cases hf : f s.arena with
  | ok a => exact ⟨rfl, rfl⟩
  | error e => exact rfl

theorem node_ensures :
    Ensures (· = s) (fun n _ => s.arena.get? id = some n) ((node id).run s) :=
  (ofArena_ensures s (·.node id)).mono (fun _ h => h) fun _ _ _ h => Arena.node_eq_ok_iff.1 h

theorem kind_ensures : Ensures (· = s) (fun _ _ => True) ((kind id).run s) :=
  (ofArena_ensures s (·.kind id)).mono (fun _ h => h) fun _ _ _ _ => trivial

theorem child?_ensures :
    Ensures (· = s) (fun c _ => ∃ n, s.arena.get? id = some n ∧ c = n.children[slot]?)
      ((child? id slot).run s) := by
  cases hn : s.arena.get? id with
  | some n =>
      rw [run_child? hn]
      exact ⟨rfl, n, rfl, rfl⟩
  | none =>
      refine (ofArena_ensures s (·.child? id slot)).mono (fun _ h => h) fun c _ _ hc => ?_
      rw [Arena.child?, Arena.node_eq_error_iff.2 ⟨hn, rfl⟩] at hc
      cases hc

theorem operand_ensures :
    Ensures (· = s) (fun o _ => s.arena.operand? id = some o) ((operand id).run s) := by
  rw [operand]
  refine (node_ensures s id).read rfl fun n hn => ?_
  rw [Arena.operand?, hn]
  cases n with
  | vreg r => exact ⟨rfl, rfl⟩
  | mem a => exact ⟨rfl, rfl⟩
  | literal value => exact ⟨rfl, rfl⟩
  | _ => exact rfl

theorem operandAt_ensures :
    Ensures (· = s) (fun o _ => ∃ c, s.arena.operand? c = some o) ((operandAt id slot).run s) := by
  rw [operandAt]
  refine (child?_ensures s id slot).read rfl fun c _ => ?_
  cases c with
  | some c =>
      exact (operand_ensures s c).mono (fun _ h => h) fun _ _ _ ho => ⟨c, ho⟩
  | none => exact (kind_ensures s id).read rfl fun _ _ => rfl

end SelectM

/-! ## Steps between emissions -/

namespace Selection

/-- The relation is a preorder that labeling, counting and replacing a child respect. -/
structure Stepwise (R : Selection → Selection → Prop) : Prop where
  refl : ∀ s, R s s
  trans : ∀ {s s' s''}, R s s' → R s' s'' → R s s''
  labels : ∀ s table trace, R s { s with table, trace }
  counts : ∀ s trees applied, R s { s with stats := { s.stats with trees, applied } }
  links : ∀ s id n slot v n', s.arena.get? id = some n → n.setChild? slot v = some n' →
    R s { s with arena := s.arena.set id n' }

end Selection

/-- Wherever selecting other nodes respects the relation, the procedure does. -/
def Emission.Respects (R : Selection → Selection → Prop) (e : Emission) : Prop :=
  ∀ (r : Reducer) id s, (∀ c x s, Ensures (R s) (fun _ _ => True) ((r.select c x).run s)) →
    Ensures (R s) (fun _ _ => True) ((e r id).run s)

section Stepwise

variable {R : Selection → Selection → Prop} (h : Selection.Stepwise R)
include h

theorem Selection.Stepwise.bind {α β : Type} {Q : α → Selection → Prop}
    {Q' : β → Selection → Prop} {x : SelectM α} {f : α → SelectM β} {s : Selection}
    (hx : Ensures (R s) Q (x.run s)) (hf : ∀ v s₁, Q v s₁ → Ensures (R s₁) Q' ((f v).run s₁)) :
    Ensures (R s) Q' ((x >>= f).run s) :=
  hx.bind fun v s₁ hs₁ hv =>
    (hf v s₁ hv).mono (fun _ hs' => h.trans hs₁ hs') fun _ _ _ hv' => hv'

theorem SelectM.setChild_ensures (id : NodeId) (slot : Nat) (v : NodeId) (s : Selection) :
    Ensures (R s) (fun _ _ => True) ((setChild id slot v).run s) := by
  rw [setChild]
  refine (node_ensures s id).read (h.refl s) fun n hn => ?_
  cases hset : n.setChild? slot v with
  | none => exact ⟨h.refl s, trivial⟩
  | some n' => exact ⟨h.links s id n slot v n' hn hset, trivial⟩

namespace Target

theorem boundChild_ensures (rule : String) (id : NodeId) (slot : Nat) (s : Selection) :
    Ensures (R s) (fun _ _ => True) ((boundChild rule id slot).run s) := by
  rw [boundChild]
  refine (SelectM.child?_ensures s id slot).read (h.refl s) fun c _ => ?_
  cases c with
  | some c => exact ⟨h.refl s, trivial⟩
  | none => exact (SelectM.kind_ensures s id).read (h.refl s) fun _ _ => h.refl s

variable {reduce : NodeId → Nonterminal → SelectM NodeId}

mutual

theorem bindSub_ensures (hreduce : ∀ c x s, Ensures (R s) (fun _ _ => True) ((reduce c x).run s))
    (rule : String) : (p : Pattern) → (id : NodeId) → (slot : Nat) → (s : Selection) →
    Ensures (R s) (fun _ _ => True) ((bindSub reduce rule p id slot).run s)
  | .nt x, id, slot, s => by
      rw [bindSub]
      refine h.bind (boundChild_ensures h rule id slot s) fun c s₁ _ => ?_
      refine h.bind (hreduce c x s₁) fun v s₂ _ => ?_
      exact SelectM.setChild_ensures h id slot v s₂
  | .node _ subs, id, slot, s => by
      rw [bindSub]
      refine h.bind (boundChild_ensures h rule id slot s) fun c s₁ _ => ?_
      exact bindSubs_ensures hreduce rule subs c 0 s₁

theorem bindSubs_ensures (hreduce : ∀ c x s, Ensures (R s) (fun _ _ => True) ((reduce c x).run s))
    (rule : String) : (ps : List Pattern) → (id : NodeId) → (slot : Nat) → (s : Selection) →
    Ensures (R s) (fun _ _ => True) ((bindSubs reduce rule ps id slot).run s)
  | [], _, _, s => by
      rw [bindSubs]
      exact ⟨h.refl s, trivial⟩
  | p :: ps, id, slot, s => by
      rw [bindSubs]
      refine h.bind (bindSub_ensures hreduce rule p id slot s) fun _ s₁ _ => ?_
      exact bindSubs_ensures hreduce rule ps id (slot + 1) s₁

end

variable (t : Target)

theorem relabel_ensures (id : NodeId) (s : Selection) :
    Ensures (R s) (fun _ _ => True) ((t.relabel id).run s) := by
  unfold EStateM.run relabel
  cases t.label s.arena id { table := s.table, trace := s.trace } with
  | ok v l => exact ⟨h.labels s l.table l.trace, trivial⟩
  | error e l => exact h.labels s l.table l.trace

theorem selectWith_ensures (hreduce : ∀ c x s, Ensures (R s) (fun _ _ => True) ((reduce c x).run s))
    (id : NodeId) (x : Nonterminal) (s : Selection) :
    Ensures (R s) (fun _ _ => True) ((t.selectWith reduce id x).run s) := by
  rw [selectWith, run_bind_of_ok (EStateM.run_get s)]
  split
  · exact h.bind (relabel_ensures h t id s) fun _ s₁ _ => hreduce id x s₁
  · exact (SelectM.kind_ensures s id).read (h.refl s) fun _ _ => h.refl s

variable {t} (hemit : ∀ r ∈ t.grammar.rules, r.emit.Respects R)
include hemit

/-- By induction on the nesting that is left: what a rule binds is reduced with less. -/
theorem reduce_ensures (fuel : Nat) (id : NodeId) (x : Nonterminal) (s : Selection) :
    Ensures (R s) (fun _ _ => True) ((t.reduce fuel id x).run s) := by
  induction fuel generalizing id x s with
  | zero => exact h.refl s
  | succ fuel ih =>
      cases hbest : s.table.best id x with
      | none =>
          rw [reduce, run_bind_of_ok (EStateM.run_get s)]
          simp only [hbest]
          exact (SelectM.kind_ensures s id).read (h.refl s) fun _ _ => h.refl s
      | some choice =>
          cases hr : t.grammar.rules[choice.rule]? with
          | none =>
              rw [reduce, run_bind_of_ok (EStateM.run_get s)]
              simp only [hbest, hr]
              exact h.refl s
          | some r =>
              have hbound : Ensures (R s) (fun _ _ => True) ((t.bound fuel r id).run s) := by
                unfold bound
                cases r.pattern with
                | nt y => exact ih id y s
                | node kind subs =>
                    refine h.bind (bindSubs_ensures h ih r.name subs id 0 s) fun _ s₁ _ => ?_
                    exact ⟨h.refl s₁, trivial⟩
              rw [run_reduce_some hbest hr]
              refine h.bind hbound fun v s₁ _ => ?_
              -- noting the application comes first, then the procedure
              have hnoted : R s₁ (s₁.applied id x r.name) :=
                h.trans (h.labels s₁ s₁.table (s₁.trace.push (.reduced id x r.name)))
                  (h.counts _ s₁.stats.trees (s₁.stats.applied.add r.name))
              refine (hemit r (List.mem_of_getElem? hr) _ v (s₁.applied id x r.name) ?_).mono
                (fun _ hs' => h.trans hnoted hs') fun _ _ _ hv => hv
              exact selectWith_ensures h t ih

theorem selectRoot_ensures (root : NodeId) (s : Selection) :
    Ensures (R s) (fun _ _ => True) ((t.selectRoot root).run s) := by
  have hblank : Ensures (R s) (fun _ _ => True) ((modify fun s : Selection =>
      { s with table := .blank s.arena.size t.grammar.size } : SelectM PUnit).run s) :=
    ⟨h.labels s _ s.trace, trivial⟩
  rw [selectRoot]
  refine h.bind hblank fun _ s₁ _ => h.bind (relabel_ensures h t root s₁) fun _ s₂ _ => ?_
  rw [run_bind_of_ok (EStateM.run_get s₂)]
  refine h.bind (reduce_ensures h hemit _ root _ s₂) fun v s₃ _ => ?_
  exact ⟨h.counts s₃ (s₃.stats.trees + 1) s₃.stats.applied, trivial⟩

end Target

end Stepwise

/-! ## Selections one after the other -/

namespace Target

/-- Selections lead from `s` to `s'`, each of a root that is admitted when its turn comes; they go
on after one that fails. -/
inductive Selects (t : Target) (admitted : Arena → NodeId → Prop) (s : Selection) :
    Selection → Prop
  | none : Selects t admitted s s
  | next {s' : Selection} {root : NodeId} : Selects t admitted s s' →
      admitted s'.arena root → Selects t admitted s ((t.selectRoot root).final s')

end Target
end Codegen
