import Codegen.Proofs.Labeling
import Codegen.Proofs.Postorder
import Codegen.Proofs.Relabeling
import Codegen.Proofs.Selecting

/-!
# Application — the rules that a selection applies, in order

A selection performs the actions of a derivation in post-order.  To apply a rule is to note it and
to run its procedure, on the value of a chain rule's inner nonterminal or on the matched node; what
the procedure of a bound subtree returns takes the place of the subtree.  While a subtree is
reduced, the slots of its nodes change, but no others, so the rest of the tree is as it was labeled
when its turn comes.

* `Target.Runs`                : what actions do to the state, procedure by procedure
* `Emission.Appends`           : a procedure that adds to the state
* `Target.realizes`            : reducing a node of a tree performs a derivation
* `Target.selectRoot_realizes` : selecting a tree performs one at the recorded cost
-/

namespace Codegen

open Action (steps steps_append steps_concat)
open Application (total matched total_append total_concat matched_append)

/-! ## What the actions do -/

namespace Target

/-- What the procedures of a reduction may call, at a nesting of at most `fuel`. -/
def reducer (t : Target) (fuel : Nat) : Reducer :=
  { select := t.selectWith (t.reduce fuel), reduce := t.reduce fuel }

/-- The actions lead from one state to the other, one after the other: an application is noted and
counted, then the procedure of the rule runs on the node that it is handed; a slot is set. -/
inductive Runs (t : Target) : Selection → List Action → Selection → Prop
  | nil (s : Selection) : Runs t s [] s
  | apply {s s₁ s' : Selection} {step : Application} {actions : List Action} (fuel : Nat) :
      (step.rule.emit (t.reducer fuel) step.handed).run
        (s.applied step.id step.rule.result step.rule.name) = .ok step.value s₁ →
      Runs t s₁ actions s' → Runs t s (.apply step :: actions) s'
  | splice {s s' : Selection} {id v : NodeId} {slot : Nat} {n n' : Node} {actions : List Action} :
      s.arena.get? id = some n → n.setChild? slot v = some n' →
      Runs t { s with arena := s.arena.set id n' } actions s' →
      Runs t s (.splice id slot v :: actions) s'

theorem Runs.append {t : Target} {s s' s'' : Selection} {actions actions' : List Action}
    (h : t.Runs s actions s') (h' : t.Runs s' actions' s'') :
    t.Runs s (actions ++ actions') s'' := by
  induction h with
  | nil s => exact h'
  | apply fuel hrun _ ih => exact .apply fuel hrun (ih h')
  | splice hn hset _ ih => exact .splice hn hset (ih h')

end Target

def Event.isReduced : Event → Bool
  | .reduced .. => true
  | _ => false

namespace Selection

/-- From `s` to `s'` the applications are noted in order, among other events, and counted; the
labels are the same, and so are the nodes that were there and are not touched. -/
structure Notes (touched : NodeId → Prop) (s s' : Selection) (steps : List Application) :
    Prop where
  table : s'.table = s.table
  size : s.arena.size ≤ s'.arena.size
  same : ∀ m < s.arena.size, ¬ touched m → s'.arena.get? m = s.arena.get? m
  events : ∃ events, s'.trace.toList = s.trace.toList ++ events ∧
    events.filter Event.isReduced = steps.map Application.event
  tally : s'.stats.applied =
    steps.foldl (fun tally step => tally.add step.rule.name) s.stats.applied

/-- Registers are issued, instructions emitted and nodes appended, and nothing else changes. -/
inductive Grows : Selection → Selection → Prop
  | refl (s : Selection) : Grows s s
  | issue {s s' : Selection} : Grows s.issued s' → Grows s s'
  | emit {s s' : Selection} (i : Instr) : Grows (s.emitted [i]) s' → Grows s s'
  | append {s s' : Selection} (n : Node) : Grows (s.appended n) s' → Grows s s'

variable {touched touched' : NodeId → Prop} {s s' s'' : Selection}
  {steps steps' : List Application}

namespace Notes

theorem refl (s : Selection) : Notes touched s s [] where
  table := rfl
  size := Nat.le_refl _
  same _ _ _ := rfl
  events := ⟨[], (List.append_nil _).symm, rfl⟩
  tally := rfl

theorem trans (h : Notes touched s s' steps) (h' : Notes touched s' s'' steps') :
    Notes touched s s'' (steps ++ steps') where
  table := h'.table.trans h.table
  size := h.size.trans h'.size
  same m hm htouched :=
    (h'.same m (Nat.lt_of_lt_of_le hm h.size) htouched).trans (h.same m hm htouched)
  events := by
    rcases h.events with ⟨events, htrace, hevents⟩
    rcases h'.events with ⟨events', htrace', hevents'⟩
    refine ⟨events ++ events', by rw [htrace', htrace, List.append_assoc], ?_⟩
    rw [List.filter_append, hevents, hevents', List.map_append]
  tally := by rw [h'.tally, h.tally, List.foldl_append]

theorem mono (hsub : ∀ m, touched m → touched' m) (h : Notes touched s s' steps) :
    Notes touched' s s' steps where
  table := h.table
  size := h.size
  same m hm htouched := h.same m hm fun hm' => htouched (hsub m hm')
  events := h.events
  tally := h.tally

/-- An application is noted. -/
theorem applied (h : Notes touched s s' steps) (step : Application) :
    Notes touched s (s'.applied step.id step.rule.result step.rule.name) (steps ++ [step]) where
  table := h.table
  size := h.size
  same := h.same
  events := by
    rcases h.events with ⟨events, htrace, hevents⟩
    refine ⟨events ++ [step.event], ?_, ?_⟩
    · rw [Selection.applied, Array.toList_push, htrace, List.append_assoc]
      rfl
    · rw [List.filter_append, hevents, List.map_append]
      rfl
  tally := by rw [Selection.applied, h.tally, List.foldl_append]; rfl

/-- The node at `id` is replaced. -/
theorem replaced (s : Selection) (id : NodeId) (n : Node) :
    Notes (· = id) s { s with arena := s.arena.set id n } [] where
  table := rfl
  size := Nat.le_of_eq (s.arena.size_set id n).symm
  same _ _ hm := s.arena.get?_set_of_ne hm n
  events := ⟨[], (List.append_nil _).symm, rfl⟩
  tally := rfl

end Notes

theorem Grows.notes (touched : NodeId → Prop) (h : Grows s s') : Notes touched s s' [] := by
  induction h with
  | refl s => exact .refl s
  | issue _ ih => exact ⟨ih.table, ih.size, ih.same, ih.events, ih.tally⟩
  | @emit s s' i _ ih =>
      rcases ih.events with ⟨events, htrace, hevents⟩
      refine ⟨ih.table, ih.size, ih.same, ⟨.emitted i :: events, ?_, hevents⟩, ih.tally⟩
      rw [htrace, emitted, emitted, Array.toList_push, List.append_assoc]
      rfl
  | @append s s' n _ ih =>
      have happended : s.arena.size ≤ (s.appended n).arena.size := by
        rw [appended, Arena.size_push]
        exact Nat.le_succ _
      refine ⟨ih.table, happended.trans ih.size, ?_, ih.events, ih.tally⟩
      intro m hm htouched
      rw [ih.same m (Nat.lt_of_lt_of_le hm happended) htouched, appended, Arena.get?_push,
        if_neg (Nat.ne_of_lt hm)]

end Selection

/-- A procedure that adds to the state: it issues registers, emits instructions, appends nodes and
returns a node; when it fails, then in a way that is allowed. -/
def Emission.Appends (allowed : Failure → Prop) (e : Emission) : Prop :=
  ∀ R id s, id < s.arena.size →
    Finishes allowed (fun v s' => v < s'.arena.size ∧ s.Grows s') ((e R id).run s)

theorem Emission.keep_appends (allowed : Failure → Prop) : Emission.keep.Appends allowed :=
  fun _ _ s hid => ⟨hid, .refl s⟩

namespace Target

/-- The actions lead from one state to the other, and nothing else happens but what is touched. -/
structure Performs (t : Target) (touched : NodeId → Prop) (s : Selection) (actions : List Action)
    (s' : Selection) : Prop where
  runs : t.Runs s actions s'
  notes : s.Notes touched s' (steps actions)

namespace Performs

variable {t : Target} {touched touched' : NodeId → Prop} {s s' s'' : Selection}
  {actions actions' : List Action}

theorem refl (s : Selection) : t.Performs touched s [] s := ⟨.nil s, .refl s⟩

theorem trans (h : t.Performs touched s actions s') (h' : t.Performs touched s' actions' s'') :
    t.Performs touched s (actions ++ actions') s'' where
  runs := h.runs.append h'.runs
  notes := by
    rw [steps_append]
    exact h.notes.trans h'.notes

theorem mono (hsub : ∀ m, touched m → touched' m) (h : t.Performs touched s actions s') :
    t.Performs touched' s actions s' :=
  ⟨h.runs, h.notes.mono hsub⟩

/-- The procedure of a rule ends the application of the rule. -/
theorem apply (h : t.Performs touched s actions s') (step : Application) (fuel : Nat)
    (hrun : (step.rule.emit (t.reducer fuel) step.handed).run
      (s'.applied step.id step.rule.result step.rule.name) = .ok step.value s'')
    (hgrows : (s'.applied step.id step.rule.result step.rule.name).Grows s'') :
    t.Performs touched s (actions ++ [.apply step]) s'' where
  runs := h.runs.append (.apply fuel hrun (.nil s''))
  notes := by
    rw [steps_concat, ← List.append_nil (steps actions ++ [step])]
    exact (h.notes.applied step).trans (hgrows.notes touched)

/-- A slot is set. -/
theorem splice {id v : NodeId} {slot : Nat} {n n' : Node} (hn : s.arena.get? id = some n)
    (hset : n.setChild? slot v = some n') :
    t.Performs (· = id) s [.splice id slot v] { s with arena := s.arena.set id n' } :=
  ⟨.splice hn hset (.nil _), .replaced s id n'⟩

end Performs

/-! ## Bound subtrees -/

/-- The labels are those of `table`, and the subtree of `id` is as it is in `a`. -/
structure Pristine (a : Arena) (table : LabelTable) (id : NodeId) (s : Selection) : Prop where
  table : s.table = table
  nodes : ∀ m, a.Below Node.children id m → s.arena.get? m = a.get? m
  size : a.size ≤ s.arena.size

/-- Reducing `id` to `x` performs a derivation that costs no more than is recorded, and changes
nothing but the subtree; or a procedure fails in a way that is allowed. -/
def Realizes (t : Target) (allowed : Failure → Prop) (a : Arena) (table : LabelTable) (fuel : Nat)
    (id : NodeId) (x : Nonterminal) : Prop :=
  ∀ s, Pristine a table id s →
    Finishes allowed (fun v s' => v < s'.arena.size ∧ ∃ actions,
      t.Performs (a.Below Node.children id) s actions s' ∧
      t.grammar.Postorder a id x v actions ∧
      ∀ c, table.best id x = some c → min (total (steps actions)) costLimit ≤ c.cost)
      ((t.reduce fuel id x).run s)

variable {t : Target} {allowed : Failure → Prop} {a : Arena} {table : LabelTable} {fuel : Nat}
  {top id c : NodeId} {s s' : Selection} {actions : List Action} {touched : NodeId → Prop}

theorem Pristine.of_below (h : Pristine a table id s) (hc : a.Below Node.children id c) :
    Pristine a table c s :=
  ⟨h.table, fun m hm => h.nodes m (hc.trans hm), h.size⟩

theorem Pristine.performs (h : Pristine a table id s) (htree : a.IsTree Node.children id)
    (hperforms : t.Performs touched s actions s')
    (hapart : ∀ m, a.Below Node.children id m → ¬ touched m) : Pristine a table id s' where
  table := hperforms.notes.table.trans h.table
  nodes m hm := by
    have hlt := Nat.lt_of_lt_of_le (htree.inside m hm) h.size
    exact (hperforms.notes.same m hlt (hapart m hm)).trans (h.nodes m hm)
  size := h.size.trans hperforms.notes.size

mutual

/-- What a sub-pattern binds in one slot of a node is reduced; the other slots are as they were. -/
theorem bindSub_realizes (htree : a.IsTree Node.children top)
    (hreduces : ∀ m, a.Below Node.children top m → m ≠ top → ∀ y, table.Records m y →
      t.Realizes allowed a table fuel m y) (rule : String) :
    (p : Pattern) → p.misfit? = none → {id c : NodeId} → {n n' : Node} → {slot k : Nat} →
    {vs rest : List NodeId} → {s : Selection} → a.Below Node.children top id →
    a.get? id = some n → n.children[slot]? = some c → table.bindingCost? a p c = .ok (some k) →
    Pristine a table c s → s.arena.get? id = some n' → n'.children = vs ++ c :: rest →
    vs.length = slot →
    Finishes allowed (fun _ s' => ∃ actions v n'',
      t.Performs (fun m => m = id ∨ a.Below Node.children c m) s (actions ++ p.splice id slot v)
        s' ∧
      t.grammar.PostorderBound a p c v actions ∧ min (total (steps actions)) costLimit ≤ k ∧
      s'.arena.get? id = some n'' ∧ n''.children = vs ++ v :: rest)
      ((bindSub (t.reduce fuel) rule p id slot).run s)
  | .nt x, _, id, c, n, n', slot, k, vs, rest, s, hid, hn, hc, hk, hpristine, hn', hchildren,
      hslot => by
      have hidtree := htree.of_below hid
      have hbound : n'.children[slot]? = some c := by simp [hchildren, ← hslot]
      have hlt := Nat.lt_of_lt_of_le (hidtree.inside id (.refl id)) hpristine.size
      have hne : c ≠ top := by
        rintro rfl
        exact hidtree.not_below_child hn hc hid
      rcases LabelTable.bindingCost?_nt_eq_some.1 hk with ⟨choice, hbest, rfl⟩
      rw [bindSub, run_bind_of_ok (run_boundChild hn' hbound)]
      refine (hreduces c (hid.trans (.child hn hc)) hne x (Option.isSome_of_eq_some hbest) s
        hpristine).bind ?_
      rintro v s₁ ⟨-, actions, hperforms, horder, hcost⟩
      -- the node itself is not below its child, so its slots are as they were
      have hn₁ : s₁.arena.get? id = some n' :=
        (hperforms.notes.same id hlt (hidtree.not_below_child hn hc)).trans hn'
      obtain ⟨n'', hset⟩ : ∃ n'', n'.setChild? slot v = some n'' := by
        rw [← Option.isSome_iff_exists, Node.isSome_setChild?, hchildren, ← hslot]
        simp
      rw [SelectM.run_setChild hn₁ hset]
      refine ⟨actions, v, n'', ?_, .nt horder, hcost choice hbest, ?_, ?_⟩
      · exact (hperforms.mono fun m hm => .inr hm).trans
          ((Performs.splice hn₁ hset).mono fun m hm => .inl hm)
      · exact Arena.get?_set_self (Nat.lt_of_lt_of_le hlt hperforms.notes.size) n''
      · rw [Node.children_setChild? hset, hchildren, ← hslot,
          List.set_append_right _ _ (Nat.le_refl _), Nat.sub_self]
        rfl
  | .node kind subs, hfits, id, c, n, n', slot, k, vs, rest, s, hid, hn, hc, hk, hpristine, hn',
      hchildren, hslot => by
      have hidtree := htree.of_below hid
      have hbound : n'.children[slot]? = some c := by simp [hchildren, ← hslot]
      have hlt := Nat.lt_of_lt_of_le (hidtree.inside id (.refl id)) hpristine.size
      have hlen := (Pattern.At.root (.node kind subs)).length_subs hfits
      rw [Pattern.misfit?, if_pos hlen] at hfits
      rcases LabelTable.bindingCost?_node_eq_some.1 hk with ⟨m, hm, hkind, hcosts⟩
      rw [← hkind, ← Node.length_children] at hlen
      have hnone : ([] : List NodeId).length = 0 := rfl
      rw [bindSub, run_bind_of_ok (run_boundChild hn' hbound)]
      refine (bindSubs_realizes htree hreduces rule subs hfits hlen (hid.trans (.child hn hc)) hm
        (List.nil_append _).symm hcosts (fun c' hc' => hpristine.of_below (.of_mem hm hc'))
        ((hpristine.nodes c (.refl c)).trans hm) (List.nil_append _).symm hnone hnone).mono ?_
      rintro _ s' ⟨actions, hperforms, horder, hcost⟩
      have hperforms' : t.Performs (a.Below Node.children c) s actions s' := by
        refine hperforms.mono ?_
        rintro m' (rfl | ⟨c', hc', hm'⟩)
        · exact .refl m'
        · exact (Arena.Below.of_mem hm hc').trans hm'
      refine ⟨actions, c, n', ?_, .node hm hkind horder, hcost, ?_, hchildren⟩
      · rw [Pattern.splice, List.append_nil]
        exact hperforms'.mono fun m hm => .inr hm
      · exact (hperforms'.notes.same id hlt (hidtree.not_below_child hn hc)).trans hn'

/-- What the sub-patterns bind from a slot on is reduced, from left to right. -/
theorem bindSubs_realizes (htree : a.IsTree Node.children top)
    (hreduces : ∀ m, a.Below Node.children top m → m ≠ top → ∀ y, table.Records m y →
      t.Realizes allowed a table fuel m y) (rule : String) :
    (ps : List Pattern) → Pattern.misfitAmong? ps = none → {id : NodeId} → {n n' : Node} →
    {slot k : Nat} → {done vs rest : List NodeId} → {s : Selection} → ps.length = rest.length →
    a.Below Node.children top id → a.get? id = some n → n.children = done ++ rest →
    table.bindingCosts? a ps rest = .ok (some k) → (∀ c ∈ rest, Pristine a table c s) →
    s.arena.get? id = some n' → n'.children = vs ++ rest → done.length = slot →
    vs.length = slot →
    Finishes allowed (fun _ s' => ∃ actions,
      t.Performs (fun m => m = id ∨ ∃ c ∈ rest, a.Below Node.children c m) s actions s' ∧
      t.grammar.PostorderAll a ps id slot rest actions ∧
      min (total (steps actions)) costLimit ≤ k)
      ((bindSubs (t.reduce fuel) rule ps id slot).run s)
  | [], _, id, n, n', slot, k, done, vs, [], s, _, _, _, _, _, _, _, _, _, _ => by
      rw [bindSubs]
      exact ⟨[], .refl s, .nil, Nat.zero_le k⟩
  | p :: ps, hfits, id, n, n', slot, k, done, vs, c :: rest, s, hlen, hid, hn, hdone, hk, hpristine,
      hn', hchildren, hslot, hslot' => by
      rw [Pattern.misfitAmong?, Option.or_eq_none_iff] at hfits
      have hidtree := htree.of_below hid
      have hslots : ∀ (i : Nat) (c' : NodeId), (c :: rest)[i]? = some c' →
          n.children[slot + i]? = some c' := by
        intro i c' hc'
        rw [hdone, ← hslot, List.getElem?_append_right (by omega), Nat.add_sub_cancel_left]
        exact hc'
      have hc : n.children[slot]? = some c := hslots 0 c rfl
      rcases LabelTable.bindingCosts?_cons_eq_some.1 hk with ⟨k₁, k₂, hfirst, hrest, rfl⟩
      rw [bindSubs]
      refine (bindSub_realizes htree hreduces rule p hfits.1 hid hn hc hfirst
        (hpristine c List.mem_cons_self) hn' hchildren hslot').bind ?_
      rintro _ s₁ ⟨actions, v, n₁, hperforms, horder, hcost, hn₁, hchildren₁⟩
      -- what was done for the first child has nothing to do with the later ones
      have hpristine₁ : ∀ c' ∈ rest, Pristine a table c' s₁ := by
        intro c' hc'
        rcases List.mem_iff_getElem?.1 hc' with ⟨i, hi⟩
        have hslot₁ := hslots (i + 1) c' hi
        refine (hpristine c' (List.mem_cons_of_mem c hc')).performs (hidtree.child hn hslot₁)
          hperforms ?_
        rintro m hm (heq | hm')
        · exact hidtree.ne_of_below_child hn hslot₁ hm heq
        · have := hidtree.slot_unique hn hslot₁ hc hm hm'
          omega
      have hdone₁ : n.children = (done ++ [c]) ++ rest := by
        rw [hdone, List.append_assoc, List.singleton_append]
      have hvs₁ : n₁.children = (vs ++ [v]) ++ rest := by
        rw [hchildren₁, List.append_assoc, List.singleton_append]
      have hnext : (done ++ [c]).length = slot + 1 := by simp [hslot]
      have hnext' : (vs ++ [v]).length = slot + 1 := by simp [hslot']
      refine (bindSubs_realizes htree hreduces rule ps hfits.2 (Nat.succ.inj hlen) hid hn hdone₁
        hrest hpristine₁ hn₁ hvs₁ hnext hnext').mono ?_
      rintro _ s' ⟨actions', hperforms', horder', hcost'⟩
      refine ⟨actions ++ p.splice id slot v ++ actions', ?_, .cons horder horder', ?_⟩
      · refine (hperforms.mono ?_).trans (hperforms'.mono ?_)
        · rintro m (heq | hm)
          · exact .inl heq
          · exact .inr ⟨c, List.mem_cons_self, hm⟩
        · rintro m (heq | ⟨c', hc', hm⟩)
          · exact .inl heq
          · exact .inr ⟨c', List.mem_cons_of_mem c hc', hm⟩
      · rw [Grammar.steps_cons, total_append]
        unfold addCost
        omega

end

/-! ## Reductions -/

section

variable {r : Rule} {choice : Choice} (hemit : r.emit.Appends allowed)
  (hbest : table.best id r.result = some choice)
  (hr : t.grammar.rules[choice.rule]? = some r)
include hemit hbest hr

/-- The procedure of a rule runs last, on what was bound. -/
theorem emit_realizes {base k : Nat} {handed : NodeId} (hbase : r.cost.base? a id = .ok (some base))
    (hcost : addCost base k ≤ choice.cost) (hhanded : handed < s'.arena.size)
    (hperforms : t.Performs touched s actions s')
    (horder : t.grammar.PostorderBound a r.pattern id handed actions)
    (hk : min (total (steps actions)) costLimit ≤ k) :
    Finishes allowed (fun v s'' => v < s''.arena.size ∧ ∃ actions,
      t.Performs touched s actions s'' ∧ t.grammar.Postorder a id r.result v actions ∧
      ∀ c, table.best id r.result = some c → min (total (steps actions)) costLimit ≤ c.cost)
      ((r.emit (t.reducer fuel) handed).run (s'.applied id r.result r.name)) := by
  refine (hemit (t.reducer fuel) handed (s'.applied id r.result r.name) hhanded).attach.mono ?_
  rintro v s'' ⟨hrun, hv, hgrows⟩
  refine ⟨hv, _, hperforms.apply ⟨id, r, base, handed, v⟩ fuel hrun hgrows,
    .rule (List.mem_of_getElem? hr) hbase horder, ?_⟩
  intro c hc
  cases hbest.symm.trans hc
  rw [steps_concat, total_concat]
  unfold addCost at hcost
  dsimp only
  omega

/-- A chain rule is applied after what it starts from. -/
theorem realizes_chain {price : Nat} (hprice : table.price? a r id = .ok (some price))
    (hle : price ≤ choice.cost) {y : Nonterminal} (hpattern : r.pattern = .nt y)
    (hinner : t.Realizes allowed a table fuel id y) :
    t.Realizes allowed a table (fuel + 1) id r.result := by
  intro s hpristine
  rcases LabelTable.price?_eq_some.1 hprice with ⟨base, k, hbase, hbound, hcost⟩
  rw [hpattern] at hbound
  rcases LabelTable.bindingCost?_nt_eq_some.1 hbound with ⟨inner, hbest', rfl⟩
  rw [run_reduce_some (hpristine.table ▸ hbest) hr, bound, hpattern]
  refine (hinner s hpristine).bind ?_
  rintro v s₁ ⟨hv, actions, hperforms, horder, hsteps⟩
  refine emit_realizes hemit hbest hr hbase (hcost ▸ hle) hv hperforms ?_ (hsteps inner hbest')
  rw [hpattern]
  exact .nt horder

/-- Any other rule is applied after what its pattern binds further down. -/
theorem realizes_rule {price : Nat} (hprice : table.price? a r id = .ok (some price))
    (hle : price ≤ choice.cost) {kind : NodeKind} {subs : List Pattern}
    (hpattern : r.pattern = .node kind subs) (hfits : r.pattern.misfit? = none)
    (htree : a.IsTree Node.children id)
    (hreduces : ∀ m, a.Below Node.children id m → m ≠ id → ∀ y, table.Records m y →
      t.Realizes allowed a table fuel m y) : t.Realizes allowed a table (fuel + 1) id r.result := by
  intro s hpristine
  rcases LabelTable.price?_eq_some.1 hprice with ⟨base, k, hbase, hbound, hcost⟩
  rw [hpattern] at hbound hfits
  have hlen := (Pattern.At.root (.node kind subs)).length_subs hfits
  rw [Pattern.misfit?, if_pos hlen] at hfits
  rcases LabelTable.bindingCost?_node_eq_some.1 hbound with ⟨n, hn, hkind, hcosts⟩
  rw [← hkind, ← Node.length_children] at hlen
  have hnone : ([] : List NodeId).length = 0 := rfl
  rw [run_reduce_some (hpristine.table ▸ hbest) hr, bound, hpattern, bind_assoc]
  refine (bindSubs_realizes htree hreduces r.name subs hfits hlen (.refl id) hn
    (List.nil_append _).symm hcosts (fun c hc => hpristine.of_below (.of_mem hn hc))
    ((hpristine.nodes id (.refl id)).trans hn) (List.nil_append _).symm hnone hnone).bind ?_
  rintro _ s₁ ⟨actions, hperforms, horder, hsteps⟩
  have hperforms₁ : t.Performs (a.Below Node.children id) s actions s₁ := by
    refine hperforms.mono ?_
    rintro m (rfl | ⟨c, hc, hm⟩)
    · exact .refl m
    · exact (Arena.Below.of_mem hn hc).trans hm
  have hlt : id < s₁.arena.size :=
    Nat.lt_of_lt_of_le (htree.inside id (.refl id)) (hpristine.size.trans hperforms₁.notes.size)
  refine emit_realizes hemit hbest hr hbase (hcost ▸ hle) hlt hperforms₁ ?_ hsteps
  rw [hpattern]
  exact .node hn hkind horder

end

section

variable (hbuilt : t.Built) (hemit : ∀ r ∈ t.grammar.rules, r.emit.Appends allowed)
  (hsound : table.Sound t.grammar a)
include hbuilt hemit hsound

/-- Reducing a node performs a derivation.  The fuel counts the rules that are applied on the way
down: at most three at each node, for chain rules pass no nonterminal twice. -/
theorem realizes_of_chain {x : Nonterminal} {xs : List Nonterminal} (height : Nat)
    (htree : a.IsTree Node.children id) (hchain : table.Chain t.grammar id x xs)
    (hheight : ∀ w m, a.Path Node.children id w m → w.length < 2 * height)
    (hfuel : 3 * height + xs.length ≤ fuel + 2) : t.Realizes allowed a table fuel id x := by
  induction fuel generalizing height id x xs with
  | zero =>
      have hroot := hheight [] id (.root id)
      cases hchain <;> simp only [List.length_cons] at hroot hfuel <;> omega
  | succ fuel ih =>
      cases hchain with
      | @chain _ y ys c r hc hr hpattern hchain =>
          rcases hsound.backed id x c hc with ⟨-, q, k, hq, rfl, hk, hle⟩
          cases hr.symm.trans hq
          simp only [List.length_cons] at hfuel
          refine realizes_chain (hemit r (List.mem_of_getElem? hr)) hc hr hk hle hpattern ?_
          exact ih height htree hchain hheight (by omega)
      | @rule _ c r kind subs hc hr hpattern =>
          rcases hsound.backed id x c hc with ⟨-, q, k, hq, rfl, hk, hle⟩
          cases hr.symm.trans hq
          simp only [List.length_cons, List.length_nil] at hfuel
          refine realizes_rule (hemit r (List.mem_of_getElem? hr)) hc hr hk hle hpattern
            (hbuilt.fits (List.mem_of_getElem? hr)) htree ?_
          -- from a node further down all ways are shorter, and its chain starts anew
          rintro m ⟨w, hw⟩ hne y hy
          rcases Option.isSome_iff_exists.1 hy with ⟨c', hc'⟩
          rcases hsound.founded.exists_chain hc' with ⟨ys, hchain, hnodup⟩
          have hchains : ys.length ≤ 3 := Nonterminal.length_le_of_nodup hnodup
          have hlong := hw.two_le_length hne
          have htop := hheight w m hw
          exact ih (height - 1) (htree.of_below ⟨w, hw⟩) hchain
            (hw.shorter (List.length_pos_iff.1 (by omega)) hheight) (by omega)

theorem realizes {x : Nonterminal} {choice : Choice} (htree : a.IsTree Node.children id)
    (hbest : table.best id x = some choice) (hfuel : 3 * a.size < fuel) :
    t.Realizes allowed a table fuel id x := by
  rcases hsound.founded.exists_chain hbest with ⟨xs, hchain, hnodup⟩
  have hlen : xs.length ≤ 3 := Nonterminal.length_le_of_nodup hnodup
  refine realizes_of_chain hbuilt hemit hsound a.size htree hchain ?_ (by omega)
  intro w m hw
  exact htree.length_lt hw

end

/-! ## Selecting a tree -/

/-- Labeling a tree leaves a sound table in which recorded costs are the least. -/
theorem label_settles (hbuilt : t.Built) {root : NodeId} (htree : a.IsTree Node.children root)
    (hpriced : t.grammar.Priced a root) (tr : Trace) :
    ∃ l, (t.label a root).run { table := .blank a.size t.grammar.size, trace := tr } = .ok () l ∧
      l.table.Sound t.grammar a ∧ ∀ x c k, l.table.best root x = some c →
        t.grammar.Derives a root x k → c.cost ≤ min k costLimit := by
  rcases label_spec hbuilt htree hpriced (Nat.le_refl a.size) tr with ⟨l, hrun, hlabeled⟩
  refine ⟨l, hrun, (moves_of_labelAt hrun).sound
    (LabelTable.sound_of_blank (LabelTable.best_blank a.size t.grammar.size)), ?_⟩
  intro x c k hc hk
  have hleast := LabelTable.isLeast_best (fun m ⟨w, hw⟩ => (hlabeled w m hw).stable)
    (fun m ⟨w, hw⟩ => (hlabeled w m hw).realized) (.refl root) hc
  exact hleast.2 ⟨k, hk, rfl⟩

/-- Where nothing is recorded for the goal, selecting is refused before anything but labels and
events has changed. -/
theorem run_selectRoot_none {root : NodeId} {n : Node} {l : Labeling}
    (hlabel : (t.label s.arena root).run
      { table := .blank s.arena.size t.grammar.size, trace := s.trace } = .ok () l)
    (hn : s.arena.get? root = some n) (hbest : l.table.best root t.grammar.start = none) :
    (t.selectRoot root).run s = .error (.error (.noRule root n.kind t.grammar.start))
      { s with table := l.table, trace := l.trace } := by
  obtain ⟨fuel, hfuel⟩ : ∃ fuel, t.nesting s.arena = fuel + 1 :=
    Nat.exists_eq_succ_of_ne_zero (Nat.ne_zero_of_lt (t.lt_nesting_size s.arena))
  have hreduce : (t.reduce (fuel + 1) root t.grammar.start).run
      { s with table := l.table, trace := l.trace } = _ := run_reduce_none hbest hn
  rw [run_selectRoot_of_label hlabel, hfuel, EStateM.run_bind, hreduce]

end Target

theorem Selection.Grows.of_emitted {s s' : Selection} (code : List Instr)
    (h : Selection.Grows (s.emitted code) s') : s.Grows s' := by
  induction code generalizing s with
  | nil => exact h
  | cons i rest ih => exact .emit i (ih h)

theorem Selection.grows_leaving (s : Selection) (code : List Instr) : s.Grows (s.leaving code) :=
  .issue (.of_emitted code (.append (.vreg s.fresh) (.refl _)))

/-- The node at the end of a way of slots, as far as it leads. -/
def Arena.along (a : Arena) : List Nat → NodeId → NodeId
  | [], id => id
  | slot :: way, id => a.along way (((a.get? id).bind (·.children[slot]?)).getD id)

/-- Computes into a new register.  Each instruction takes what the node at the end of its way from
the handed node stands for, or zero. -/
def Emission.compute (code : List (Opcode × List Nat)) : Emission := fun _ id => do
  let arena := (← get).arena
  let dst ← SelectM.freshReg
  (code.map fun (op, way) =>
    Instr.binary op (.vreg dst) ((arena.operand? (arena.along way id)).getD (.imm 0))).forM
      SelectM.emit
  SelectM.appendReg dst

theorem Emission.run_compute (code : List (Opcode × List Nat)) (R : Reducer) (id : NodeId)
    (s : Selection) :
    ∃ instrs, (compute code R id).run s = .ok s.arena.size (s.leaving instrs) := by
  rw [compute, run_bind_of_ok (EStateM.run_get s)]
  exact ⟨_, SelectM.run_leaving (fun dst => code.map fun (op, way) =>
    Instr.binary op (.vreg dst) ((s.arena.operand? (s.arena.along way id)).getD (.imm 0))) s⟩

theorem Emission.compute_appends (code : List (Opcode × List Nat)) (allowed : Failure → Prop) :
    (compute code).Appends allowed := by
  intro R id s _
  rcases run_compute code R id s with ⟨instrs, hrun⟩
  rw [hrun]
  refine ⟨?_, s.grows_leaving instrs⟩
  rw [s.arena_leaving instrs, Arena.size_push]
  exact Nat.lt_succ_self _

namespace Target

/-- A grammar whose rules compute in registers, and subtract in place of adding a negation. -/
def computingGrammar : Grammar where
  rules :=
    [ ⟨"literal", .leaf .literal, .imm, .fixed 0, .keep⟩,
      ⟨"load", .imm, .reg, .fixed 1, .compute [(.mov, [])]⟩,
      ⟨"negate", .node .unary [.reg], .reg, .fixed 2, .compute [(.mov, []), (.sub, [0])]⟩,
      ⟨"add", .node .binary [.reg, .reg], .reg, .fixed 2, .compute [(.mov, [0]), (.add, [1])]⟩,
      ⟨"subtract", .node .binary [.reg, .node .unary [.reg]], .reg, .fixed 2,
        .compute [(.mov, [0]), (.sub, [1, 0])]⟩ ]
  start := .reg

def computingTarget : Target where
  grammar := computingGrammar
  automaton := .ofPatterns (computingGrammar.rules.map Rule.pattern)
  settings := {}

theorem total_computingGrammar (arena : Arena) (root : NodeId) :
    computingGrammar.Total arena root := by
  intro r hr n _
  simp only [computingGrammar, List.mem_cons, List.not_mem_nil, or_false] at hr
  rcases hr with rfl | rfl | rfl | rfl | rfl <;> exact ⟨_, rfl⟩

end Target
end Codegen
