import Codegen.Proofs.Labeling
import Codegen.Proofs.Relabeling

/-!
# Masks — walks over an arena in which no node hangs in two slots

A walk adds to the masks of a node what the way that it has taken accepts, and takes over what the
children agree on.  Walks from several roots take several ways to a node.  But if no node hangs in
two slots then all of them end alike, and what the children of a node agree on is said of one way.
So every bit tells a partial match, whatever walks there were, and the cost of a rule is asked for
only where its pattern matches.

* `Target.Truthful`              : every bit of the masks tells a partial match
* `Target.sustained_of_unshared` : walks keep to that
-/

namespace Codegen

/-- What all children of a node agree on one level up is said of the one way to the node. -/
theorem Pattern.exists_partial_of_children {a : Arena} (hshared : a.Unshared Node.children)
    {recorded : NodeId → Nonterminal → Prop} {p : Pattern} (hfits : p.misfit? = none)
    {id : NodeId} {n : Node} (hn : a.get? id = some n) (hne : n.children ≠ []) {d : Nat}
    (h : ∀ child ∈ n.children, ∃ top w, a.Path Node.children top w child ∧
      p.Partial a recorded w child (d + 1)) :
    ∃ top w, a.Path Node.children top w id ∧ p.Partial a recorded w id d := by
  -- the way to a child that a partial match is about passes the node last
  have hparent : ∀ (slot : Nat) (child : NodeId), n.children[slot]? = some child →
      ∃ top u, a.Path Node.children top u id ∧ u.length = 2 * d ∧
        p.Partial a recorded (u ++ [.kind n.kind, .child slot]) child (d + 1) := by
    intro slot child hslot
    rcases h child (List.mem_of_getElem? hslot) with ⟨_, w, hw, v, q, hat, hv, hlen, hq⟩
    rcases hw.split_suffix hv hat.two_dvd_length with ⟨top, -, hpath⟩
    have hlong : v ≠ [] := by
      rintro rfl
      cases hlen
    rcases hpath.exists_last hlong with ⟨u, parent, n', slot', rfl, hu, hn', hslot'⟩
    rcases hshared.unique_slot hn hslot hn' hslot' with ⟨rfl, rfl⟩
    cases hn.symm.trans hn'
    refine ⟨top, u, hu, ?_, _, q, hat, List.suffix_refl _, hlen, hq⟩
    simp only [List.length_append, List.length_cons, List.length_nil] at hlen
    omega
  rcases List.exists_cons_of_ne_nil hne with ⟨first, others, hfirst⟩
  rcases hparent 0 first (by rw [hfirst]; rfl) with ⟨top, w, hw, hlen, -⟩
  refine ⟨top, w, hw, partial_of_children hfits hn hne ?_⟩
  intro slot child hslot
  rcases hparent slot child hslot with ⟨_, u, hu, hlen', hpartial⟩
  rcases hshared.split hu hw (Nat.le_of_eq (hlen'.trans hlen.symm)) with ⟨v, rfl, -⟩
  rw [List.length_append] at hlen
  rw [List.length_eq_zero_iff.1 (show v.length = 0 by omega), List.nil_append]
  exact hpartial

namespace Target

/-- Every bit of the masks tells a partial match at the end of some way, and all recorded costs are
those of derivations. -/
structure Truthful (t : Target) (arena : Arena) (table : LabelTable) : Prop where
  label : ∀ m < arena.size, ∃ l, table.label? m = some l ∧ l.words.size = t.grammar.size
  word : ∀ m i d, (table.word m i).getLsbD d = true → ∃ r top w, t.grammar.rules[i]? = some r ∧
    arena.Path Node.children top w m ∧ r.pattern.Partial arena table.Records w m d
  realized : ∀ m, table.Realized t.grammar arena m

/-- A walk can come to a node in this place. -/
structure Visits (t : Target) (arena : Arena) (id : NodeId) (place : Option Place) : Prop where
  dag : arena.IsDag Node.children id
  priced : t.grammar.Priced arena id
  way : ∃ top w, arena.Path Node.children top w id ∧ t.Enters place w

theorem truthful_blank (t : Target) {arena : Arena} {nodes : Nat} (hcovers : arena.size ≤ nodes) :
    t.Truthful arena (.blank nodes t.grammar.size) where
  label m hm :=
    ⟨_, LabelTable.label?_blank (Nat.lt_of_lt_of_le hm hcovers), Array.size_replicate⟩
  word m i d hbit := by
    rw [LabelTable.getLsbD_word_blank] at hbit
    cases hbit
  realized m x c hc := by
    rw [LabelTable.best_blank] at hc
    cases hc

section

variable {t : Target} {arena : Arena} {table : LabelTable} {id : NodeId}

/-- A change of labels may add bits that tell partial matches, and choices. -/
theorem Truthful.modify (h : t.Truthful arena table) (hid : id < arena.size) {f : Label → Label}
    (hsize : ∀ old, old.words.size = t.grammar.size → (f old).words.size = t.grammar.size)
    (hbest : ∀ m x, table.Records m x → (table.modify id f).Records m x)
    (hword : ∀ old i d, table.label? id = some old → old.words.size = t.grammar.size →
      ((f old).word i).getLsbD d = true → (old.word i).getLsbD d = true ∨
        ∃ r top w, t.grammar.rules[i]? = some r ∧ arena.Path Node.children top w id ∧
          r.pattern.Partial arena (table.modify id f).Records w id d)
    (hreal : ∀ m, (table.modify id f).Realized t.grammar arena m) :
    t.Truthful arena (table.modify id f) where
  label m hm := by
    rcases h.label m hm with ⟨old, hold, hwords⟩
    rw [LabelTable.label?_modify]
    split
    · exact ⟨f old, by rw [hold]; rfl, hsize old hwords⟩
    · exact ⟨old, hold, hwords⟩
  word m i d hbit := by
    have hbefore : (table.word m i).getLsbD d = true → ∃ r top w, t.grammar.rules[i]? = some r ∧
        arena.Path Node.children top w m ∧
        r.pattern.Partial arena (table.modify id f).Records w m d := by
      intro hbit
      rcases h.word m i d hbit with ⟨r, top, w, hr, hw, v, q, hat, hv, hlen, hq⟩
      exact ⟨r, top, w, hr, hw, v, q, hat, hv, hlen, .mono q (fun k x _ => hbest k x) hq⟩
    by_cases hm : m = id
    · subst hm
      rcases h.label m hid with ⟨old, hold, hwords⟩
      rw [LabelTable.word_of_label? (LabelTable.label?_modify_self hold)] at hbit
      rcases hword old i d hold hwords hbit with hbit | hnew
      · exact hbefore (by rwa [LabelTable.word_of_label? hold])
      · exact hnew
    · rw [LabelTable.word_congr (LabelTable.label?_modify_of_ne hm)] at hbit
      exact hbefore hbit
  realized := hreal

theorem Truthful.state (h : t.Truthful arena table) (hid : id < arena.size) (state : StateId) :
    t.Truthful arena (table.modify id ({ · with state })) := by
  have hbest : ∀ m, (table.modify id ({ · with state })).best m = table.best m :=
    best_modify fun _ => rfl
  refine h.modify hid (fun _ hwords => hwords) (fun m x hx => ?_)
    (fun _ _ _ _ _ hbit => .inl hbit) fun m x c hc => h.realized m x c ?_
  · rwa [LabelTable.Records, hbest]
  · rwa [hbest] at hc

theorem Truthful.accept (h : t.Truthful arena table) (hid : id < arena.size)
    {accepting : Array DepthMask} (hsize : accepting.size = t.grammar.size)
    (hbits : ∀ i d, (accepting.getD i 0).getLsbD d = true → ∃ r top w,
      t.grammar.rules[i]? = some r ∧ arena.Path Node.children top w id ∧
        r.pattern.Partial arena table.Records w id d) :
    t.Truthful arena (table.modify id (·.accept accepting)) := by
  have hbest : ∀ m, (table.modify id (·.accept accepting)).best m = table.best m :=
    best_modify fun old => funext (Label.best_accept old accepting)
  have hrecords : (table.modify id (·.accept accepting)).Records = table.Records := by
    funext m x
    rw [LabelTable.Records, LabelTable.Records, hbest]
  refine h.modify hid (fun old hwords => ?_) (fun m x hx => ?_) (fun old i d hold hwords hbit => ?_)
    fun m x c hc => h.realized m x c ?_
  · rw [Label.size_words_accept (hsize.trans hwords.symm), hwords]
  · rwa [hrecords]
  · rw [Label.word_accept (hsize.trans hwords.symm), BitVec.getLsbD_or, Bool.or_eq_true] at hbit
    rw [hrecords]
    exact hbit.imp_right (hbits i d)
  · rwa [hbest] at hc

/-- A rule that matches in full covers the node. -/
theorem Truthful.priced (h : t.Truthful arena table) {place : Option Place}
    (hid : t.Visits arena id place) {i : RuleId} {r : Rule} (hr : t.grammar.rules[i]? = some r)
    (hbit : (table.word id i).getLsbD 0 = true) : ∃ base, r.cost.base? arena id = .ok base := by
  rcases h.word id i 0 hbit with ⟨r', _, w, hr', -, hpartial⟩
  cases hr.symm.trans hr'
  exact hid.priced r (List.mem_of_getElem? hr) id (.refl id)
    (LabelTable.exists_covers_of_matches r.pattern (fun m _ => h.realized m)
      (Pattern.partial_zero_iff.1 hpartial))

end

section

variable {t : Target} (hbuilt : t.Built) {arena : Arena} {table : LabelTable} {id : NodeId}
  {place : Option Place} (hid : t.Visits arena id place)
include hbuilt hid

theorem Truthful.arrive (h : t.Truthful arena table) {n : Node} (hn : arena.get? id = some n) :
    t.Truthful arena (table.modify id
      (·.accept (t.automaton.accepting (t.automaton.enter place (.kind n.kind))))) := by
  rcases hid.way with ⟨top, w, hw, henters⟩
  refine h.accept (hid.dag.inside id (.refl id)) (size_accepting_enter hbuilt henters _) ?_
  intro i d hbit
  rcases (accepting_enter_iff hbuilt henters _ i d).1 hbit with ⟨r, hr, hleaf⟩
  have hfits := hbuilt.fits (List.mem_of_getElem? hr)
  exact ⟨r, top, w, hr, hw, (Pattern.partial_iff hfits hn).2 (.inl hleaf)⟩

theorem Truthful.combine (hshared : arena.Unshared Node.children) (h : t.Truthful arena table)
    {n : Node} {first : NodeId} {others : List NodeId} (hn : arena.get? id = some n)
    (hchildren : n.children = first :: others) :
    t.Truthful arena (table.modify id
      (·.accept ((Array.range t.grammar.size).map (agreement table first others)))) := by
  refine h.accept (hid.dag.inside id (.refl id)) (by simp) ?_
  intro i d hbit
  rcases (getD_agreement_iff table t.grammar.size first others i d).1 hbit with ⟨hi, hall⟩
  have hr := List.getElem?_eq_getElem hi
  rw [← hchildren] at hall
  have hpartials : ∀ child ∈ n.children, ∃ top w, arena.Path Node.children top w child ∧
      (t.grammar.rules[i]).pattern.Partial arena table.Records w child (d + 1) := by
    intro child hchild
    rcases h.word child i (d + 1) (hall child hchild) with ⟨r, top, w, hr', hw, hpartial⟩
    cases hr.symm.trans hr'
    exact ⟨top, w, hw, hpartial⟩
  have hne : n.children ≠ [] := by
    rw [hchildren]
    exact List.cons_ne_nil _ _
  rcases Pattern.exists_partial_of_children hshared (hbuilt.fits (List.getElem_mem hi)) hn hne
      hpartials with
    ⟨top, w, hw, hpartial⟩
  exact ⟨_, top, w, hr, hw, hpartial⟩

theorem Truthful.kept (h : t.Truthful arena table) {i : RuleId} {r : Rule}
    (hr : t.grammar.rules[i]? = some r) {cost : Nat}
    (hprice : table.price? arena r id = .ok (some cost)) :
    t.Truthful arena (t.kept place table id r.result { cost, rule := i }) := by
  have hinside := hid.dag.inside id (.refl id)
  rcases hid.dag.exists_get? with ⟨n, hn⟩
  rcases hid.way with ⟨top, w, hw, henters⟩
  rcases h.label id hinside with ⟨old, hold, -⟩
  -- the choice is recorded first, and then the masks that the nonterminal brings are added
  have hrecorded : ∀ m x, (table.modify id (·.setBest r.result { cost, rule := i })).Records m x ↔
      (m = id ∧ x = r.result) ∨ table.Records m x := by
    intro m x
    by_cases hm : m = id
    · subst hm
      rw [LabelTable.Records, LabelTable.best_of_label? (LabelTable.label?_modify_self hold),
        Label.best_setBest, LabelTable.Records, LabelTable.best_of_label? hold]
      split <;> simp_all
    · rw [LabelTable.records_congr (LabelTable.label?_modify_of_ne hm)]
      simp [hm]
  have hset : t.Truthful arena (table.modify id (·.setBest r.result { cost, rule := i })) := by
    refine h.modify hinside (fun _ hwords => ?_) (fun m x hx => (hrecorded m x).2 (.inr hx))
      (fun old _ _ _ _ hbit => .inl ?_) fun m x c hc => ?_
    · rw [Label.size_words_setBest, hwords]
    · rwa [Label.word_setBest] at hbit
    · have hkept : (t.kept place table id r.result ⟨cost, i⟩).Realized t.grammar arena m :=
        Realized.kept hbuilt hold hr (fun k _ => h.realized k) hprice (h.realized m)
      refine hkept x c ?_
      rw [Target.kept, best_modify fun old => funext (Label.best_accept old _)]
      exact hc
  refine hset.accept hinside (size_accepting_enter hbuilt henters _) ?_
  intro j d hbit
  rcases (accepting_enter_iff hbuilt henters _ j d).1 hbit with ⟨q, hq, hleaf⟩
  have hfits := hbuilt.fits (List.mem_of_getElem? hq)
  exact ⟨q, top, w, hq, hw, (Pattern.partial_iff hfits hn).2
    (.inr (.inr ⟨r.result, (hrecorded id r.result).2 (.inl ⟨rfl, rfl⟩), hleaf⟩))⟩

end

theorem sustained_of_unshared {t : Target} (hbuilt : t.Built) {arena : Arena}
    (hshared : arena.Unshared Node.children) :
    t.Sustained arena (t.Visits arena) (t.Truthful arena) where
  steady {id place} hid :=
    have hinside := hid.dag.inside id (.refl id)
    { dag := hid.dag
      label := fun h => (h.label id hinside).imp fun _ hold => hold.1
      state := fun state h => h.state hinside state
      arrive := fun hn h => h.arrive hbuilt hid hn
      combine := fun hn hchildren h => h.combine hbuilt hid hshared hn hchildren
      keep := fun hr hprice h => h.kept hbuilt hid hr hprice
      priced := fun h hr hbit => h.priced hid hr hbit }
  child {id c place n slot} hid hn hslot := by
    rcases hid.way with ⟨top, w, hw, henters⟩
    have hbelow := Arena.Below.child hn hslot
    exact ⟨hid.dag.of_below hbelow, hid.priced.of_below hbelow, top, _,
      hw.append (.step hn hslot (.root c)), henters.child n.kind slot⟩

end Target
end Codegen
