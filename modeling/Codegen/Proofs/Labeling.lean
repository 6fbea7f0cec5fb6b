import Codegen.Proofs.Settling

/-!
# Labeling — what the walk over a tree leaves at every node

The walk labels the subtrees of a node's children first.  They are disjoint, so a subtree keeps its
labels while the others are walked, and what holds at a node depends on the labels at and below it
only.  Then the node takes over what its children agree on and is settled.  A node without children
may have been labeled before, if it was in the same place.

* `Target.Labeled`  : what holds at a node that the walk has left
* `Target.Awaits`   : what holds at a node that the walk is yet to come to
* `Target.labels`   : the walk over a subtree ends, and leaves all its nodes labeled
-/

namespace Codegen
namespace Target

/-! ## Labeled nodes -/

/-- The masks of a node are exact, its recorded costs are those of derivations, and no rule improves
on them. -/
structure Labeled (t : Target) (arena : Arena) (table : LabelTable) (w : List Symbol)
    (id : NodeId) : Prop where
  label : ∃ l, table.label? id = some l ∧ l.words.size = t.grammar.size
  exact : t.Exact arena table w id
  realized : table.Realized t.grammar arena id
  stable : table.Stable t.grammar arena id

theorem Labeled.congr {t : Target} {arena : Arena} {table table' : LabelTable} {w : List Symbol}
    {id : NodeId} (h : t.Labeled arena table w id)
    (hsame : ∀ m, arena.Below Node.children id m → table'.label? m = table.label? m) :
    t.Labeled arena table' w id where
  label := by
    rw [hsame id (.refl id)]
    exact h.label
  exact := h.exact.congr hsame
  realized := by
    intro x c hc
    rw [LabelTable.best_congr (hsame id (.refl id))] at hc
    exact h.realized x c hc
  stable := h.stable.congr fun m hm => LabelTable.best_congr (hsame m hm)

/-- No walk has come to the node yet; or one has, by the same word, and the node has no children. -/
def Awaits (t : Target) (arena : Arena) (table : LabelTable) (w : List Symbol) (id : NodeId) :
    Prop :=
  table.label? id = some (.blank t.grammar.size) ∨
    (∃ n, arena.get? id = some n ∧ n.children = []) ∧ t.Labeled arena table w id

theorem Awaits.congr {t : Target} {arena : Arena} {table table' : LabelTable} {w : List Symbol}
    {id : NodeId} (h : t.Awaits arena table w id) (hsame : table'.label? id = table.label? id) :
    t.Awaits arena table' w id := by
  rcases h with hblank | ⟨⟨n, hn, hleaf⟩, hlabeled⟩
  · exact .inl (hsame.trans hblank)
  · refine .inr ⟨⟨n, hn, hleaf⟩, hlabeled.congr fun m hm => ?_⟩
    rwa [hm.eq_of_leaf hn hleaf]

theorem Awaits.exists_label {t : Target} {arena : Arena} {table : LabelTable} {w : List Symbol}
    {id : NodeId} (h : t.Awaits arena table w id) :
    ∃ l, table.label? id = some l ∧ l.words.size = t.grammar.size := by
  rcases h with hblank | ⟨-, hlabeled⟩
  · exact ⟨_, hblank, Array.size_replicate⟩
  · exact hlabeled.label

/-! ## Taking over from the children -/

theorem agreement_iff (table : LabelTable) (first : NodeId) (others : List NodeId) (i : RuleId)
    (d : Nat) :
    (agreement table first others i).getLsbD d = true ↔
      ∀ child ∈ first :: others, (table.word child i).getLsbD (d + 1) = true := by
  have hfold : ∀ (children : List NodeId) (mask : DepthMask),
      (children.foldl (fun mask child => mask &&& (table.word child i >>> 1)) mask).getLsbD d =
          true ↔
        mask.getLsbD d = true ∧
          ∀ child ∈ children, (table.word child i).getLsbD (d + 1) = true := by
    intro children
    induction children with
    | nil => simp
    | cons child rest ih =>
        intro mask
        rw [List.foldl_cons, ih]
        simp [Nat.add_comm 1 d, and_assoc]
  rw [agreement, hfold]
  simp [Nat.add_comm 1 d]

theorem getD_agreement_iff (table : LabelTable) (rules : Nat) (first : NodeId)
    (others : List NodeId) (i : RuleId) (d : Nat) :
    (((Array.range rules).map (agreement table first others)).getD i 0).getLsbD d = true ↔
      i < rules ∧ ∀ child ∈ first :: others, (table.word child i).getLsbD (d + 1) = true := by
  rw [← agreement_iff]
  by_cases hi : i < rules <;> simp [Array.getD_eq_getD_getElem?, hi]

section

variable {t : Target} {arena : Arena} {table : LabelTable} {w : List Symbol} {id : NodeId}
  {n : Node}

/-- The masks of a node at which nothing is recorded yet, once it has taken over what its state
accepts and what its children agree on. -/
theorem exact_of_agreement (hbuilt : t.Built) (hn : arena.get? id = some n)
    (hbest : ∀ x, table.best id x = none)
    (hchildren : ∀ (slot : Nat) (child : NodeId), n.children[slot]? = some child →
      t.Exact arena table (w ++ [.kind n.kind, .child slot]) child)
    (hword : ∀ i d, (table.word id i).getLsbD d = true ↔
      (∃ r, t.grammar.rules[i]? = some r ∧ r.pattern.LeafAfter w (.kind n.kind) d) ∨
        (n.children ≠ [] ∧ i < t.grammar.size ∧
          ∀ child ∈ n.children, (table.word child i).getLsbD (d + 1) = true)) :
    t.Exact arena table w id := by
  intro i d
  rw [hword]
  constructor
  · rintro (⟨r, hr, hleaf⟩ | ⟨hne, hi, hall⟩)
    · have hfits := hbuilt.fits (List.mem_of_getElem? hr)
      exact ⟨r, hr, (Pattern.partial_iff hfits hn).2 (.inl hleaf)⟩
    · refine ⟨_, List.getElem?_eq_getElem hi, ?_⟩
      refine (Pattern.partial_iff (hbuilt.fits (List.getElem_mem hi)) hn).2 (.inr (.inl ⟨hne, ?_⟩))
      intro slot child hchild
      rcases (hchildren slot child hchild i (d + 1)).1
        (hall child (List.mem_of_getElem? hchild)) with ⟨r, hr, hpartial⟩
      cases (List.getElem?_eq_getElem hi).symm.trans hr
      exact hpartial
  · rintro ⟨r, hr, hpartial⟩
    have hfits := hbuilt.fits (List.mem_of_getElem? hr)
    -- a leaf of the pattern, a node whose children are there, or a nonterminal, of which none is
    -- recorded yet
    rcases (Pattern.partial_iff hfits hn).1 hpartial with hleaf | ⟨hne, hall⟩ | ⟨x, hx, -⟩
    · exact .inl ⟨r, hr, hleaf⟩
    · refine .inr ⟨hne, (List.getElem?_eq_some_iff.1 hr).1, ?_⟩
      intro child hchild
      rcases List.mem_iff_getElem?.1 hchild with ⟨slot, hslot⟩
      exact (hchildren slot child hslot i (d + 1)).2 ⟨r, hr, hall slot child hslot⟩
    · rw [LabelTable.Records, hbest x] at hx
      cases hx

end

/-- A node takes over what its children agree on. -/
theorem combine_spec (t : Target) {l : Labeling} {id : NodeId} {old : Label}
    (hold : l.table.label? id = some old) (hsize : old.words.size = t.grammar.size)
    (children : List NodeId) :
    ∃ l' new, (t.combine id children).run l = .ok () l' ∧ l'.table.label? id = some new ∧
      new.words.size = t.grammar.size ∧ new.best = old.best ∧
      (∀ m ≠ id, l'.table.label? m = l.table.label? m) ∧
      ∀ i d, (new.word i).getLsbD d = true ↔ (old.word i).getLsbD d = true ∨
        (children ≠ [] ∧ i < t.grammar.size ∧
          ∀ child ∈ children, (l.table.word child i).getLsbD (d + 1) = true) := by
  cases children with
  | nil => exact ⟨l, old, rfl, hold, hsize, rfl, fun m _ => rfl, by simp⟩
  | cons first others =>
      let agreed := (Array.range t.grammar.size).map (agreement l.table first others)
      have hagreed : agreed.size = old.words.size := by
        simp [agreed, hsize]
      refine ⟨{ l with table := l.table.modify id (·.accept agreed) }, old.accept agreed, ?_,
        LabelTable.label?_modify_self hold, ?_, ?_, ?_, ?_⟩
      · rw [combine, run_bind_of_ok (EStateM.run_get l)]
        exact run_relabel hold _
      · rw [Label.size_words_accept hagreed, hsize]
      · funext x
        exact Label.best_accept old agreed x
      · intro m hm
        exact LabelTable.label?_modify_of_ne hm
      · intro i d
        rw [Label.word_accept hagreed, BitVec.getLsbD_or, Bool.or_eq_true]
        refine or_congr_right ?_
        rw [getD_agreement_iff]
        simp

/-- Once the subtrees of its children are labeled, a node takes over what its state accepts and
what they agree on, and can be settled. -/
theorem arrive_spec {t : Target} (hbuilt : t.Built) {arena : Arena} {id : NodeId} {n : Node}
    (htree : arena.IsTree Node.children id) (hn : arena.get? id = some n) {place : Option Place}
    {w : List Symbol} (henters : t.Enters place w) {l : Labeling} {old : Label}
    (hold : l.table.label? id = some old) (hsize : old.words.size = t.grammar.size)
    (hwords : ∀ i d, (old.word i).getLsbD d = false) (hbest : ∀ x, old.best x = none)
    (hchildren : ∀ (slot : Nat) (child : NodeId), n.children[slot]? = some child →
      ∀ v m, arena.Path Node.children child v m →
        t.Labeled arena l.table (w ++ [.kind n.kind, .child slot] ++ v) m) :
    ∃ l', (do
        LabelM.relabel id
          (·.accept (t.automaton.accepting (t.automaton.enter place (.kind n.kind))))
        t.combine id n.children).run l = .ok () l' ∧
      t.Marked arena l'.table w id ∧ ∀ m ≠ id, l'.table.label? m = l.table.label? m := by
  have haccepting : (t.automaton.accepting (t.automaton.enter place (.kind n.kind))).size =
      old.words.size := by
    rw [size_accepting_enter hbuilt henters, hsize]
  have hlabel := LabelTable.label?_modify_self (f := (·.accept (t.automaton.accepting
    (t.automaton.enter place (.kind n.kind))))) hold
  rcases combine_spec t (l := { l with table := l.table.modify id _ }) hlabel
      ((Label.size_words_accept haccepting).trans hsize) n.children with
    ⟨l', new, hrun, hnew, hsize', hbest', hothers, hbits⟩
  have hsame : ∀ m ≠ id, l'.table.label? m = l.table.label? m := by
    intro m hm
    exact (hothers m hm).trans (LabelTable.label?_modify_of_ne hm)
  -- only the label of `id` has changed, and in a tree no child leads back to it
  have hlabeled : ∀ (slot : Nat) (child : NodeId), n.children[slot]? = some child →
      ∀ v m, arena.Path Node.children child v m →
        t.Labeled arena l'.table (w ++ [.kind n.kind, .child slot] ++ v) m := by
    intro slot child hchild v m hv
    refine (hchildren slot child hchild v m hv).congr fun m' hm' => ?_
    exact hsame m' (htree.ne_of_below_child hn hchild (Arena.Below.trans ⟨v, hv⟩ hm'))
  have hnone : ∀ x, l'.table.best id x = none := by
    intro x
    rw [LabelTable.best_of_label? hnew, hbest', Label.best_accept, hbest]
  refine ⟨l', ?_, ⟨⟨new, hnew, hsize'⟩, ?_, ?_⟩, hsame⟩
  · rw [run_bind_of_ok (run_relabel hold _)]
    exact hrun
  · -- the masks were blank, so they hold what the state accepts and what the children agree on
    refine exact_of_agreement hbuilt hn hnone ?_ ?_
    · intro slot child hchild
      have := (hlabeled slot child hchild [] child (.root child)).exact
      rwa [List.append_nil] at this
    · intro i d
      rw [LabelTable.word_of_label? hnew, hbits, Label.word_accept haccepting,
        BitVec.getLsbD_or, hwords, Bool.false_or, accepting_enter_iff hbuilt henters]
      refine or_congr_right (and_congr_right fun _ => and_congr_right fun _ => ?_)
      refine forall_congr' fun child => imp_congr_right fun hchild => ?_
      rcases List.mem_iff_getElem?.1 hchild with ⟨slot, hslot⟩
      rw [LabelTable.word_congr (hothers child (htree.ne_of_below_child hn hslot (.refl child)))]
  · intro m hm
    rcases (Arena.below_iff hn).1 hm with rfl | ⟨slot, child, hchild, v, hv⟩
    · intro x c hc
      cases (hnone x).symm.trans hc
    · exact (hlabeled slot child hchild v m hv).realized

/-! ## Nodes without children -/

section

variable {t : Target} (hbuilt : t.Built) {arena : Arena} {table : LabelTable} {w : List Symbol}
  {id : NodeId} {n : Node} (hn : arena.get? id = some n) (hleaf : n.children = [])
include hbuilt hn hleaf

/-- The masks of a node without children tell the leaves of patterns that fit it. -/
theorem exact_leaf_iff : t.Exact arena table w id ↔
    ∀ i d, (table.word id i).getLsbD d = true ↔ ∃ r, t.grammar.rules[i]? = some r ∧
      (r.pattern.LeafAfter w (.kind n.kind) d ∨
        ∃ x, table.Records id x ∧ r.pattern.LeafAfter w (.nt x) d) := by
  refine forall_congr' fun i => forall_congr' fun d => iff_congr Iff.rfl ?_
  refine exists_congr fun r => and_congr_right fun hr => ?_
  rw [Pattern.partial_iff (hbuilt.fits (List.mem_of_getElem? hr)) hn]
  simp [hleaf]

/-- Only the words and the choices of such a node matter. -/
theorem Labeled.leaf_congr (h : t.Labeled arena table w id) {table' : LabelTable}
    (hlabel : ∃ l, table'.label? id = some l ∧ l.words.size = t.grammar.size)
    (hword : ∀ i, table'.word id i = table.word id i)
    (hbest : table'.best id = table.best id) : t.Labeled arena table' w id where
  label := hlabel
  exact := by
    have hexact := (exact_leaf_iff hbuilt hn hleaf).1 h.exact
    refine (exact_leaf_iff hbuilt hn hleaf).2 fun i d => ?_
    rw [hword, hexact i d]
    simp only [LabelTable.Records, hbest]
  realized := by
    intro x c hc
    rw [hbest] at hc
    exact h.realized x c hc
  stable := by
    refine h.stable.congr fun m hm => ?_
    rw [hm.eq_of_leaf hn hleaf, hbest]

/-- A walk that comes to such a node again by the same word finds in its masks all that the state
accepts. -/
theorem arrive_again {place : Option Place} (henters : t.Enters place w) {l : Labeling}
    (h : t.Labeled arena l.table w id) :
    ∃ l', (do
        LabelM.relabel id
          (·.accept (t.automaton.accepting (t.automaton.enter place (.kind n.kind))))
        t.combine id n.children).run l = .ok () l' ∧
      t.Marked arena l'.table w id ∧ ∀ m ≠ id, l'.table.label? m = l.table.label? m := by
  rcases h.label with ⟨old, hold, hsize⟩
  have haccepting : (t.automaton.accepting (t.automaton.enter place (.kind n.kind))).size =
      old.words.size := by
    rw [size_accepting_enter hbuilt henters, hsize]
  have hnew := LabelTable.label?_modify_self (f := (·.accept (t.automaton.accepting
    (t.automaton.enter place (.kind n.kind))))) hold
  have hword : ∀ i, (l.table.modify id (·.accept (t.automaton.accepting
      (t.automaton.enter place (.kind n.kind))))).word id i = l.table.word id i := by
    intro i
    rw [LabelTable.word_of_label? hnew, LabelTable.word_of_label? hold,
      Label.word_accept haccepting]
    refine BitVec.eq_of_getLsbD_eq fun d _ => ?_
    rw [BitVec.getLsbD_or, Bool.or_eq_left_iff_imp, accepting_enter_iff hbuilt henters,
      ← LabelTable.word_of_label? hold, (exact_leaf_iff hbuilt hn hleaf).1 h.exact]
    rintro ⟨r, hr, hfits⟩
    exact ⟨r, hr, .inl hfits⟩
  have hbest : (l.table.modify id (·.accept (t.automaton.accepting
      (t.automaton.enter place (.kind n.kind))))).best id = l.table.best id := by
    funext x
    rw [LabelTable.best_of_label? hnew, LabelTable.best_of_label? hold, Label.best_accept]
  have hlabeled := h.leaf_congr hbuilt hn hleaf
    ⟨_, hnew, (Label.size_words_accept haccepting).trans hsize⟩ hword hbest
  refine ⟨{ l with table := l.table.modify id _ }, ?_,
    ⟨hlabeled.label, hlabeled.exact, ?_⟩, fun m hm => LabelTable.label?_modify_of_ne hm⟩
  · rw [run_bind_of_ok (run_relabel hold _), hleaf]
    rfl
  · intro m hm
    rw [hm.eq_of_leaf hn hleaf]
    exact hlabeled.realized

end

/-- Either way a node that awaited the walk can be settled once its state is set and the subtrees of
its children are labeled. -/
theorem arrive_awaited {t : Target} (hbuilt : t.Built) {arena : Arena} {id : NodeId} {n : Node}
    (htree : arena.IsTree Node.children id) (hn : arena.get? id = some n) {place : Option Place}
    {w : List Symbol} (henters : t.Enters place w) {table : LabelTable} {old : Label}
    (hawaits : t.Awaits arena table w id) (hold : table.label? id = some old) {state : StateId}
    {l : Labeling} (hstate : l.table.label? id = some { old with state })
    (hchildren : ∀ (slot : Nat) (child : NodeId), n.children[slot]? = some child →
      ∀ v m, arena.Path Node.children child v m →
        t.Labeled arena l.table (w ++ [.kind n.kind, .child slot] ++ v) m) :
    ∃ l', (do
        LabelM.relabel id
          (·.accept (t.automaton.accepting (t.automaton.enter place (.kind n.kind))))
        t.combine id n.children).run l = .ok () l' ∧
      t.Marked arena l'.table w id ∧ ∀ m ≠ id, l'.table.label? m = l.table.label? m := by
  rcases hawaits with hblank | ⟨⟨n', hn', hleaf⟩, hlabeled⟩
  · cases hold.symm.trans hblank
    exact arrive_spec hbuilt htree hn henters hstate Array.size_replicate
      (Label.getLsbD_word_blank _) (by intro x; cases x <;> rfl) hchildren
  · cases hn.symm.trans hn'
    rcases hlabeled.label with ⟨old', hold', hsize⟩
    cases hold.symm.trans hold'
    refine arrive_again hbuilt hn hleaf henters
      (hlabeled.leaf_congr hbuilt hn hleaf ⟨_, hstate, hsize⟩ (fun i => ?_) (funext fun x => ?_))
    · rw [LabelTable.word_of_label? hstate, LabelTable.word_of_label? hold]
      rfl
    · rw [LabelTable.best_of_label? hstate, LabelTable.best_of_label? hold]
      cases x <;> rfl

/-! ## The walk -/

/-- With this fuel the walk over a subtree that awaits it and is no higher ends, labels all its
nodes, and changes no other node. -/
def Labels (t : Target) (arena : Arena) (fuel : Nat) : Prop :=
  ∀ {id : NodeId} {place : Option Place} {w : List Symbol} {l : Labeling},
    arena.IsTree Node.children id → t.grammar.Priced arena id → t.Enters place w →
    (∀ v m, arena.Path Node.children id v m → v.length < 2 * fuel) →
    (∀ v m, arena.Path Node.children id v m → t.Awaits arena l.table (w ++ v) m) →
    ∃ l', (t.labelAt arena fuel id place).run l = .ok () l' ∧
      (∀ m, ¬ arena.Below Node.children id m → l'.table.label? m = l.table.label? m) ∧
      ∀ v m, arena.Path Node.children id v m → t.Labeled arena l'.table (w ++ v) m

/-- The walk over some of the children of a node, the first of them in slot `k`. -/
theorem labelAt_children_spec {t : Target} {arena : Arena} {fuel : Nat} (ih : t.Labels arena fuel)
    {id : NodeId} {n : Node} (htree : arena.IsTree Node.children id)
    (hpriced : t.grammar.Priced arena id) (hn : arena.get? id = some n) {place : Option Place}
    {w : List Symbol} (henters : t.Enters place w)
    (hfuel : ∀ v m, arena.Path Node.children id v m → v.length < 2 * (fuel + 1))
    {children : List NodeId} {k : Nat} (hchildren : ∀ j : Nat, children[j]? = n.children[k + j]?)
    {l : Labeling}
    (hawaits : ∀ (j : Nat) (child : NodeId), children[j]? = some child →
      ∀ v m, arena.Path Node.children child v m →
        t.Awaits arena l.table (w ++ [.kind n.kind, .child (k + j)] ++ v) m) :
    ∃ l', ((children.zipIdx k).forM fun (child, slot) => t.labelAt arena fuel child
        (some { parent := t.automaton.enter place (.kind n.kind), slot })).run l = .ok () l' ∧
      (∀ m, (∀ child ∈ children, ¬ arena.Below Node.children child m) →
        l'.table.label? m = l.table.label? m) ∧
      ∀ (j : Nat) (child : NodeId), children[j]? = some child →
        ∀ v m, arena.Path Node.children child v m →
          t.Labeled arena l'.table (w ++ [.kind n.kind, .child (k + j)] ++ v) m := by
  induction children generalizing k l with
  | nil => exact ⟨l, rfl, fun m _ => rfl, by simp⟩
  | cons first rest ihrest =>
      have hfirst : n.children[k]? = some first := (hchildren 0).symm
      have hrest : ∀ j : Nat, rest[j]? = n.children[k + 1 + j]? := by
        intro j
        rw [Nat.add_right_comm]
        exact hchildren (j + 1)
      have hbelow := Arena.Below.child hn hfirst
      -- the first subtree, one level lower
      rcases ih (htree.child hn hfirst) (hpriced.of_below hbelow) (henters.child n.kind k)
          (fun v m hv => by
            have := hfuel _ m (.step hn hfirst hv)
            simp only [List.length_cons] at this
            omega)
          (hawaits 0 first rfl) with
        ⟨l₁, hrun₁, hframe₁, hlabeled₁⟩
      -- no node of a later subtree is in the first one
      have hdisjoint : ∀ child ∈ rest, ∀ m, arena.Below Node.children child m →
          ¬ arena.Below Node.children first m := by
        intro child hchild m hm hm'
        rcases List.mem_iff_getElem?.1 hchild with ⟨j, hj⟩
        have := htree.slot_unique hn hfirst ((hrest j).symm.trans hj) hm' hm
        omega
      have hawaits₁ : ∀ (j : Nat) (child : NodeId), rest[j]? = some child →
          ∀ v m, arena.Path Node.children child v m →
            t.Awaits arena l₁.table (w ++ [.kind n.kind, .child (k + 1 + j)] ++ v) m := by
        intro j child hchild v m hv
        rw [Nat.add_right_comm]
        refine (hawaits (j + 1) child hchild v m hv).congr (hframe₁ m ?_)
        exact hdisjoint child (List.mem_of_getElem? hchild) m ⟨v, hv⟩
      rcases ihrest hrest hawaits₁ with ⟨l', hrun', hframe', hlabeled'⟩
      refine ⟨l', ?_, ?_, ?_⟩
      · rw [List.zipIdx_cons, List.forM_eq_forM, List.forM_cons, run_bind_of_ok hrun₁]
        exact hrun'
      · intro m hm
        rw [hframe' m fun child hchild => hm child (List.mem_cons_of_mem first hchild),
          hframe₁ m (hm first List.mem_cons_self)]
      · rintro (_ | j) child hchild v m hv
        · cases hchild
          refine (hlabeled₁ v m hv).congr ?_
          intro m' hm'
          refine hframe' m' fun child hchild hchild' => ?_
          exact hdisjoint child hchild m' hchild' (Arena.Below.trans ⟨v, hv⟩ hm')
        · have := hlabeled' j child hchild v m hv
          rwa [Nat.add_right_comm] at this

/-- The walk over a subtree ends, and leaves all its nodes labeled. -/
theorem labels {t : Target} (hbuilt : t.Built) (arena : Arena) (fuel : Nat) :
    t.Labels arena fuel := by
  induction fuel with
  | zero =>
      intro id place w l _ _ _ hfuel _
      exact absurd (hfuel [] id (.root id)) (Nat.not_lt_zero _)
  | succ fuel ih =>
      -- one unit of fuel is one level, and a way has two symbols for each level
      intro id place w l htree hpriced henters hfuel hawaits
      rcases htree.exists_get? with ⟨n, hn⟩
      have hne : ∀ child ∈ n.children, ∀ m, arena.Below Node.children child m → m ≠ id := by
        intro child hchild m hm
        rcases List.mem_iff_getElem?.1 hchild with ⟨slot, hslot⟩
        exact htree.ne_of_below_child hn hslot hm
      -- on the way down only the state of the node is set
      have hself := hawaits [] id (.root id)
      rw [List.append_nil] at hself
      rcases hself.exists_label with ⟨old, hold, -⟩
      have hstate := LabelTable.label?_modify_self
        (f := ({ · with state := t.automaton.enter place (.kind n.kind) })) hold
      have hawaits₁ : ∀ (j : Nat) (child : NodeId), n.children[j]? = some child →
          ∀ v m, arena.Path Node.children child v m →
            t.Awaits arena (l.table.modify id
              ({ · with state := t.automaton.enter place (.kind n.kind) }))
              (w ++ [.kind n.kind, .child (0 + j)] ++ v) m := by
        intro j child hchild v m hv
        have hm := hawaits _ m (.step hn hchild hv)
        rw [Nat.zero_add, List.append_assoc]
        refine hm.congr (LabelTable.label?_modify_of_ne ?_)
        exact hne child (List.mem_of_getElem? hchild) m ⟨v, hv⟩
      rcases labelAt_children_spec ih htree hpriced hn henters hfuel (k := 0) (by simp)
          (l := { l with table := l.table.modify id _ }) hawaits₁ with
        ⟨l₂, hrun₂, hframe₂, hlabeled₂⟩
      simp only [Nat.zero_add] at hlabeled₂
      rw [← hframe₂ id fun child hchild hbelow => hne child hchild id hbelow rfl] at hstate
      -- on the way back the node takes over what its children agree on and is settled
      rcases arrive_awaited hbuilt htree hn henters hself hold hstate hlabeled₂ with
        ⟨l₃, hrun₃, hmarked₃, hsame₃⟩
      rcases settle_spec hbuilt htree henters hpriced hmarked₃ with
        ⟨l₄, hrun₄, hmarked₄, hstable₄, hsame₄⟩
      refine ⟨l₄, ?_, ?_, ?_⟩
      · rw [labelAt, run_bind_of_ok (run_ofExcept (Arena.node_eq_ok_iff.2 hn) l)]
        dsimp only
        rw [run_bind_of_ok (run_relabel hold _), run_bind_of_ok hrun₂]
        rcases run_bind_eq_ok.1 hrun₃ with ⟨⟨⟩, l', hrun, hrun'⟩
        rw [run_bind_of_ok hrun, run_bind_of_ok hrun', hrun₄]
      · intro m hm
        have hmid : m ≠ id := by
          rintro rfl
          exact hm (.refl m)
        rw [hsame₄ m hmid, hsame₃ m hmid, hframe₂ m, LabelTable.label?_modify_of_ne hmid]
        intro child hchild hbelow
        exact hm ((Arena.Below.of_mem hn hchild).trans hbelow)
      · intro v m hv
        cases hv with
        | root =>
            rw [List.append_nil]
            exact ⟨hmarked₄.label, hmarked₄.exact, hmarked₄.realized id (.refl id), hstable₄⟩
        | @step _ child _ n' slot v hn' hslot hv =>
            cases hn.symm.trans hn'
            have := hlabeled₂ slot child hslot v m hv
            rw [List.append_assoc] at this
            refine this.congr fun m' hm' => ?_
            have hmid := htree.ne_of_below_child hn hslot (Arena.Below.trans ⟨v, hv⟩ hm')
            rw [hsame₄ m' hmid, hsame₃ m' hmid]

/-- Labeling a tree that awaits it leaves every node labeled, and the labels of all other nodes as
they were. -/
theorem label_awaited_spec {t : Target} (hbuilt : t.Built) {arena : Arena} {root : NodeId}
    (htree : arena.IsTree Node.children root) (hpriced : t.grammar.Priced arena root)
    {l : Labeling} (hawaits : ∀ w m, arena.Path Node.children root w m →
      t.Awaits arena l.table w m) :
    ∃ l', (t.label arena root).run l = .ok () l' ∧
      (∀ m, ¬ arena.Below Node.children root m → l'.table.label? m = l.table.label? m) ∧
      ∀ w m, arena.Path Node.children root w m → t.Labeled arena l'.table w m := by
  have hfuel : ∀ v m, arena.Path Node.children root v m → v.length < 2 * (arena.size + 1) := by
    intro v m hv
    have := htree.length_lt hv
    omega
  exact labels hbuilt arena (arena.size + 1) htree hpriced t.enters_root hfuel hawaits

/-- Labeling a tree in a blank table that covers its arena leaves every node labeled. -/
theorem label_spec {t : Target} (hbuilt : t.Built) {arena : Arena} {root : NodeId}
    (htree : arena.IsTree Node.children root) (hpriced : t.grammar.Priced arena root) {nodes : Nat}
    (hcovers : arena.size ≤ nodes) (tr : Trace) :
    ∃ l, (t.label arena root).run { table := .blank nodes t.grammar.size, trace := tr } =
        .ok () l ∧
      ∀ w m, arena.Path Node.children root w m → t.Labeled arena l.table w m := by
  have hawaits : ∀ w m, arena.Path Node.children root w m →
      t.Awaits arena (.blank nodes t.grammar.size) w m := by
    intro w m hw
    exact .inl (LabelTable.label?_blank (Nat.lt_of_lt_of_le (htree.inside m ⟨w, hw⟩) hcovers))
  rcases label_awaited_spec hbuilt (l := ⟨.blank nodes t.grammar.size, tr⟩) htree hpriced
      hawaits with
    ⟨l, hrun, -, hlabeled⟩
  exact ⟨l, hrun, hlabeled⟩

/-! ## Exact words and least costs -/

/-- A grammar with a cycle of free chain rules, a pattern of two levels and a computed cost. -/
def cyclicGrammar : Grammar where
  rules :=
    [ ⟨"literal", .leaf .literal, .imm, .fixed 1, .keep⟩,
      ⟨"imm_to_reg", .imm, .reg, .fixed 0, .keep⟩,
      ⟨"reg_to_imm", .reg, .imm, .fixed 0, .keep⟩,
      ⟨"negate", .node .unary [.reg], .reg, .fixed 2, .keep⟩,
      ⟨"add_negated", .node .binary [.reg, .node .unary [.imm]], .reg,
        .computed fun _ id => .ok (some id), .keep⟩ ]
  start := .reg

def cyclicTarget : Target where
  grammar := cyclicGrammar
  automaton := .ofPatterns (cyclicGrammar.rules.map Rule.pattern)
  settings := {}

/-- The tree `5 + -7`, with its root at 3. -/
def negatedSum : Arena := ⟨#[.literal 5, .literal 7, .unary .neg 1, .binary .add 0 2]⟩

theorem priced_cyclicGrammar (arena : Arena) (root : NodeId) : cyclicGrammar.Priced arena root := by
  intro r hr n _ _
  simp only [cyclicGrammar, List.mem_cons, List.not_mem_nil, or_false] at hr
  rcases hr with rfl | rfl | rfl | rfl | rfl <;> exact ⟨_, rfl⟩

/-- Labeling a tree ends.  Then bit `d` of a rule's word at a node tells that `d` levels up there is
a node of the tree from which the same way leads down to the node and, in the rule's pattern, to a
sub-pattern that matches the node; bit 0 tells that the whole pattern matches it. -/
theorem label_words_exact {g : Grammar} {s : Settings} {t : Target} (ht : Target.build g s = .ok t)
    {arena : Arena} {root : NodeId} (htree : arena.IsTree Node.children root)
    (hpriced : g.Priced arena root) {nodes : Nat} (hcovers : arena.size ≤ nodes) (tr : Trace) :
    ∃ l, (t.label arena root).run { table := .blank nodes g.size, trace := tr } = .ok () l ∧
      ∀ n, arena.Below Node.children root n → ∀ (i : RuleId) (r : Rule), g.rules[i]? = some r →
        (∀ d, (l.table.word n i).getLsbD d = true ↔
          ∃ a w q, arena.Below Node.children root a ∧ arena.Path Node.children a w n ∧
            w.length = 2 * d ∧ r.pattern.At w q ∧
            q.Matches arena (fun m x => (l.table.best m x).isSome) n) ∧
        ((l.table.word n i).getLsbD 0 = true ↔
          r.pattern.Matches arena (fun m x => (l.table.best m x).isSome) n) := by
  rcases built_of_build ht with ⟨rfl, hbuilt⟩
  rcases label_spec hbuilt htree hpriced hcovers tr with ⟨l, hrun, hlabeled⟩
  refine ⟨l, hrun, ?_⟩
  rintro n ⟨u, hu⟩ i r hr
  have hexact : ∀ d, (l.table.word n i).getLsbD d = true ↔
      r.pattern.Partial arena l.table.Records u n d := by
    intro d
    rw [(hlabeled u n hu).exact i d]
    constructor
    · rintro ⟨r', hr', hpartial⟩
      cases hr.symm.trans hr'
      exact hpartial
    · intro hpartial
      exact ⟨r, hr, hpartial⟩
  refine ⟨fun d => (hexact d).trans ⟨?_, ?_⟩, (hexact 0).trans Pattern.partial_zero_iff⟩
  · rintro ⟨w, q, hat, hsuffix, hlen, hq⟩
    rcases hu.split_suffix hsuffix hat.two_dvd_length with ⟨a, ha, hw⟩
    exact ⟨a, w, q, ha, hw, hlen, hat, hq⟩
  · rintro ⟨a, w, q, ⟨v, hv⟩, hw, hlen, hat, hq⟩
    have := htree.unique _ _ n hu (hv.append hw)
    exact ⟨w, q, hat, ⟨v, this.symm⟩, hlen, hq⟩

/-- Two levels above `7` in `5 + -7` there is a sum, so that `7` is where the rule for sums with a
negation has its `imm`; the rule itself does not match the negation. -/
theorem label_words_exact_negatedSum :
    negatedSum.IsTree Node.children 3 ∧ cyclicGrammar.Priced negatedSum 3 ∧
      ∃ t l, Target.build cyclicGrammar {} = .ok t ∧
        (t.label negatedSum 3).run { table := .blank 4 5, trace := #[] } = .ok () l ∧
        (l.table.word 1 4).getLsbD 2 = true ∧
        (∃ a w q, negatedSum.Below Node.children 3 a ∧ negatedSum.Path Node.children a w 1 ∧
          w.length = 2 * 2 ∧ (Pattern.node .binary [.reg, .node .unary [.imm]]).At w q ∧
          q.Matches negatedSum (fun m x => (l.table.best m x).isSome) 1) ∧
        (l.table.word 2 4).getLsbD 0 = false ∧
        ¬ (Pattern.node .binary [.reg, .node .unary [.imm]]).Matches negatedSum
          (fun m x => (l.table.best m x).isSome) 2 := by
  have htree : negatedSum.IsTree Node.children 3 := by decide
  have hpriced := priced_cyclicGrammar negatedSum 3
  have ht : Target.build cyclicGrammar {} = .ok cyclicTarget := rfl
  rcases label_words_exact ht htree hpriced (Nat.le_refl 4) #[] with ⟨l, hrun, h⟩
  have hbits : (endState? ((cyclicTarget.label negatedSum 3).run
      { table := .blank 4 cyclicGrammar.size, trace := #[] })).map (fun l =>
        ((l.table.word 1 4).getLsbD 2, (l.table.word 2 4).getLsbD 0)) = some (true, false) := by
    decide +kernel
  rw [hrun] at hbits
  rcases Prod.mk.inj (Option.some.inj hbits) with ⟨hset, hclear⟩
  have hnegation : negatedSum.Below Node.children 3 2 :=
    @Arena.Below.child _ negatedSum 3 2 (.binary .add 0 2) 1 rfl rfl
  have hnumber : negatedSum.Below Node.children 3 1 :=
    hnegation.trans (@Arena.Below.child _ negatedSum 2 1 (.unary .neg 1) 0 rfl rfl)
  refine ⟨htree, hpriced, _, l, ht, hrun, hset, ((h 1 hnumber 4 _ rfl).1 2).1 hset, hclear, ?_⟩
  intro hmatches
  rw [((h 2 hnegation 4 _ rfl).2).2 hmatches] at hclear
  cases hclear

/-- Labeling a tree ends.  Then the cost recorded for a node and a nonterminal is the least one of
all derivations, sums beyond the limit counting as the limit, and none is recorded exactly if there
is no derivation. -/
theorem label_best_isLeast {g : Grammar} {s : Settings} {t : Target}
    (ht : Target.build g s = .ok t) {arena : Arena} {root : NodeId}
    (htree : arena.IsTree Node.children root) (hpriced : g.Priced arena root) {nodes : Nat}
    (hcovers : arena.size ≤ nodes) (tr : Trace) :
    ∃ l, (t.label arena root).run { table := .blank nodes g.size, trace := tr } = .ok () l ∧
      ∀ n, arena.Below Node.children root n → ∀ x,
        (∀ c, l.table.best n x = some c →
          IsLeast {cost | ∃ k, g.Derives arena n x k ∧ cost = min k costLimit} c.cost) ∧
        (l.table.best n x = none ↔ ∀ k, ¬ g.Derives arena n x k) := by
  rcases built_of_build ht with ⟨rfl, hbuilt⟩
  rcases label_spec hbuilt htree hpriced hcovers tr with ⟨l, hrun, hlabeled⟩
  have hstable : ∀ m, arena.Below Node.children root m → l.table.Stable t.grammar arena m := by
    rintro m ⟨w, hw⟩
    exact (hlabeled w m hw).stable
  have hrealized : ∀ m, arena.Below Node.children root m → l.table.Realized t.grammar arena m := by
    rintro m ⟨w, hw⟩
    exact (hlabeled w m hw).realized
  refine ⟨l, hrun, fun n hn x => ⟨fun c hc => ?_, ?_⟩⟩
  · exact LabelTable.isLeast_best hstable hrealized hn hc
  · exact LabelTable.best_eq_none_iff hstable hrealized hn

theorem label_best_isLeast_negatedSum :
    negatedSum.IsTree Node.children 3 ∧ cyclicGrammar.Priced negatedSum 3 ∧
      ∃ t l c, Target.build cyclicGrammar {} = .ok t ∧
        (t.label negatedSum 3).run { table := .blank 4 5, trace := #[] } = .ok () l ∧
        l.table.best 3 .reg = some c ∧
        IsLeast {cost | ∃ k, cyclicGrammar.Derives negatedSum 3 .reg k ∧ cost = min k costLimit}
          c.cost := by
  have htree : negatedSum.IsTree Node.children 3 := by decide
  have hpriced := priced_cyclicGrammar negatedSum 3
  rcases label_best_isLeast (s := {}) rfl htree hpriced (Nat.le_refl 4) #[] with ⟨l, hrun, h⟩
  rcases h 3 (.refl 3) .reg with ⟨hleast, hnone⟩
  have hrule : ∀ i (hi : i < 5), cyclicGrammar.rules[i] ∈ cyclicGrammar.rules :=
    fun i hi => List.getElem_mem hi
  have hleft : cyclicGrammar.Derives negatedSum 0 .reg (0 + (1 + 0)) :=
    .rule (hrule 1 (by decide)) rfl (.nt (.rule (hrule 0 (by decide)) rfl (.node rfl rfl .nil)))
  have hright : cyclicGrammar.Derives negatedSum 1 .imm (1 + 0) :=
    .rule (hrule 0 (by decide)) rfl (.node rfl rfl .nil)
  have hsum : cyclicGrammar.Derives negatedSum 3 .reg (3 + (0 + (1 + 0) + ((1 + 0 + 0) + 0))) :=
    .rule (hrule 4 (by decide)) rfl (.node rfl rfl (.cons (.nt hleft)
      (.cons (.node rfl rfl (.cons (.nt hright) .nil)) .nil)))
  rcases Option.ne_none_iff_exists'.1 (fun hbest => hnone.1 hbest _ hsum) with ⟨c, hc⟩
  exact ⟨htree, hpriced, _, l, c, rfl, hrun, hc, hleast c hc⟩

end Target
end Codegen
