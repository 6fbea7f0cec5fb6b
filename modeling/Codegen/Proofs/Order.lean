import Codegen.Proofs.Masks
import Codegen.X64.Rules
import Mathlib.Order.Bounds.Basic

/-!
# Order — labeling several roots in one table

A walk over a subtree with blank labels leaves costs there that no rule improves on, and no later
walk changes them.  A walk over a subtree that has costs already is another matter: a nonterminal
brings masks for its place only when it is newly recorded, so what an earlier walk recorded is not
seen from above.

* `Target.Ripe`             : no rule improves on the costs at or below a node
* `Target.Moves.best_eq`    : walks change none of these costs
* `Target.labelAt_ripe`     : a walk that comes to blank labels makes them ripe
* `Target.labelAll_cost_eq` : a node that a walk from above comes to before one from below gets the
  costs it has alone
-/

namespace Codegen
namespace Target

/-- No rule improves on what is recorded at or below `id`. -/
def Ripe (t : Target) (arena : Arena) (id : NodeId) (table : LabelTable) : Prop :=
  ∀ m, arena.Below Node.children id m → table.Stable t.grammar arena m

/-- No walk has come to a node at or below `id`, or none need come again. -/
def Poised (t : Target) (arena : Arena) (id : NodeId) (table : LabelTable) : Prop :=
  (∀ m, arena.Below Node.children id m → table.label? m = some (.blank t.grammar.size)) ∨
    t.Ripe arena id table

/-! ## Ripe costs -/

section

variable {t : Target} {arena : Arena} {id : NodeId} {table table' : LabelTable}

theorem Ripe.congr (h : t.Ripe arena id table)
    (hbest : ∀ m, arena.Below Node.children id m → table'.best m = table.best m) :
    t.Ripe arena id table' := by
  intro m hm
  exact (h m hm).congr fun k hk => hbest k (hm.trans hk)

theorem Poised.congr (h : t.Poised arena id table)
    (hlabel : ∀ m, arena.Below Node.children id m → table'.label? m = table.label? m) :
    t.Poised arena id table' := by
  rcases h with hblank | hripe
  · exact .inl fun m hm => (hlabel m hm).trans (hblank m hm)
  · exact .inr (hripe.congr fun m hm => LabelTable.best_congr (hlabel m hm))

/-- A rule with a price matches, so it does not improve on a ripe cost. -/
theorem Ripe.improves_eq_false (hbuilt : t.Built) (h : t.Ripe arena id table) {m : NodeId}
    (hm : arena.Below Node.children id m) {r : Rule} (hr : r ∈ t.grammar.rules) {cost : Nat}
    (hprice : table.price? arena r m = .ok (some cost)) :
    table.improves m r.result cost = false := by
  rcases LabelTable.price?_eq_some.1 hprice with ⟨base, k, -, hbound, -⟩
  have hmatches := LabelTable.matches_of_bindingCost? r.pattern (hbuilt.fits hr) hbound
  rcases h m hm r hr hmatches cost hprice with ⟨c, hc, hle⟩
  rw [LabelTable.improves, hc]
  exact decide_eq_false (Nat.not_lt_of_le hle)

end

namespace Moves

variable {t : Target} {arena : Arena} {within : NodeId → Prop} {l l' : Labeling}

/-- Ripe costs stay as they are. -/
theorem best_eq (hbuilt : t.Built) (h : t.Moves arena within l l') {id : NodeId}
    (hripe : t.Ripe arena id l.table) :
    ∀ m, arena.Below Node.children id m → l'.table.best m = l.table.best m := by
  induction h with
  | refl l => exact fun m _ => rfl
  | relabel _ hf _ ih =>
      intro m hm
      rw [ih (hripe.congr fun k _ => best_modify hf k) m hm, best_modify hf]
  | @keep l l' id' place old i r cost _ hold hr hprice himproves _ ih =>
      -- a rule that is kept improves on something, so it is kept elsewhere
      have hnot : ¬ arena.Below Node.children id id' := by
        intro hbelow
        have := hripe.improves_eq_false hbuilt hbelow (List.mem_of_getElem? hr) hprice
        cases himproves.symm.trans this
      have hsame : ∀ m, arena.Below Node.children id m →
          (t.kept place l.table id' r.result { cost, rule := i }).best m = l.table.best m := by
        intro m hm
        refine best_kept_of_ne ?_
        rintro rfl
        exact hnot hm
      intro m hm
      rw [ih (hripe.congr hsame) m hm, hsame m hm]

theorem ripe (hbuilt : t.Built) (h : t.Moves arena within l l') {id : NodeId}
    (hripe : t.Ripe arena id l.table) : t.Ripe arena id l'.table :=
  hripe.congr (h.best_eq hbuilt hripe)

end Moves

/-! ## Walks that come to a node -/

section

variable {t : Target} (hbuilt : t.Built) {arena : Arena} {id : NodeId}
include hbuilt

/-- Of several walks none may spoil a node, and one that makes it ripe is enough. -/
theorem forM_poised {α : Type} {walk : α → LabelM Unit} {items : List α} {reaches : α → Prop}
    {within : NodeId → Prop}
    (h : ∀ item ∈ items, ∀ l, t.Truthful arena l.table → t.Poised arena id l.table →
      ∃ l', (walk item).run l = .ok () l' ∧ t.Moves arena within l l' ∧
        t.Truthful arena l'.table ∧ t.Poised arena id l'.table ∧
        (reaches item → t.Ripe arena id l'.table))
    {l : Labeling} (hl : t.Truthful arena l.table) (hpoised : t.Poised arena id l.table) :
    ∃ l', (items.forM walk).run l = .ok () l' ∧ t.Moves arena within l l' ∧
      t.Truthful arena l'.table ∧ ((∃ item ∈ items, reaches item) → t.Ripe arena id l'.table) := by
  induction items generalizing l with
  | nil => exact ⟨l, rfl, .refl l, hl, by simp⟩
  | cons first rest ih =>
      rcases h first List.mem_cons_self l hl hpoised with
        ⟨l₁, hrun₁, hmoves₁, hl₁, hpoised₁, hripe₁⟩
      rcases ih (fun item hitem => h item (List.mem_cons_of_mem first hitem)) hl₁ hpoised₁ with
        ⟨l', hrun', hmoves', hl', hripe'⟩
      refine ⟨l', ?_, hmoves₁.trans hmoves', hl', ?_⟩
      · rw [List.forM_eq_forM, List.forM_cons, run_bind_of_ok hrun₁]
        exact hrun'
      · rintro ⟨item, hitem, hreaches⟩
        rcases List.mem_cons.1 hitem with rfl | hitem
        · exact hmoves'.ripe hbuilt (hripe₁ hreaches)
        · exact hripe' ⟨item, hitem, hreaches⟩

variable (hshared : arena.Unshared Node.children)
include hshared

/-- A walk that comes to a node makes it ripe, unless an earlier walk has spoiled it. -/
theorem labelAt_ripe {fuel : Nat} {root : NodeId} {place : Option Place} {l : Labeling}
    (hroot : t.Visits arena root place)
    (hfuel : ∀ v m, arena.Path Node.children root v m → v.length < 2 * fuel)
    (hl : t.Truthful arena l.table) (hid : arena.Below Node.children root id)
    (hpoised : t.Poised arena id l.table) :
    ∃ l', (t.labelAt arena fuel root place).run l = .ok () l' ∧
      t.Moves arena (arena.Below Node.children root) l l' ∧ t.Truthful arena l'.table ∧
      t.Ripe arena id l'.table := by
  have hwalks := sustained_of_unshared hbuilt hshared
  induction fuel generalizing root place l with
  | zero => exact absurd (hfuel [] root (.root root)) (Nat.not_lt_zero _)
  | succ fuel ih =>
      rcases hwalks.labelAt_moves hroot hfuel hl with ⟨l', hrun, hmoves, hl'⟩
      refine ⟨l', hrun, hmoves, hl', ?_⟩
      rcases hpoised with hblank | hripe
      case inr => exact hmoves.ripe hbuilt hripe
      have htree := hshared.isTree hroot.dag
      rcases htree.exists_get? with ⟨n, hn⟩
      rcases (Arena.below_iff hn).1 hid with rfl | ⟨slot, child, hslot, hchild⟩
      · -- the walk began here, with blank labels in the whole subtree
        rcases hroot.way with ⟨_, w, -, henters⟩
        rcases labels hbuilt arena (fuel + 1) htree hroot.priced henters hfuel
            (fun v m hv => .inl (hblank m ⟨v, hv⟩)) with
          ⟨l₁, hrun₁, -, hlabeled⟩
        cases hrun.symm.trans hrun₁
        rintro m ⟨v, hv⟩
        exact (hlabeled v m hv).stable
      · -- one of the children is above the node, and the others are apart from it
        have hsteady := hwalks.steady hroot
        rcases hsteady.label hl with ⟨old, hold⟩
        have hpoised₁ : t.Poised arena id (l.table.modify root
            ({ · with state := t.automaton.enter place (.kind n.kind) })) := by
          refine .inl fun m hm => ?_
          rw [LabelTable.label?_modify_of_ne
            (htree.ne_of_below_child hn hslot (hchild.trans hm)), hblank m hm]
        have hwalk : ∀ item ∈ n.children.zipIdx, ∀ l₁ : Labeling,
            t.Truthful arena l₁.table → t.Poised arena id l₁.table →
            ∃ l₂, ((fun (child, slot) => t.labelAt arena fuel child
                (some { parent := t.automaton.enter place (.kind n.kind), slot })) item).run l₁ =
                  .ok () l₂ ∧
              t.Moves arena (arena.Below Node.children root) l₁ l₂ ∧
              t.Truthful arena l₂.table ∧ t.Poised arena id l₂.table ∧
              (arena.Below Node.children item.1 id → t.Ripe arena id l₂.table) := by
          rintro ⟨c, j⟩ hitem l₁ hl₁ hpoised₁
          have hj := List.mem_zipIdx_iff_getElem?.1 hitem
          have hbelow := Arena.Below.child hn hj
          have hvisits := hwalks.child hroot hn hj
          have hshorter := shorter_of_child hn hj hfuel
          by_cases hc : arena.Below Node.children c id
          · rcases ih hvisits hshorter hl₁ hc hpoised₁ with ⟨l₂, hrun₂, hmoves₂, hl₂, hripe₂⟩
            exact ⟨l₂, hrun₂, hmoves₂.mono fun m hm => hbelow.trans hm, hl₂, .inr hripe₂,
              fun _ => hripe₂⟩
          · rcases hwalks.labelAt_moves hvisits hshorter hl₁ with ⟨l₂, hrun₂, hmoves₂, hl₂⟩
            refine ⟨l₂, hrun₂, hmoves₂.mono fun m hm => hbelow.trans hm, hl₂,
              hpoised₁.congr fun m hm => hmoves₂.label?_of_not ?_, fun hc' => absurd hc' hc⟩
            intro hm'
            have hsame := htree.slot_unique hn hslot hj (hchild.trans hm) hm'
            subst hsame
            cases hslot.symm.trans hj
            exact hc hchild
        -- once ripe it stays so, while the walks over further children and the way back go on
        rcases forM_poised hbuilt hwalk (l := { l with table := l.table.modify root _ })
            (hsteady.state _ hl) hpoised₁ with
          ⟨l₂, hrun₂, -, hl₂, hripe₂⟩
        have hself : arena.Below Node.children root root := .refl root
        rcases hsteady.comeBack_moves hself hn hl₂ with ⟨l₃, hrun₃, hmoves₃, -⟩
        rw [run_labelAt hn hold, walkChildren, run_bind_of_ok hrun₂, hrun₃] at hrun
        cases hrun
        exact hmoves₃.ripe hbuilt
          (hripe₂ ⟨(child, slot), List.mem_zipIdx_iff_getElem?.2 hslot, hchild⟩)

/-- Labeling a root that is above a node, or apart from it. -/
theorem label_poised {root : NodeId} (hroot : t.Visits arena root none) {l : Labeling}
    (hl : t.Truthful arena l.table)
    (hplace : arena.Below Node.children root id ∨ ¬ arena.Below Node.children id root)
    (hpoised : t.Poised arena id l.table) :
    ∃ l', (t.label arena root).run l = .ok () l' ∧
      t.Moves arena (arena.Below Node.children root) l l' ∧ t.Truthful arena l'.table ∧
      t.Poised arena id l'.table ∧
      (arena.Below Node.children root id → t.Ripe arena id l'.table) := by
  by_cases habove : arena.Below Node.children root id
  · have hfuel : ∀ v m, arena.Path Node.children root v m → v.length < 2 * (arena.size + 1) := by
      intro v m hv
      have := hroot.dag.length_lt hv
      omega
    rcases labelAt_ripe hbuilt hshared hroot hfuel hl habove hpoised with
      ⟨l', hrun, hmoves, hl', hripe⟩
    exact ⟨l', hrun, hmoves, hl', .inr hripe, fun _ => hripe⟩
  · rcases (sustained_of_unshared hbuilt hshared).label_moves hroot hl with
      ⟨l', hrun, hmoves, hl'⟩
    refine ⟨l', hrun, hmoves, hl', hpoised.congr fun m hm => hmoves.label?_of_not ?_,
      fun h => absurd h habove⟩
    -- without sharing, two nodes with a node below both are below one another
    intro hm'
    rcases hshared.comparable hm' hm with h | h
    · exact habove h
    · exact (hplace.resolve_left habove) h

/-- Labeling roots that are above a node, or apart from it. -/
theorem labelAll_poised {roots : List NodeId} (hroots : ∀ root ∈ roots, t.Visits arena root none)
    {l : Labeling} (hl : t.Truthful arena l.table)
    (hplace : ∀ root ∈ roots,
      arena.Below Node.children root id ∨ ¬ arena.Below Node.children id root)
    (hpoised : t.Poised arena id l.table) :
    ∃ l', (t.labelAll arena roots).run l = .ok () l' ∧ t.Truthful arena l'.table ∧
      ((∃ root ∈ roots, arena.Below Node.children root id) → t.Ripe arena id l'.table) := by
  have hwalk : ∀ root ∈ roots, ∀ l : Labeling, t.Truthful arena l.table →
      t.Poised arena id l.table → ∃ l', (t.label arena root).run l = .ok () l' ∧
        t.Moves arena (fun _ => True) l l' ∧ t.Truthful arena l'.table ∧
        t.Poised arena id l'.table ∧
        (arena.Below Node.children root id → t.Ripe arena id l'.table) := by
    intro root hroot l hl hpoised
    rcases label_poised hbuilt hshared (hroots root hroot) hl (hplace root hroot) hpoised with
      ⟨l', hrun, hmoves, hl', hpoised', hripe⟩
    exact ⟨l', hrun, hmoves.mono fun _ _ => trivial, hl', hpoised', hripe⟩
  rcases forM_poised hbuilt hwalk hl hpoised with ⟨l', hrun, -, hl', hripe⟩
  exact ⟨l', hrun, hl', hripe⟩

/-! ## Several roots -/

/-- A node that a root above it comes to, before any root below it, is ripe in the end. -/
theorem labelAll_ripe {before after : List NodeId} {root : NodeId}
    (hroots : ∀ r ∈ before ++ [root] ++ after, t.Visits arena r none)
    (hroot : arena.Below Node.children root id)
    (hbefore : ∀ r ∈ before, ¬ arena.Below Node.children id r) {nodes : Nat}
    (hcovers : arena.size ≤ nodes) {tr : Trace} {l : Labeling}
    (hrun : (t.labelAll arena (before ++ [root] ++ after)).run
      { table := .blank nodes t.grammar.size, trace := tr } = .ok () l) :
    t.Ripe arena id l.table := by
  have hfirst : ∀ r ∈ before ++ [root], t.Visits arena r none :=
    fun r hr => hroots r (List.mem_append_left after hr)
  have hrest : ∀ r ∈ after, t.Visits arena r none :=
    fun r hr => hroots r (List.mem_append_right _ hr)
  have hmem : root ∈ before ++ [root] := List.mem_append_right before List.mem_cons_self
  have hplace : ∀ r ∈ before ++ [root],
      arena.Below Node.children r id ∨ ¬ arena.Below Node.children id r := by
    intro r hr
    rcases List.mem_append.1 hr with hr | hr
    · exact .inr (hbefore r hr)
    · rw [List.mem_singleton.1 hr]
      exact .inl hroot
  have hpoised : t.Poised arena id (.blank nodes t.grammar.size) := by
    refine .inl fun m hm => LabelTable.label?_blank ?_
    exact Nat.lt_of_lt_of_le ((hfirst root hmem).dag.inside m (hroot.trans hm)) hcovers
  -- up to the root above the node no walk spoils it, and that root makes it ripe
  rcases labelAll_poised hbuilt hshared (l := ⟨.blank nodes t.grammar.size, tr⟩) hfirst
      (t.truthful_blank hcovers) hplace hpoised with
    ⟨l₁, hrun₁, hl₁, hripe₁⟩
  -- the roots that follow change nothing there
  rcases (sustained_of_unshared hbuilt hshared).labelAll_moves hrest hl₁ with
    ⟨l₂, hrun₂, hmoves₂, -⟩
  rw [run_labelAll_append, run_bind_of_ok hrun₁, hrun₂] at hrun
  cases hrun
  exact hmoves₂.ripe hbuilt (hripe₁ ⟨root, hmem, hroot⟩)

end

/-- Labeling a list of roots in one table ends, in any order and with repetitions, in an arena in
which no node hangs in two slots.  What is then recorded for a node costs no less than what labeling
the node alone records.  It costs the same if some root above the node comes before all roots below
it. -/
theorem labelAll_cost_eq {g : Grammar} {s : Settings} {t : Target}
    (ht : Target.build g s = .ok t) {arena : Arena} (hshared : arena.Unshared Node.children)
    {roots : List NodeId} (hdag : ∀ root ∈ roots, arena.IsDag Node.children root)
    (hpriced : ∀ root ∈ roots, g.Priced arena root) {nodes : Nat} (hcovers : arena.size ≤ nodes)
    (tr : Trace) :
    ∃ l, (t.labelAll arena roots).run { table := .blank nodes g.size, trace := tr } = .ok () l ∧
      ∀ n, (∃ root ∈ roots, arena.Below Node.children root n) →
        ∃ l', (t.label arena n).run { table := .blank nodes g.size, trace := tr } = .ok () l' ∧
          ∀ x,
            (∀ c, l.table.best n x = some c → ∃ c', l'.table.best n x = some c' ∧
              c'.cost ≤ c.cost) ∧
            ((∃ before root after, roots = before ++ root :: after ∧
                arena.Below Node.children root n ∧
                ∀ r ∈ before, ¬ arena.Below Node.children n r) →
              (l.table.best n x).map Choice.cost = (l'.table.best n x).map Choice.cost) := by
  rcases built_of_build ht with ⟨rfl, hbuilt⟩
  have hroots : ∀ root ∈ roots, t.Visits arena root none :=
    fun root hroot => ⟨hdag root hroot, hpriced root hroot, root, [], .root root, t.enters_root⟩
  rcases (sustained_of_unshared hbuilt hshared).labelAll_moves hroots
      (l := ⟨.blank nodes t.grammar.size, tr⟩) (t.truthful_blank hcovers) with
    ⟨l, hrun, -, hl⟩
  have hreal := hl.realized
  refine ⟨l, hrun, ?_⟩
  rintro n ⟨root, hroot, hn⟩
  have htree := hshared.isTree ((hdag root hroot).of_below hn)
  rcases label_spec hbuilt htree ((hpriced root hroot).of_below hn) hcovers tr with
    ⟨l', hrun', hlabeled⟩
  have hripe' : t.Ripe arena n l'.table := fun m ⟨w, hw⟩ => (hlabeled w m hw).stable
  have hreal' : ∀ m, arena.Below Node.children n m → l'.table.Realized t.grammar arena m :=
    fun m ⟨w, hw⟩ => (hlabeled w m hw).realized
  have hle : ∀ x c, l.table.best n x = some c →
      ∃ c', l'.table.best n x = some c' ∧ c'.cost ≤ c.cost := by
    intro x c hc
    rcases (hreal n).derives hc with ⟨k, hk, hcost⟩
    rw [hcost]
    exact LabelTable.best_le_of_derives hripe' (.refl n) hk
  refine ⟨l', hrun', fun x => ⟨hle x, ?_⟩⟩
  rintro ⟨before, above, after, rfl, habove, hbefore⟩
  rw [List.append_cons] at hroots hrun
  have hripe := labelAll_ripe hbuilt hshared hroots habove hbefore hcovers hrun
  cases hbest : l'.table.best n x with
  | none =>
      have hnone := (LabelTable.best_eq_none_iff hripe' hreal' (.refl n)).1 hbest
      rw [(LabelTable.best_eq_none_iff hripe (fun m _ => hreal m) (.refl n)).2 hnone]
  | some c' =>
      -- both are the least cost of a derivation
      rcases (hreal' n (.refl n)).derives hbest with ⟨k, hk, -⟩
      rcases LabelTable.best_le_of_derives hripe (.refl n) hk with ⟨c, hc, -⟩
      have hleast := LabelTable.isLeast_best hripe (fun m _ => hreal m) (.refl n) hc
      have hleast' := LabelTable.isLeast_best hripe' hreal' (.refl n) hbest
      rw [hc, Option.map_some, Option.map_some, hleast.unique hleast']

theorem labelAll_cost_eq_negatedSum :
    negatedSum.Unshared Node.children ∧
      (∀ root ∈ [3, 2, 0, 3], negatedSum.IsDag Node.children root) ∧
      ∃ l l', (cyclicTarget.labelAll negatedSum [3, 2, 0, 3]).run
          { table := .blank 4 5, trace := #[] } = .ok () l ∧
        (cyclicTarget.label negatedSum 2).run { table := .blank 4 5, trace := #[] } = .ok () l' ∧
        (l.table.best 2 .reg).map Choice.cost = (l'.table.best 2 .reg).map Choice.cost := by
  have hshared : negatedSum.Unshared Node.children := by decide
  have hdag : ∀ root ∈ [3, 2, 0, 3], negatedSum.IsDag Node.children root := by decide
  have ht : Target.build cyclicGrammar {} = .ok cyclicTarget := rfl
  rcases labelAll_cost_eq ht hshared hdag (fun root _ => priced_cyclicGrammar negatedSum root)
      (Nat.le_refl 4) #[] with
    ⟨l, hrun, h⟩
  have hbelow : negatedSum.Below Node.children 3 2 :=
    @Arena.Below.child _ negatedSum 3 2 (.binary .add 0 2) 1 rfl rfl
  rcases h 2 ⟨3, List.mem_cons_self, hbelow⟩ with ⟨l', hrun', hcosts⟩
  exact ⟨hshared, hdag, l, l', hrun, hrun',
    (hcosts .reg).2 ⟨[], 3, [2, 0, 3], rfl, hbelow, by simp⟩⟩

/-- The cost recorded for a node, if any, once labeling the roots has ended, if it does. -/
def costAfter (t : Target) (arena : Arena) (roots : List NodeId) (id : NodeId)
    (x : Nonterminal) : Option (Option Nat) :=
  (endState? ((t.labelAll arena roots).run (t.unlabeled arena))).map
    fun l => (l.table.best id x).map Choice.cost

/-- The negation of a register, with its root at 1. -/
def negatedReg : Arena := ⟨#[.vreg { index := 0 }, .unary .neg 0]⟩

/-- If a register is labeled before its negation, no cost is found for the negation. -/
theorem labelAll_subtree_first :
    negatedReg.Unshared Node.children ∧ (∀ root ∈ [0, 1], negatedReg.IsDag Node.children root) ∧
      ∃ t, Target.x64 {} = .ok t ∧ costAfter t negatedReg [1] 1 .reg = some (some 2) ∧
        costAfter t negatedReg [1, 0] 1 .reg = some (some 2) ∧
        costAfter t negatedReg [0, 1] 1 .reg = some none :=
  ⟨by decide, by decide, _, rfl, by decide +kernel⟩

end Target
end Codegen
