import Codegen.Proofs.Scan

/-!
# Separation — overlapping intervals get different registers

Intervals are placed in the order of their starts, those with equal starts in the order of their
registers, and those with equal starts and registers as they were given.  A register is handed out
a second time only to an interval that starts after the one that held it has ended.

* `LiveInterval.StableOrder` : the order of allocation, by what it is and not by how it is made
* `assign_separates`         : the registers of an assignment keep intervals apart
-/

namespace Codegen

/-! ## The order of allocation -/

namespace LiveInterval

/-- Whether an interval is one of those that no comparison tells apart. -/
def keyed (start vreg : Nat) (i : LiveInterval) : Bool := i.start == start && i.vreg == vreg

/-- `order` has the intervals of `given` by increasing start, for equal starts by increasing
register, and for equal starts and registers in the order of `given`. -/
structure StableOrder (given order : List LiveInterval) : Prop where
  perm : order.Perm given
  increasing : order.Pairwise fun a b => a.start < b.start ∨ (a.start = b.start ∧ a.vreg ≤ b.vreg)
  stable : ∀ start vreg, order.filter (keyed start vreg) = given.filter (keyed start vreg)

/-- An interval is put in front of all those it cannot be told apart from. -/
theorem filter_keyed_insert (start vreg : Nat) (a : LiveInterval) (l : List LiveInterval) :
    (insert a l).filter (keyed start vreg) = (a :: l).filter (keyed start vreg) := by
  induction l with
  | nil => rfl
  | cons b rest ih =>
      unfold insert
      split
      · rfl
      · rename_i hab
        rw [List.filter_cons, ih, List.filter_cons, List.filter_cons, List.filter_cons]
        -- what `a` is put behind comes strictly before it, so the two are not keyed alike
        have hdiffer : keyed start vreg a = true → keyed start vreg b = false := by
          rw [before_iff] at hab
          simp only [keyed, Bool.and_eq_true, beq_iff_eq, Bool.and_eq_false_iff]
          rintro ⟨rfl, rfl⟩
          simp only [beq_eq_false_iff_ne]
          omega
        by_cases ha : keyed start vreg a = true
        · simp [hdiffer ha]
        · simp [ha]

theorem stableOrder_sorted (l : List LiveInterval) : StableOrder l (sorted l) where
  perm := sorted_perm l
  increasing := (sorted_pairwise_before l).imp before_iff.1
  stable start vreg := by
    induction l with
    | nil => rfl
    | cons a rest ih =>
        calc (sorted (a :: rest)).filter (keyed start vreg)
            = (a :: sorted rest).filter (keyed start vreg) := filter_keyed_insert start vreg a _
          _ = (a :: rest).filter (keyed start vreg) := by
              rw [List.filter_cons, ih, ← List.filter_cons]

end LiveInterval

/-! ## Assignments -/

/-- An assignment is what a whole scan has placed. -/
theorem assign_eq_ok {s : Settings} {intervals : List LiveInterval} {pairs : List (Nat × Nat)}
    {tr tr' : Trace} (h : (assign s intervals).run tr = .ok pairs tr') :
    ∃ scan tr₁ tr₂, (Scan.run s.registers intervals).run tr₁ = .ok scan tr₂ ∧
      pairs = scan.placed := by
  unfold assign at h
  rw [run_bind_eq_ok] at h
  rcases h with ⟨_, tr₁, -, h⟩
  rw [run_bind_eq_ok] at h
  rcases h with ⟨scan, tr₂, hscan, h⟩
  cases h
  exact ⟨scan, tr₁, _, hscan, rfl⟩

/-- An assignment has one pair for each interval, in the stable order of starts and registers.  All
registers are below the number of registers; where an earlier and a later interval share one, the
later starts after the earlier has ended, and so no two overlapping intervals share one. -/
theorem assign_separates {s : Settings} {intervals : List LiveInterval}
    {pairs : List (Nat × Nat)} {tr tr' : Trace}
    (h : (assign s intervals).run tr = .ok pairs tr') :
    ∃ placements : List Placement,
      LiveInterval.StableOrder intervals (placements.map Placement.interval) ∧
      pairs = placements.map (fun p => (p.interval.vreg, p.reg)) ∧
      (∀ p ∈ placements, p.reg < s.registers) ∧
      (∀ (i j : Nat) (p q : Placement), placements[i]? = some p → placements[j]? = some q →
        i ≠ j → p.interval.overlaps q.interval = true → p.reg ≠ q.reg) ∧
      ∀ (i j : Nat) (p q : Placement), placements[i]? = some p → placements[j]? = some q →
        i < j → p.reg = q.reg → p.interval.stop < q.interval.start := by
  rcases assign_eq_ok h with ⟨scan, tr₁, tr₂, hscan, rfl⟩
  rcases Scan.run_valid hscan with ⟨done, reached, hdone, hvalid⟩
  have hlater : ∀ (i j : Nat) (p q : Placement), done[i]? = some p → done[j]? = some q →
      i < j → p.reg = q.reg → p.interval.stop < q.interval.start := by
    intro i j p q hp hq hij
    rcases List.getElem?_eq_some_iff.1 hp with ⟨hi, rfl⟩
    rcases List.getElem?_eq_some_iff.1 hq with ⟨hj, rfl⟩
    exact List.pairwise_iff_getElem.1 hvalid.apart i j hi hj hij
  refine ⟨done, ?_, hvalid.placed, hvalid.bounded, ?_, hlater⟩
  · rw [hdone]
    exact LiveInterval.stableOrder_sorted intervals
  · intro i j p q hp hq hij hoverlap hreg
    simp only [LiveInterval.overlaps, Bool.and_eq_true, decide_eq_true_eq] at hoverlap
    -- whichever of the two comes first has ended when the other starts
    rcases Nat.lt_or_gt_of_ne hij with hlt | hgt
    · have := hlater i j p q hp hq hlt hreg
      omega
    · have := hlater j i q p hq hp hgt hreg.symm
      omega

/-- Intervals out of order: two with one register and start, an inverted one, and one that starts
where another ends. -/
def untidy : List LiveInterval := [⟨4, 3, 6⟩, ⟨1, 0, 3⟩, ⟨2, 5, 1⟩, ⟨1, 0, 0⟩, ⟨3, 7, 8⟩]

theorem assign_separates_untidy :
    ∃ tr', (assign { registers := 3 } untidy).run #[] =
        .ok [(1, 0), (1, 1), (4, 1), (2, 0), (3, 0)] tr' ∧
      ∃ placements : List Placement,
        LiveInterval.StableOrder untidy (placements.map Placement.interval) ∧
        [(1, 0), (1, 1), (4, 1), (2, 0), (3, 0)] =
          placements.map (fun p => (p.interval.vreg, p.reg)) := by
  have hassigned : (match (assign { registers := 3 } untidy).run #[] with
      | .ok pairs _ => some pairs
      | .error _ _ => none) = some [(1, 0), (1, 1), (4, 1), (2, 0), (3, 0)] := by decide
  cases h : (assign { registers := 3 } untidy).run #[] with
  | ok pairs tr' =>
      rw [h] at hassigned
      cases hassigned
      rcases assign_separates h with ⟨placements, horder, hpairs, -⟩
      exact ⟨tr', rfl, placements, horder, hpairs⟩
  | error e tr' =>
      rw [h] at hassigned
      cases hassigned

end Codegen
