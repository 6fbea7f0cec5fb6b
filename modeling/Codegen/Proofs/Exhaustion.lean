import Codegen.Proofs.Pressure
import Codegen.Proofs.Separation

/-!
# Exhaustion — when an assignment fails, and what it reports

An assignment fails at the first interval in the order of allocation that finds as many earlier ones
still in need of their registers as there are registers.  It names the one of them that ends last.
Intervals may be given in any order, more than once, or with an end before the start: such an
interval takes a register too, and gives it back to the next one.

* `LiveInterval.reaching`   : the earlier intervals that have not ended at a position
* `LiveInterval.Crowded`    : an interval that finds no register free
* `LiveInterval.EndsLast`   : the one to be named
* `Scan.lined`              : the active placements, as a function of all that were made
* `assign_exhausts`         : an assignment fails exactly where the order is crowded
-/

namespace Codegen

/-! ## The order of allocation -/

namespace LiveInterval

theorem keyed_self (a : LiveInterval) : keyed a.start a.vreg a = true := by simp [keyed]

theorem mem_iff_of_keyed {l l' : List LiveInterval}
    (hkeyed : ∀ start vreg, l.filter (keyed start vreg) = l'.filter (keyed start vreg))
    (a : LiveInterval) : a ∈ l ↔ a ∈ l' := by
  have hiff : a ∈ l.filter (keyed a.start a.vreg) ↔ a ∈ l'.filter (keyed a.start a.vreg) := by
    rw [hkeyed]
  simpa [List.mem_filter, keyed_self] using hiff

/-- A stable order is determined by what it keeps: the first interval of either order is not after
that of the other, and of those that no comparison tells apart the first is the same. -/
theorem eq_of_stable {l l' : List LiveInterval}
    (h : l.Pairwise fun a b => a.start < b.start ∨ (a.start = b.start ∧ a.vreg ≤ b.vreg))
    (h' : l'.Pairwise fun a b => a.start < b.start ∨ (a.start = b.start ∧ a.vreg ≤ b.vreg))
    (hkeyed : ∀ start vreg, l.filter (keyed start vreg) = l'.filter (keyed start vreg)) :
    l = l' := by
  have hmem := mem_iff_of_keyed hkeyed
  induction l generalizing l' with
  | nil =>
      rw [eq_comm, List.eq_nil_iff_forall_not_mem]
      intro a ha
      exact absurd ((hmem a).2 ha) List.not_mem_nil
  | cons a rest ih =>
      cases l' with
      | nil => exact absurd ((hmem a).1 List.mem_cons_self) List.not_mem_nil
      | cons b rest' =>
          rcases List.pairwise_cons.1 h with ⟨ha, hrest⟩
          rcases List.pairwise_cons.1 h' with ⟨hb, hrest'⟩
          -- each of the two comes up in the other list, so neither is before the other
          have hkey : a.start = b.start ∧ a.vreg = b.vreg := by
            rcases List.mem_cons.1 ((hmem b).2 List.mem_cons_self) with rfl | hba
            · exact ⟨rfl, rfl⟩
            · rcases List.mem_cons.1 ((hmem a).1 List.mem_cons_self) with rfl | hab
              · exact ⟨rfl, rfl⟩
              · have hle := ha b hba
                have hge := hb a hab
                omega
          have hab : a = b := by
            have hfirst := hkeyed a.start a.vreg
            have hb : keyed a.start a.vreg b = true := by simp [keyed, hkey]
            rw [List.filter_cons_of_pos (keyed_self a), List.filter_cons_of_pos hb] at hfirst
            exact (List.cons.inj hfirst).1
          subst hab
          have htail : ∀ start vreg,
              rest.filter (keyed start vreg) = rest'.filter (keyed start vreg) := by
            intro start vreg
            have hboth := hkeyed start vreg
            by_cases hk : keyed start vreg a = true
            · rw [List.filter_cons_of_pos hk, List.filter_cons_of_pos hk] at hboth
              exact (List.cons.inj hboth).2
            · rw [List.filter_cons_of_neg hk, List.filter_cons_of_neg hk] at hboth
              exact hboth
          exact congrArg (a :: ·) (ih hrest hrest' htail (mem_iff_of_keyed htail))

theorem StableOrder.eq_sorted {given order : List LiveInterval} (h : StableOrder given order) :
    order = sorted given := by
  have hsorted := stableOrder_sorted given
  refine eq_of_stable h.increasing hsorted.increasing ?_
  intro start vreg
  rw [h.stable, hsorted.stable]

/-- The intervals that come before place `j` of the order and have not ended before `position`. -/
def reaching (order : List LiveInterval) (j position : Nat) : List LiveInterval :=
  (order.take j).filter (position ≤ ·.stop)

/-- At place `j` of the order stands `i`, and when it starts at least `registers` intervals before
it have not ended. -/
structure Crowded (registers : Nat) (order : List LiveInterval) (j : Nat) (i : LiveInterval) :
    Prop where
  place : order[j]? = some i
  full : registers ≤ (reaching order j i.start).length

/-- No interval of the list ends after `c`, and none that comes behind `c` ends where it does. -/
def EndsLast (l : List LiveInterval) (c : LiveInterval) : Prop :=
  ∃ before after, l = before ++ c :: after ∧ (∀ a ∈ before, a.stop ≤ c.stop) ∧
    ∀ a ∈ after, a.stop < c.stop

/-- The order is crowded, and `e` reports it for the first interval that finds no register free. -/
def Exhausts (registers : Nat) (order : List LiveInterval) (e : Error) : Prop :=
  ∃ j i c, Crowded registers order j i ∧ (∀ j' < j, ∀ i', ¬ Crowded registers order j' i') ∧
    EndsLast (reaching order j i.start) c ∧ e = .poolExhausted i.vreg i.start registers c.vreg

end LiveInterval

/-! ## The active placements -/

namespace Scan

/-- The placements in the order in which a scan that expires nothing keeps them: by their ends, and
for equal ends as they were made. -/
def lined (done : List Placement) : List Placement := done.foldl (fun l p => activate p l) []

theorem lined_append (done : List Placement) (p : Placement) :
    lined (done ++ [p]) = activate p (lined done) := by
  simp [lined]

theorem lined_perm (done : List Placement) : (lined done).Perm done := by
  induction done using List.reverseRecOn with
  | nil => exact .refl _
  | append_singleton done p ih =>
      rw [lined_append]
      exact ((activate_perm p _).trans (ih.cons p)).trans (List.perm_append_singleton p done).symm

theorem lined_pairwise_stop (done : List Placement) :
    (lined done).Pairwise (·.interval.stop ≤ ·.interval.stop) := by
  induction done using List.reverseRecOn with
  | nil => exact .nil
  | append_singleton done p ih =>
      rw [lined_append]
      exact activate_pairwise_stop p ih

/-- What has ended can be dropped before a placement is added or afterwards. -/
theorem filter_activate (p : Placement) (l : List Placement) (start : Nat) :
    (activate p l).filter (start ≤ ·.interval.stop) =
      if start ≤ p.interval.stop then activate p (l.filter (start ≤ ·.interval.stop))
      else l.filter (start ≤ ·.interval.stop) := by
  induction l with
  | nil => by_cases hp : start ≤ p.interval.stop <;> simp [activate, hp]
  | cons q rest ih =>
      by_cases hq : start ≤ q.interval.stop
      · by_cases hle : q.interval.stop ≤ p.interval.stop
        · have hp := hq.trans hle
          rw [if_pos hp] at ih ⊢
          simp [activate, hle, hq, ih]
        · by_cases hp : start ≤ p.interval.stop <;> simp [activate, hle, hq, hp]
      · by_cases hle : q.interval.stop ≤ p.interval.stop
        · simp [activate, hle, hq, ih]
        · -- `p` ends before `q`, so it has ended as well
          have hp : ¬ start ≤ p.interval.stop := by omega
          simp [activate, hle, hq, hp]

theorem filter_lined (done : List Placement) (start : Nat) :
    (lined done).filter (start ≤ ·.interval.stop) =
      lined (done.filter (start ≤ ·.interval.stop)) := by
  induction done using List.reverseRecOn with
  | nil => rfl
  | append_singleton done p ih =>
      rw [lined_append, filter_activate, ih, List.filter_append]
      by_cases hp : start ≤ p.interval.stop
      · rw [if_pos hp, List.filter_cons_of_pos (by simpa using hp), List.filter_nil, lined_append]
      · rw [if_neg hp, List.filter_cons_of_neg (by simpa using hp), List.filter_nil,
          List.append_nil]

theorem activate_of_le {p : Placement} {l : List Placement}
    (h : ∀ q ∈ l, q.interval.stop ≤ p.interval.stop) : activate p l = l ++ [p] := by
  induction l with
  | nil => rfl
  | cons q rest ih =>
      rw [activate, if_pos (h q List.mem_cons_self), List.cons_append,
        ih fun r hr => h r (List.mem_cons_of_mem q hr)]

theorem activate_append_of_lt {p q : Placement} (h : p.interval.stop < q.interval.stop)
    (l : List Placement) : activate p (l ++ [q]) = activate p l ++ [q] := by
  induction l with
  | nil => simp [activate, Nat.not_le.2 h]
  | cons r rest ih =>
      rw [List.cons_append, activate, activate, ih]
      split <;> rfl

/-- The placement that stands last is the latest of those that end last. -/
theorem endsLast_of_lined {done l : List Placement} {p : Placement}
    (h : lined done = l ++ [p]) : LiveInterval.EndsLast (spans done) p.interval := by
  induction done using List.reverseRecOn generalizing l p with
  | nil => simp [lined] at h
  | append_singleton done q ih =>
      rw [lined_append] at h
      rcases List.eq_nil_or_concat (lined done) with hnil | ⟨l', p', hlined⟩
      · -- the first placement
        have hdone : done = [] := List.Perm.eq_nil (hnil ▸ (lined_perm done).symm)
        subst hdone
        have hone : [] ++ [q] = l ++ [p] := by rwa [hnil] at h
        cases List.append_inj_right' hone rfl
        exact ⟨[], [], rfl, nofun, nofun⟩
      · rw [List.concat_eq_append] at hlined
        by_cases hlt : q.interval.stop < p'.interval.stop
        · -- the new one ends sooner than the last, which stays last
          rw [hlined, activate_append_of_lt hlt] at h
          cases List.append_inj_right' h rfl
          rcases ih hlined with ⟨before, after, hsplit, hbefore, hafter⟩
          refine ⟨before, after ++ [q.interval], ?_, hbefore, ?_⟩
          · simp [hsplit]
          · intro a ha
            rcases List.mem_append.1 ha with ha | ha
            · exact hafter a ha
            · rw [List.mem_singleton.1 ha]
              exact hlt
        · -- the new one ends no sooner than any other
          have hle : ∀ r ∈ lined done, r.interval.stop ≤ q.interval.stop := by
            intro r hr
            have hsorted := lined_pairwise_stop done
            rw [hlined, List.pairwise_append] at hsorted
            rw [hlined] at hr
            rcases List.mem_append.1 hr with hr | hr
            · exact (hsorted.2.2 r hr p' List.mem_cons_self).trans (Nat.le_of_not_lt hlt)
            · rw [List.mem_singleton.1 hr]
              exact Nat.le_of_not_lt hlt
          rw [activate_of_le hle] at h
          cases List.append_inj_right' h rfl
          refine ⟨spans done, [], by simp, ?_, nofun⟩
          intro a ha
          rcases List.mem_map.1 ha with ⟨r, hr, rfl⟩
          exact hle r ((lined_perm done).mem_iff.2 hr)

/-- Of the active placements, those that have not ended by `reached` are all that were made and
have not ended, in line. -/
structure Lined (done : List Placement) (reached : Nat) (s : Scan) : Prop where
  byStop : s.active.Pairwise (·.interval.stop ≤ ·.interval.stop)
  active : ∀ start, reached ≤ start →
    s.active.filter (start ≤ ·.interval.stop) = lined (done.filter (start ≤ ·.interval.stop))

theorem lined_start (pool : Pool) : Lined [] 0 { pool } where
  byStop := .nil
  active _ _ := rfl

namespace Lined

variable {reached start : Nat} {done : List Placement} {s : Scan} {i : LiveInterval}

/-- Once the intervals that have ended are expired, exactly the others are active. -/
theorem active_expired (h : Lined done reached s) (hle : reached ≤ start) :
    (s.expired start).active = lined (done.filter (start ≤ ·.interval.stop)) := by
  rw [← h.active start hle]
  exact dropWhile_stop_eq_filter h.byStop

theorem extended (h : Lined done reached s) (hle : reached ≤ i.start) (reg : Nat) (pool : Pool) :
    Lined (done ++ [⟨i, reg⟩]) i.start ((s.expired i.start).extended i reg pool) where
  byStop := activate_pairwise_stop _ (h.byStop.sublist (List.dropWhile_sublist _))
  active start hstart := by
    -- what has not ended at `start` had not ended at the start of `i` either
    have hkept : (done.filter (i.start ≤ ·.interval.stop)).filter (start ≤ ·.interval.stop) =
        done.filter (start ≤ ·.interval.stop) := by
      rw [List.filter_filter]
      refine List.filter_congr ?_
      intro p _
      by_cases hp : start ≤ p.interval.stop
      · simp [hp, hstart.trans hp]
      · simp [hp]
    have hactive : ((s.expired i.start).extended i reg pool).active =
        activate ⟨i, reg⟩ (lined (done.filter (i.start ≤ ·.interval.stop))) := by
      rw [← h.active_expired hle]
      rfl
    rw [hactive, ← lined_append, filter_lined, List.filter_append, hkept, List.filter_append]

end Lined

/-! ## Steps and whole scans -/

/-- A step fails when no register is free. -/
theorem run_place_of_exhausted {s : Scan} {i : LiveInterval}
    (htake : (s.expired i.start).pool.take? = none) (tr : Trace) :
    ∃ tr', (s.place i).run tr = .error (.poolExhausted i.vreg i.start
      (s.expired i.start).active.length
      (((s.expired i.start).active.getLast?.map (·.interval.vreg)).getD i.vreg)) tr' := by
  rcases run_expire s i.start tr with ⟨tr₁, hexpire⟩
  unfold place
  rw [run_bind_of_ok hexpire]
  simp only [htake]
  exact ⟨_, rfl⟩

namespace Valid

variable {registers reached : Nat} {done : List Placement} {s : Scan}

/-- Active placements hold different registers, so there are no more of them than registers. -/
theorem length_active_le (h : Valid registers done reached s) : s.active.length ≤ registers := by
  have hnodup : (s.active.map Placement.reg).Nodup := List.pairwise_map.2 h.distinct
  have hsub : (s.active.map Placement.reg).toFinset ⊆ Finset.range registers := by
    intro r hr
    rcases List.mem_map.1 (List.mem_toFinset.1 hr) with ⟨p, hp, rfl⟩
    exact Finset.mem_range.2 (h.bounded p (h.active_done p hp))
  calc s.active.length = (s.active.map Placement.reg).toFinset.card := by
        rw [List.toFinset_card_of_nodup hnodup, List.length_map]
    _ ≤ (Finset.range registers).card := Finset.card_le_card hsub
    _ = registers := Finset.card_range registers

/-- A register is free if and only if there are fewer active placements than registers. -/
theorem take?_eq_none_iff (h : Valid registers done reached s) :
    s.pool.take? = none ↔ s.active.length = registers := by
  constructor
  · intro htake
    refine Nat.le_antisymm h.length_active_le (Nat.le_of_not_lt ?_)
    intro hroom
    rcases h.exists_taken hroom with ⟨reg, pool, hsome⟩
    rw [htake] at hsome
    cases hsome
  · intro hfull
    cases htake : s.pool.take? with
    | none => rfl
    | some taken =>
        -- one more placement would be one too many
        let i : LiveInterval := ⟨0, reached, reached⟩
        have hvalid := h.extended (i := i) (Nat.le_refl reached) htake
        have hlength : (s.extended i taken.1 taken.2).active.length = s.active.length + 1 :=
          (activate_perm _ _).length_eq
        have hle := hvalid.length_active_le
        omega

end Valid

theorem getElem?_spans_append (done : List Placement) (i : LiveInterval)
    (rest : List LiveInterval) : (spans done ++ i :: rest)[done.length]? = some i := by
  rw [List.getElem?_append_right (by simp)]
  simp

theorem reaching_spans_append (done : List Placement) (order : List LiveInterval)
    (position : Nat) : LiveInterval.reaching (spans done ++ order) done.length position =
      spans (done.filter (position ≤ ·.interval.stop)) := by
  have hlength : (spans done).length = done.length := List.length_map _
  rw [LiveInterval.reaching, ← hlength, List.take_left, spans, List.filter_map]
  rfl

/-- Placements from a scan in line: they go on to the end if the order is not crowded anywhere, and
else to the first place where it is. -/
theorem foldlM_place_ends {registers reached : Nat} {done : List Placement} {s : Scan}
    {order : List LiveInterval} (hone : 1 ≤ registers) (hvalid : Valid registers done reached s)
    (hlined : Lined done reached s) (hsorted : order.Pairwise (·.start ≤ ·.start))
    (hreached : ∀ i ∈ order, reached ≤ i.start)
    (hroom : ∀ j < done.length, ∀ i, ¬ LiveInterval.Crowded registers (spans done ++ order) j i)
    (tr : Trace) :
    (∃ s' tr', (order.foldlM place s).run tr = .ok s' tr' ∧
      ∀ j i, ¬ LiveInterval.Crowded registers (spans done ++ order) j i) ∨
    ∃ e tr', (order.foldlM place s).run tr = .error e tr' ∧
      LiveInterval.Exhausts registers (spans done ++ order) e := by
  induction order generalizing done reached s tr with
  | nil =>
      refine .inl ⟨s, tr, rfl, ?_⟩
      intro j i hcrowded
      have hlt : j < (spans done ++ []).length := (List.getElem?_eq_some_iff.1 hcrowded.place).1
      rw [List.append_nil, spans, List.length_map] at hlt
      exact hroom j hlt i hcrowded
  | cons i rest ih =>
      rcases List.pairwise_cons.1 hsorted with ⟨hfirst, hrest⟩
      have hle := hreached i List.mem_cons_self
      have hexpired := hvalid.expired hle
      have hactive := hlined.active_expired hle
      -- as many are active as reach to the start of `i`
      have hreaching :
          (LiveInterval.reaching (spans done ++ i :: rest) done.length i.start).length =
            (s.expired i.start).active.length := by
        rw [reaching_spans_append, spans, List.length_map, hactive, (lined_perm _).length_eq]
      rw [List.foldlM_cons]
      cases htake : (s.expired i.start).pool.take? with
      | none =>
          have hfull := hexpired.take?_eq_none_iff.1 htake
          rcases run_place_of_exhausted htake tr with ⟨tr', hplace⟩
          rcases List.eq_nil_or_concat (s.expired i.start).active with hnil | ⟨l, p, hlast⟩
          · -- there is at least one register, so at least one is active and can be named
            rw [hnil, List.length_nil] at hfull
            omega
          · rw [List.concat_eq_append] at hlast
            refine .inr ⟨_, tr', ?_, done.length, i, p.interval, ⟨?_, ?_⟩, hroom, ?_, rfl⟩
            · rw [EStateM.run_bind, hplace, hfull, hlast]
              simp
            · exact getElem?_spans_append done i rest
            · rw [hreaching, hfull]
            · rw [reaching_spans_append]
              exact endsLast_of_lined (hactive ▸ hlast)
      | some taken =>
          rcases run_place_of_take? htake tr with ⟨tr₁, hplace⟩
          have hfree : (s.expired i.start).active.length ≠ registers := by
            intro hfull
            rw [hexpired.take?_eq_none_iff.2 hfull] at htake
            cases htake
          rw [run_bind_of_ok hplace]
          have hsplit : spans done ++ i :: rest = spans (done ++ [⟨i, taken.1⟩]) ++ rest := by
            simp
          have hnext := ih (hexpired.extended (Nat.le_refl i.start) htake)
            (hlined.extended hle taken.1 taken.2) hrest hfirst (hsplit ▸ ?_) tr₁
          · rw [hsplit]
            exact hnext
          · intro j hj i' hcrowded
            rw [List.length_append, List.length_singleton] at hj
            rcases Nat.lt_succ_iff_lt_or_eq.1 hj with hlt | rfl
            · exact hroom j hlt i' hcrowded
            · have hi := hcrowded.place
              rw [getElem?_spans_append] at hi
              cases hi
              have hmany := hcrowded.full
              have hmost := hexpired.length_active_le
              omega

end Scan

/-! ## Assignments -/

/-- With valid settings an assignment ends as its scan does. -/
theorem run_assign {settings : Settings} (hcheck : settings.check = .ok ())
    (intervals : List LiveInterval) (tr : Trace) :
    (assign settings intervals).run tr =
      (Scan.run settings.registers intervals >>= fun scan => pure scan.placed).run tr := by
  unfold assign
  rw [hcheck]
  rfl

/-- An assignment of one to 64 registers fails if and only if the order of allocation is crowded:
some interval has at least as many earlier ones that have not ended where it starts as there are
registers.  The error then names the first such interval and where it starts, with all registers in
use, and of the earlier intervals that have not ended there the one that ends last, which of those
with equal ends is the latest. -/
theorem assign_exhausts (settings : Settings) (hone : 1 ≤ settings.registers)
    (hlimit : settings.registers ≤ 64) (hrules : 1 ≤ settings.ruleLimit)
    {intervals order : List LiveInterval} (horder : LiveInterval.StableOrder intervals order)
    (tr : Trace) :
    ((∃ e tr', (assign settings intervals).run tr = .error e tr') ↔
      ∃ j i, LiveInterval.Crowded settings.registers order j i) ∧
    ∀ e tr', (assign settings intervals).run tr = .error e tr' →
      LiveInterval.Exhausts settings.registers order e := by
  have hcheck := (settings.check_eq_ok_iff).2 ⟨hone, hlimit, hrules⟩
  rcases Pool.exists_full hone hlimit with ⟨pool, hpool⟩
  have hends := Scan.foldlM_place_ends hone (Scan.valid_start hpool) (Scan.lined_start pool)
    (LiveInterval.sorted_pairwise_start intervals) (fun i _ => Nat.zero_le _)
    (fun j hj => absurd hj (Nat.not_lt_zero j)) tr
  rw [← Scan.run_run hpool, Scan.spans, List.map_nil, List.nil_append, ← horder.eq_sorted] at hends
  rw [run_assign hcheck]
  rcases hends with ⟨scan, tr', hrun, hroom⟩ | ⟨e, tr', hrun, hexhausts⟩
  · rw [run_bind_of_ok hrun]
    refine ⟨⟨?_, ?_⟩, ?_⟩
    · rintro ⟨e, tr', heq⟩
      cases heq
    · rintro ⟨j, i, hcrowded⟩
      exact absurd hcrowded (hroom j i)
    · intro e tr' heq
      cases heq
  · rw [EStateM.run_bind, hrun]
    refine ⟨⟨fun _ => ?_, fun _ => ⟨e, tr', rfl⟩⟩, ?_⟩
    · rcases hexhausts with ⟨j, i, c, hcrowded, -⟩
      exact ⟨j, i, hcrowded⟩
    · intro e' tr'' heq
      cases heq
      exact hexhausts

/-- Intervals out of order, one of them inverted, of which four need a register at 4. -/
def crowded : List LiveInterval := [⟨6, 4, 4⟩, ⟨5, 4, 6⟩, ⟨2, 1, 8⟩, ⟨1, 0, 8⟩, ⟨9, 3, 2⟩]

/-- The inverted interval has given its register back by then, and of the two that end at 8 the
later one is named. -/
theorem assign_exhausts_crowded :
    LiveInterval.StableOrder crowded [⟨1, 0, 8⟩, ⟨2, 1, 8⟩, ⟨9, 3, 2⟩, ⟨5, 4, 6⟩, ⟨6, 4, 4⟩] ∧
      LiveInterval.Crowded 3 [⟨1, 0, 8⟩, ⟨2, 1, 8⟩, ⟨9, 3, 2⟩, ⟨5, 4, 6⟩, ⟨6, 4, 4⟩] 4 ⟨6, 4, 4⟩ ∧
      ∃ tr', (assign { registers := 3 } crowded).run #[] = .error (.poolExhausted 6 4 3 2) tr' := by
  have horder := LiveInterval.stableOrder_sorted crowded
  have hcrowded : LiveInterval.Crowded 3 (LiveInterval.sorted crowded) 4 ⟨6, 4, 4⟩ :=
    ⟨by decide, by decide⟩
  have herror : (match (assign { registers := 3 } crowded).run #[] with
      | .ok _ _ => none
      | .error e _ => some e) = some (.poolExhausted 6 4 3 2) := by decide
  refine ⟨horder, hcrowded, ?_⟩
  rcases (assign_exhausts { registers := 3 } (by decide) (by decide) (by decide) horder #[]).1.2
    ⟨4, _, hcrowded⟩ with ⟨e, tr', h⟩
  rw [h] at herror
  cases herror
  exact ⟨tr', h⟩

end Codegen
