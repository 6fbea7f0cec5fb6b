import Codegen.Proofs.Binding
import Mathlib.Data.Finset.Card
import Mathlib.Data.Finset.Lattice.Fold
import Mathlib.Data.Finset.Range
import Mathlib.Order.Lattice.Nat

/-!
# Pressure — an allocation succeeds exactly when it can

The pressure of a stream is the most virtual registers that are needed at one position, and no
allocation can do with fewer physical ones.  The scan never asks for more: what is active when an
interval is placed is needed where that interval starts, and the register taken is the lowest that
no active placement holds.  So the number of registers only decides whether the scan succeeds, not
what it assigns.

* `Stream.pressure`     : the most registers needed at one position
* `Scan.Tight`          : the active placements are exactly those that are still needed
* `Scan.run_tight`      : a scan with enough registers succeeds, and is tight
* `Scan.run_agrees`     : two scans that succeed assign the same registers
* `allocate_exact`      : success, peak and assignments in terms of the pressure
-/

namespace Codegen

/-! ## Pressure -/

namespace Stream

/-- The registers mentioned at or before a position and again at or after it. -/
def needed (s : Stream) (position : Nat) : Finset Nat :=
  (((mentions s).filter (·.2 ≤ position)).map (·.1)).toFinset ∩
    (((mentions s).filter (position ≤ ·.2)).map (·.1)).toFinset

/-- The most registers that are needed at one position. -/
def pressure (s : Stream) : Nat :=
  (Finset.range s.size).sup fun position => (needed s position).card

theorem mem_needed_iff {s : Stream} {v p : Nat} : v ∈ needed s p ↔ SpannedAt s v p := by
  simp only [needed, SpannedAt, Finset.mem_inter, List.mem_toFinset, List.mem_map, List.mem_filter,
    decide_eq_true_eq, Prod.exists, exists_and_right, exists_eq_right, mem_mentions_iff]
  refine and_congr (exists_congr fun q => and_comm) (exists_congr fun q => and_comm)

theorem MentionsAt.lt_size {s : Stream} {v p : Nat} (h : MentionsAt s v p) : p < s.size := by
  rcases h with ⟨i, hi, -⟩
  exact (Array.getElem?_eq_some_iff.1 hi).1

theorem card_needed_le_pressure (s : Stream) (p : Nat) : (needed s p).card ≤ pressure s := by
  by_cases hp : p < s.size
  · exact Finset.le_sup (f := fun position => (needed s position).card) (Finset.mem_range.2 hp)
  · -- nothing is mentioned at or after a position behind the stream
    have hnone : needed s p = ∅ := by
      refine Finset.eq_empty_of_forall_notMem ?_
      intro v hv
      rcases (mem_needed_iff.1 hv).2 with ⟨q, hq, hmention⟩
      exact hp (Nat.lt_of_le_of_lt hq hmention.lt_size)
    rw [hnone]
    exact Nat.zero_le _

end Stream

/-! ## Intervals at a position -/

namespace LiveInterval

/-- How many intervals contain a position. -/
def crossing (l : List LiveInterval) (position : Nat) : Nat := l.countP (·.contains position)

theorem crossing_append (l l' : List LiveInterval) (p : Nat) :
    crossing (l ++ l') p = crossing l p + crossing l' p :=
  List.countP_append

/-- Of intervals that all start at `start` or before, no later position is in more of them. -/
theorem crossing_le_of_started {l : List LiveInterval} {start p : Nat} (hle : start ≤ p)
    (h : ∀ a ∈ l, a.start ≤ start) : crossing l p ≤ crossing l start := by
  refine List.countP_mono_left ?_
  intro a ha hp
  rw [contains_iff] at hp ⊢
  exact ⟨h a ha, hle.trans hp.2⟩

end LiveInterval

theorem liveIntervals_start_le_stop {s : Stream} {a : LiveInterval} (h : a ∈ liveIntervals s) :
    a.start ≤ a.stop := by
  rcases liveIntervals_exact h with ⟨hfirst, hlast⟩
  exact hfirst.2 hlast.1

/-- A register is needed at a position if its interval contains the position. -/
theorem needed_eq_toFinset (s : Stream) (p : Nat) :
    Stream.needed s p =
      (((liveIntervals s).filter (·.contains p)).map LiveInterval.vreg).toFinset := by
  ext v
  rw [Stream.mem_needed_iff, List.mem_toFinset, List.mem_map]
  constructor
  · intro h
    rcases h.1 with ⟨q, -, hmention⟩
    rcases exists_mem_liveIntervals hmention with ⟨a, ha, rfl⟩
    exact ⟨a, List.mem_filter.2 ⟨ha, LiveInterval.contains_iff.2 (h.contains ha)⟩, rfl⟩
  · rintro ⟨a, ha, rfl⟩
    rcases List.mem_filter.1 ha with ⟨ha, hp⟩
    rcases liveIntervals_exact ha with ⟨hfirst, hlast⟩
    rw [LiveInterval.contains_iff] at hp
    exact ⟨⟨a.start, hp.1, hfirst.1⟩, ⟨a.stop, hp.2, hlast.1⟩⟩

theorem card_needed (s : Stream) (p : Nat) :
    (Stream.needed s p).card = LiveInterval.crossing (liveIntervals s) p := by
  have hnodup : (((liveIntervals s).filter (·.contains p)).map LiveInterval.vreg).Nodup :=
    (nodup_vreg_liveIntervals s).sublist (List.filter_sublist.map _)
  rw [needed_eq_toFinset, List.toFinset_card_of_nodup hnodup, List.length_map,
    LiveInterval.crossing, List.countP_eq_length_filter]

/-! ## The lowest free register -/

namespace Scan

/-- If every register below `n` is held by some placement, there are at least `n` placements. -/
theorem le_length_of_held {active : List Placement} {n : Nat}
    (h : ∀ r < n, ∃ p ∈ active, p.reg = r) : n ≤ active.length := by
  have hsub : Finset.range n ⊆ (active.map Placement.reg).toFinset := by
    intro r hr
    rcases h r (Finset.mem_range.1 hr) with ⟨p, hp, rfl⟩
    exact List.mem_toFinset.2 (List.mem_map_of_mem hp)
  calc n = (Finset.range n).card := (Finset.card_range n).symm
    _ ≤ (active.map Placement.reg).toFinset.card := Finset.card_le_card hsub
    _ ≤ (active.map Placement.reg).length := List.toFinset_card_le _
    _ = active.length := List.length_map _

namespace Valid

variable {registers reached : Nat} {done : List Placement} {s : Scan}

/-- Every register that is not free is held by an active placement. -/
theorem held_of_not_free (h : Valid registers done reached s) {r : Nat} (hr : r < registers)
    (hfree : ¬ s.pool.free.getLsbD r = true) : ∃ p ∈ s.active, p.reg = r := by
  by_contra hnone
  refine hfree ((h.free_iff r).2 ⟨hr, ?_⟩)
  intro p hp heq
  exact hnone ⟨p, hp, heq⟩

/-- The register taken is the lowest that no active placement holds. -/
theorem taken_lowest (h : Valid registers done reached s) {reg : Nat} {pool : Pool}
    (htake : s.pool.take? = some (reg, pool)) :
    (∀ p ∈ s.active, p.reg ≠ reg) ∧ ∀ r < reg, ∃ p ∈ s.active, p.reg = r := by
  rcases (h.free_iff reg).1 (Pool.free_take? htake).1 with ⟨hreg, hunused⟩
  refine ⟨hunused, ?_⟩
  intro r hr
  exact h.held_of_not_free (hr.trans hreg) (Pool.lowest_take? htake r hr)

/-- No register is free only if there are as many active placements as registers. -/
theorem exists_taken (h : Valid registers done reached s) (hroom : s.active.length < registers) :
    ∃ reg pool, s.pool.take? = some (reg, pool) := by
  cases htake : s.pool.take? with
  | some taken => exact ⟨taken.1, taken.2, rfl⟩
  | none =>
      have hheld : ∀ r < registers, ∃ p ∈ s.active, p.reg = r := by
        intro r hr
        exact h.held_of_not_free hr (by simp [Pool.take?_eq_none_iff.1 htake])
      exact absurd (le_length_of_held hheld) (Nat.not_le_of_lt hroom)

end Valid

/-- A step succeeds when a register is free. -/
theorem run_place_of_take? {s : Scan} {i : LiveInterval} {reg : Nat} {pool : Pool}
    (htake : (s.expired i.start).pool.take? = some (reg, pool)) (tr : Trace) :
    ∃ tr', (s.place i).run tr = .ok ((s.expired i.start).extended i reg pool) tr' := by
  rcases run_expire s i.start tr with ⟨tr₁, hexpire⟩
  refine ⟨tr₁.push (.placed i.vreg i.start i.stop reg), ?_⟩
  unfold place
  rw [run_bind_of_ok hexpire]
  simp only [htake]
  rfl

/-! ## Tight scans -/

/-- The placements before place `k` have a property, and those from there on do not. -/
structure SplitsAt (p : Placement → Bool) (active : List Placement) (k : Nat) : Prop where
  le : k ≤ active.length
  before : ∀ q ∈ active.take k, p q = true
  after : ∀ q ∈ active.drop k, p q = false

namespace SplitsAt

variable {p : Placement → Bool} {active : List Placement} {k : Nat}

theorem takeWhile_eq (h : SplitsAt p active k) : active.takeWhile p = active.take k := by
  have hnone : (active.drop k).takeWhile p = [] := by
    cases hdrop : active.drop k with
    | nil => rfl
    | cons q rest =>
        have hq := h.after q (hdrop ▸ List.mem_cons_self)
        rw [List.takeWhile_cons, hq]
        rfl
  calc active.takeWhile p
      = (active.take k ++ active.drop k).takeWhile p := by rw [List.take_append_drop]
    _ = active.take k ++ (active.drop k).takeWhile p := List.takeWhile_append_of_pos h.before
    _ = active.take k := by rw [hnone, List.append_nil]

theorem dropWhile_eq (h : SplitsAt p active k) : active.dropWhile p = active.drop k := by
  have hsplit : active.take k ++ active.dropWhile p = active.take k ++ active.drop k := by
    rw [← h.takeWhile_eq, List.takeWhile_append_dropWhile, h.takeWhile_eq, List.take_append_drop]
  exact List.append_cancel_left hsplit

/-- A new placement goes to the place where the others split into those that end no later and those
that do. -/
theorem activate_eq {q : Placement} (h : SplitsAt (·.interval.stop ≤ q.interval.stop) active k) :
    activate q active = active.take k ++ q :: active.drop k := by
  rw [← h.takeWhile_eq, ← h.dropWhile_eq]
  clear h
  induction active with
  | nil => rfl
  | cons r rest ih =>
      rw [activate]
      by_cases hstop : r.interval.stop ≤ q.interval.stop
      · rw [if_pos hstop, ih, List.takeWhile_cons_of_pos (by simpa using hstop),
          List.dropWhile_cons_of_pos (by simpa using hstop), List.cons_append]
      · rw [if_neg hstop, List.takeWhile_cons_of_neg (by simpa using hstop),
          List.dropWhile_cons_of_neg (by simpa using hstop), List.nil_append]

end SplitsAt

/-- In the order of their ends the placements split at one place, for a property that goes over to
earlier ends, and whatever way that place is searched for it is the one that a scan from the left
comes to. -/
theorem splitsAt_iff {p : Placement → Bool} {active : List Placement} {k : Nat}
    (h : active.Pairwise (·.interval.stop ≤ ·.interval.stop))
    (hp : ∀ q q', q.interval.stop ≤ q'.interval.stop → p q' = true → p q = true) :
    SplitsAt p active k ↔ k = (active.takeWhile p).length := by
  constructor
  · intro hk
    rw [hk.takeWhile_eq, List.length_take, Nat.min_eq_left hk.le]
  · rintro rfl
    have htake := List.prefix_iff_eq_take.1 (List.takeWhile_prefix p (l := active))
    have hdrop : active.drop (active.takeWhile p).length = active.dropWhile p := by
      apply List.append_cancel_left
      rw [List.take_append_drop, ← htake, List.takeWhile_append_dropWhile]
    have hsorted := h.sublist (List.dropWhile_sublist p)
    refine ⟨(List.takeWhile_prefix p).length_le, fun q hq => ?_, fun q hq => ?_⟩
    · rw [← htake] at hq
      exact List.mem_takeWhile_imp hq
    · rw [hdrop] at hq
      have hhead := List.head?_dropWhile_not p active
      cases hrest : active.dropWhile p with
      | nil =>
          rw [hrest] at hq
          cases hq
      | cons r rest =>
          -- the first that is left lacks the property, and the others end no earlier
          rw [hrest] at hq hsorted hhead
          rcases List.mem_cons.1 hq with rfl | hq
          · exact hhead
          · by_contra hpq
            have hpr := hp r q ((List.pairwise_cons.1 hsorted).1 q hq) (Bool.not_eq_false _ ▸ hpq)
            rw [show p r = false from hhead] at hpr
            cases hpr

theorem dropWhile_stop_eq_filter {active : List Placement} {start : Nat}
    (h : active.Pairwise (·.interval.stop ≤ ·.interval.stop)) :
    active.dropWhile (·.interval.stop < start) = active.filter (start ≤ ·.interval.stop) := by
  obtain ⟨k, hk⟩ : ∃ k, SplitsAt (·.interval.stop < start) active k := by
    refine ⟨_, (splitsAt_iff h fun q q' hle hq' => ?_).2 rfl⟩
    exact decide_eq_true (Nat.lt_of_le_of_lt hle (of_decide_eq_true hq'))
  have hended : (active.take k).filter (start ≤ ·.interval.stop) = [] :=
    List.filter_eq_nil_iff.2 fun q hq => by simpa using hk.before q hq
  have hleft : (active.drop k).filter (start ≤ ·.interval.stop) = active.drop k :=
    List.filter_eq_self.2 fun q hq => by simpa using hk.after q hq
  calc active.dropWhile (·.interval.stop < start)
      = active.drop k := hk.dropWhile_eq
    _ = (active.take k ++ active.drop k).filter (start ≤ ·.interval.stop) := by
        rw [List.filter_append, hended, hleft, List.nil_append]
    _ = active.filter (start ≤ ·.interval.stop) := by rw [List.take_append_drop]

theorem activate_pairwise_stop (p : Placement) {l : List Placement}
    (h : l.Pairwise (·.interval.stop ≤ ·.interval.stop)) :
    (activate p l).Pairwise (·.interval.stop ≤ ·.interval.stop) := by
  obtain ⟨k, hk⟩ : ∃ k, SplitsAt (·.interval.stop ≤ p.interval.stop) l k := by
    refine ⟨_, (splitsAt_iff h fun q q' hle hq' => ?_).2 rfl⟩
    exact decide_eq_true (hle.trans (of_decide_eq_true hq'))
  rw [hk.activate_eq]
  rw [← List.take_append_drop k l, List.pairwise_append] at h
  refine List.pairwise_append.2 ⟨h.1, List.pairwise_cons.2 ⟨fun q hq => ?_, h.2.1⟩, ?_⟩
  · exact Nat.le_of_not_le (of_decide_eq_false (hk.after q hq))
  · intro q hq q' hq'
    rcases List.mem_cons.1 hq' with rfl | hq'
    · exact of_decide_eq_true (hk.before q hq)
    · exact h.2.2 q hq q' hq'

/-- The intervals of placements. -/
abbrev spans (done : List Placement) : List LiveInterval := done.map Placement.interval

/-- The scan has made the placements `done`, all of intervals that start at `reached` or before.
Its active placements are those that are needed at `reached` or later, and its peak is the most
intervals that have a position in common. -/
structure Tight (done : List Placement) (reached : Nat) (s : Scan) : Prop where
  byStop : s.active.Pairwise (·.interval.stop ≤ ·.interval.stop)
  active : s.active.Perm (done.filter (reached ≤ ·.interval.stop))
  started : ∀ p ∈ done, p.interval.start ≤ reached
  covered : ∀ position, LiveInterval.crossing (spans done) position ≤ s.peak
  attained : ∃ position, s.peak ≤ LiveInterval.crossing (spans done) position
  below : ∀ p ∈ done, p.reg < s.peak

theorem tight_start (pool : Pool) : Tight [] 0 { pool } where
  byStop := .nil
  active := .refl _
  started := by simp
  covered _ := Nat.le_refl 0
  attained := ⟨0, Nat.le_refl 0⟩
  below := by simp

namespace Tight

variable {reached start : Nat} {done : List Placement} {s : Scan}

/-- As many placements are active as intervals contain the position the scan has reached. -/
theorem length_active (h : Tight done reached s) :
    s.active.length = LiveInterval.crossing (spans done) reached := by
  rw [h.active.length_eq, LiveInterval.crossing, List.countP_map, List.countP_eq_length_filter]
  congr 1
  refine List.filter_congr ?_
  intro p hp
  simp [LiveInterval.contains, h.started p hp]

theorem expired (h : Tight done reached s) (hle : reached ≤ start) :
    Tight done start (s.expired start) where
  byStop := h.byStop.sublist (List.dropWhile_sublist _)
  active := by
    have hdrop : (s.expired start).active = s.active.filter (start ≤ ·.interval.stop) :=
      dropWhile_stop_eq_filter h.byStop
    have hfilter : (done.filter (reached ≤ ·.interval.stop)).filter (start ≤ ·.interval.stop) =
        done.filter (start ≤ ·.interval.stop) := by
      rw [List.filter_filter]
      refine List.filter_congr ?_
      intro p _
      by_cases hstop : start ≤ p.interval.stop
      · simp [hstop, hle.trans hstop]
      · simp [hstop]
    rw [hdrop, ← hfilter]
    exact h.active.filter _
  started p hp := (h.started p hp).trans hle
  covered := h.covered
  attained := h.attained
  below := h.below

variable {registers reg : Nat} {pool : Pool} {i : LiveInterval}

theorem started_append (h : Tight done i.start s) (reg : Nat) :
    ∀ p ∈ done ++ [⟨i, reg⟩], p.interval.start ≤ i.start := by
  intro p hp
  rcases List.mem_append.1 hp with hp | hp
  · exact h.started p hp
  · rw [List.mem_singleton.1 hp]

/-- One more interval contains the position where a new one starts. -/
theorem crossing_append_start (h : Tight done i.start s) (hspan : i.start ≤ i.stop) (reg : Nat) :
    LiveInterval.crossing (spans (done ++ [⟨i, reg⟩])) i.start = s.active.length + 1 := by
  have hself : i.contains i.start = true := LiveInterval.contains_iff.2 ⟨Nat.le_refl _, hspan⟩
  rw [spans, List.map_append, LiveInterval.crossing_append, ← h.length_active]
  simp [LiveInterval.crossing, hself]

theorem extended (h : Tight done i.start s) (hvalid : Valid registers done i.start s)
    (hspan : i.start ≤ i.stop) (htake : s.pool.take? = some (reg, pool)) :
    Tight (done ++ [⟨i, reg⟩]) i.start (s.extended i reg pool) := by
  have hperm : (s.extended i reg pool).active.Perm (⟨i, reg⟩ :: s.active) := activate_perm _ _
  have hlength : (s.extended i reg pool).active.length = s.active.length + 1 :=
    hperm.length_eq
  have hpeak : (s.extended i reg pool).peak = max s.peak (s.active.length + 1) := by
    rw [← hlength]
    rfl
  refine
    { byStop := activate_pairwise_stop _ h.byStop
      active := ?_
      started := h.started_append reg
      covered := ?_
      attained := ?_
      below := ?_ }
  · have hkept : ([⟨i, reg⟩] : List Placement).filter (i.start ≤ ·.interval.stop) = [⟨i, reg⟩] := by
      simp [hspan]
    rw [List.filter_append, hkept]
    exact (hperm.trans (h.active.cons _)).trans (List.perm_append_singleton _ _).symm
  · intro position
    rw [hpeak]
    by_cases hposition : i.start ≤ position
    · -- all that have started and are still needed here were needed at the start
      refine le_max_of_le_right ?_
      rw [← h.crossing_append_start hspan reg]
      refine LiveInterval.crossing_le_of_started hposition ?_
      intro a ha
      rcases List.mem_map.1 ha with ⟨p, hp, rfl⟩
      exact h.started_append reg p hp
    · -- the new interval starts later
      have hout : i.contains position = false := by
        simp [LiveInterval.contains, hposition]
      refine le_max_of_le_left ?_
      rw [spans, List.map_append, LiveInterval.crossing_append]
      simpa [LiveInterval.crossing, hout] using h.covered position
  · rw [hpeak]
    rcases le_total s.peak (s.active.length + 1) with hle | hle
    · refine ⟨i.start, ?_⟩
      rw [max_eq_right hle, h.crossing_append_start hspan reg]
    · rcases h.attained with ⟨position, hattained⟩
      refine ⟨position, ?_⟩
      rw [max_eq_left hle, spans, List.map_append, LiveInterval.crossing_append]
      exact hattained.trans (Nat.le_add_right _ _)
  · intro p hp
    rw [hpeak]
    rcases List.mem_append.1 hp with hp | hp
    · exact lt_max_of_lt_left (h.below p hp)
    · rw [List.mem_singleton.1 hp]
      -- all lower registers are held by different active placements
      have hle := le_length_of_held (hvalid.taken_lowest htake).2
      exact lt_max_of_lt_right (Nat.lt_succ_of_le hle)

end Tight

/-! ## Whole scans -/

/-- What a scan assigns and counts, apart from its pool. -/
structure Agrees (s s' : Scan) : Prop where
  active : s.active = s'.active
  placed : s.placed = s'.placed
  peak : s.peak = s'.peak

/-- Two scans that agree take the same register if both take one. -/
theorem Agrees.extended {registers registers' : Nat} {done done' : List Placement} {start : Nat}
    {s s' : Scan} {i : LiveInterval} {reg reg' : Nat} {pool pool' : Pool} (h : Agrees s s')
    (hvalid : Valid registers done start s) (hvalid' : Valid registers' done' start s')
    (htake : s.pool.take? = some (reg, pool)) (htake' : s'.pool.take? = some (reg', pool')) :
    Agrees (s.extended i reg pool) (s'.extended i reg' pool') := by
  rcases hvalid.taken_lowest htake with ⟨hunused, hheld⟩
  rcases hvalid'.taken_lowest htake' with ⟨hunused', hheld'⟩
  rw [← h.active] at hunused' hheld'
  have hreg : reg = reg' := by
    rcases Nat.lt_trichotomy reg reg' with hlt | heq | hgt
    · rcases hheld' reg hlt with ⟨p, hp, hr⟩
      exact absurd hr (hunused p hp)
    · exact heq
    · rcases hheld reg' hgt with ⟨p, hp, hr⟩
      exact absurd hr (hunused' p hp)
  refine ⟨?_, ?_, ?_⟩ <;> simp [Scan.extended, h.active, h.placed, h.peak, hreg]

theorem Agrees.expired {s s' : Scan} (h : Agrees s s') (start : Nat) :
    Agrees (s.expired start) (s'.expired start) := by
  refine ⟨?_, h.placed, h.peak⟩
  simp [Scan.expired, h.active]

/-- No position is in more intervals than there are registers: placements with a position in common
hold different ones. -/
theorem Valid.crossing_le {registers reached : Nat} {done : List Placement} {s : Scan}
    (h : Valid registers done reached s) (position : Nat) :
    LiveInterval.crossing (spans done) position ≤ registers := by
  have hapart : (done.filter (·.interval.contains position)).Pairwise (·.reg ≠ ·.reg) := by
    refine (h.apart.sublist List.filter_sublist).imp_of_mem ?_
    intro p q hp hq hend heq
    have hcontains := LiveInterval.contains_iff.1 (List.mem_filter.1 hp).2
    have hcontains' := LiveInterval.contains_iff.1 (List.mem_filter.1 hq).2
    exact absurd (hend heq) (Nat.not_lt.2 (hcontains'.1.trans hcontains.2))
  have hnodup : ((done.filter (·.interval.contains position)).map Placement.reg).Nodup :=
    List.pairwise_map.2 hapart
  have hsub : ((done.filter (·.interval.contains position)).map Placement.reg).toFinset ⊆
      Finset.range registers := by
    intro r hr
    rcases List.mem_map.1 (List.mem_toFinset.1 hr) with ⟨p, hp, rfl⟩
    exact Finset.mem_range.2 (h.bounded p (List.mem_filter.1 hp).1)
  calc LiveInterval.crossing (spans done) position
      = ((done.filter (·.interval.contains position)).map Placement.reg).toFinset.card := by
        rw [List.toFinset_card_of_nodup hnodup, List.length_map, LiveInterval.crossing,
          List.countP_map, List.countP_eq_length_filter]
        rfl
    _ ≤ (Finset.range registers).card := Finset.card_le_card hsub
    _ = registers := Finset.card_range registers

/-- Placements from a valid and tight scan: as long as no position is in more intervals than there
are registers, every step finds a free one. -/
theorem exists_foldlM_place {registers reached : Nat} {done : List Placement} {s : Scan}
    {order : List LiveInterval} (hvalid : Valid registers done reached s)
    (htight : Tight done reached s) (hsorted : order.Pairwise (·.start ≤ ·.start))
    (hreached : ∀ i ∈ order, reached ≤ i.start) (hspan : ∀ i ∈ order, i.start ≤ i.stop)
    (hroom : ∀ position, LiveInterval.crossing (spans done ++ order) position ≤ registers)
    (tr : Trace) : ∃ s' tr', (order.foldlM place s).run tr = .ok s' tr' := by
  induction order generalizing done reached s tr with
  | nil => exact ⟨s, tr, rfl⟩
  | cons i rest ih =>
      rcases List.pairwise_cons.1 hsorted with ⟨hfirst, hrest⟩
      have hexpired := hvalid.expired (hreached i List.mem_cons_self)
      have htight' := htight.expired (hreached i List.mem_cons_self)
      have hi := hspan i List.mem_cons_self
      have hfree : (s.expired i.start).active.length < registers := by
        have hlt := hroom i.start
        rw [List.append_cons, LiveInterval.crossing_append] at hlt
        have hstart := htight'.crossing_append_start hi 0
        rw [spans, List.map_append] at hstart
        rw [show [i] = List.map Placement.interval [⟨i, 0⟩] from rfl, hstart] at hlt
        omega
      rcases hexpired.exists_taken hfree with ⟨reg, pool, htake⟩
      rcases run_place_of_take? htake tr with ⟨tr₁, hplace⟩
      rw [List.foldlM_cons, run_bind_of_ok hplace]
      refine ih (hexpired.extended (Nat.le_refl i.start) htake) (htight'.extended hexpired hi htake)
        hrest hfirst (fun j hj => hspan j (List.mem_cons_of_mem i hj)) ?_ tr₁
      intro position
      simpa [spans] using hroom position

theorem foldlM_place_tight {registers reached : Nat} {done : List Placement} {s s' : Scan}
    {order : List LiveInterval} {tr tr' : Trace} (hvalid : Valid registers done reached s)
    (htight : Tight done reached s) (hsorted : order.Pairwise (·.start ≤ ·.start))
    (hreached : ∀ i ∈ order, reached ≤ i.start) (hspan : ∀ i ∈ order, i.start ≤ i.stop)
    (hrun : (order.foldlM place s).run tr = .ok s' tr') :
    ∃ more reached', spans more = order ∧ Valid registers (done ++ more) reached' s' ∧
      Tight (done ++ more) reached' s' := by
  induction order generalizing done reached s tr with
  | nil =>
      cases hrun
      exact ⟨[], reached, rfl, by simpa using hvalid, by simpa using htight⟩
  | cons i rest ih =>
      rw [List.foldlM_cons, run_bind_eq_ok] at hrun
      rcases hrun with ⟨s₁, tr₁, hplace, hrun⟩
      rcases place_eq_ok hplace with ⟨reg, pool, htake, rfl⟩
      rcases List.pairwise_cons.1 hsorted with ⟨hfirst, hrest⟩
      have hexpired := hvalid.expired (hreached i List.mem_cons_self)
      have htight' := htight.expired (hreached i List.mem_cons_self)
      rcases ih (hexpired.extended (Nat.le_refl i.start) htake)
        (htight'.extended hexpired (hspan i List.mem_cons_self) htake) hrest hfirst
        (fun j hj => hspan j (List.mem_cons_of_mem i hj)) hrun with
        ⟨more, reached', hmore, hfinal, hfinal'⟩
      refine ⟨⟨i, reg⟩ :: more, reached', by simp [spans, ← hmore], ?_, ?_⟩
      · simpa using hfinal
      · simpa using hfinal'

/-- Scans that agree at first agree in the end, whatever their numbers of registers. -/
theorem foldlM_place_agrees {registers registers' reached : Nat} {done done' : List Placement}
    {s s' t t' : Scan} {order : List LiveInterval} {tr tr' tr₂ tr₂' : Trace}
    (hagrees : Agrees s t) (hvalid : Valid registers done reached s)
    (hvalid' : Valid registers' done' reached t) (hsorted : order.Pairwise (·.start ≤ ·.start))
    (hreached : ∀ i ∈ order, reached ≤ i.start)
    (hrun : (order.foldlM place s).run tr = .ok s' tr')
    (hrun' : (order.foldlM place t).run tr₂ = .ok t' tr₂') : Agrees s' t' := by
  induction order generalizing done done' reached s t tr tr₂ with
  | nil =>
      cases hrun
      cases hrun'
      exact hagrees
  | cons i rest ih =>
      rw [List.foldlM_cons, run_bind_eq_ok] at hrun hrun'
      rcases hrun with ⟨s₁, tr₁, hplace, hrun⟩
      rcases hrun' with ⟨t₁, tr₃, hplace', hrun'⟩
      rcases place_eq_ok hplace with ⟨reg, pool, htake, rfl⟩
      rcases place_eq_ok hplace' with ⟨reg', pool', htake', rfl⟩
      rcases List.pairwise_cons.1 hsorted with ⟨hfirst, hrest⟩
      have hexpired := hvalid.expired (hreached i List.mem_cons_self)
      have hexpired' := hvalid'.expired (hreached i List.mem_cons_self)
      exact ih ((hagrees.expired i.start).extended hexpired hexpired' htake htake')
        (hexpired.extended (Nat.le_refl i.start) htake)
        (hexpired'.extended (Nat.le_refl i.start) htake') hrest hfirst hrun hrun'

/-- A scan starts from a full pool. -/
theorem run_run {registers : Nat} {pool : Pool} (hpool : Pool.full registers = .ok pool)
    (intervals : List LiveInterval) (tr : Trace) :
    (run registers intervals).run tr =
      ((LiveInterval.sorted intervals).foldlM place { pool }).run tr := by
  unfold run
  rw [hpool]
  rfl

end Scan

/-! ## Scans over the intervals of a stream -/

namespace Scan

variable {registers : Nat} {s : Stream}

theorem span_sorted {i : LiveInterval} (hi : i ∈ LiveInterval.sorted (liveIntervals s)) :
    i.start ≤ i.stop :=
  liveIntervals_start_le_stop ((LiveInterval.sorted_perm _).mem_iff.1 hi)

theorem crossing_sorted (s : Stream) (position : Nat) :
    LiveInterval.crossing (LiveInterval.sorted (liveIntervals s)) position =
      (Stream.needed s position).card := by
  rw [card_needed]
  exact (LiveInterval.sorted_perm _).countP_eq _

/-- With as many registers as are ever needed at once, the scan succeeds. -/
theorem exists_run (hone : 1 ≤ registers) (hlimit : registers ≤ 64)
    (hroom : Stream.pressure s ≤ registers) (tr : Trace) :
    ∃ scan tr', (run registers (liveIntervals s)).run tr = .ok scan tr' := by
  rcases Pool.exists_full hone hlimit with ⟨pool, hpool⟩
  rw [run_run hpool]
  refine exists_foldlM_place (valid_start hpool) (tight_start pool)
    (LiveInterval.sorted_pairwise_start _) (fun i _ => Nat.zero_le _) (fun i hi => span_sorted hi)
    ?_ tr
  intro position
  rw [spans, List.map_nil, List.nil_append, crossing_sorted]
  exact (Stream.card_needed_le_pressure s position).trans hroom

/-- A scan that succeeds has counted the pressure, needed no more registers and used none above. -/
theorem run_tight {scan : Scan} {tr tr' : Trace} (hone : 1 ≤ registers) (hlimit : registers ≤ 64)
    (h : (run registers (liveIntervals s)).run tr = .ok scan tr') :
    scan.peak = Stream.pressure s ∧ Stream.pressure s ≤ registers ∧
      ∀ pair ∈ scan.placed, pair.2 < Stream.pressure s := by
  rcases Pool.exists_full hone hlimit with ⟨pool, hpool⟩
  rw [run_run hpool] at h
  rcases foldlM_place_tight (valid_start hpool) (tight_start pool)
    (LiveInterval.sorted_pairwise_start _) (fun i _ => Nat.zero_le _) (fun i hi => span_sorted hi)
    h with ⟨done, reached, hdone, hvalid, htight⟩
  rw [List.nil_append] at hvalid htight
  have hcrossing : ∀ position, LiveInterval.crossing (spans done) position =
      (Stream.needed s position).card := by
    intro position
    rw [hdone, crossing_sorted]
  have hpeak : scan.peak = Stream.pressure s := by
    refine Nat.le_antisymm ?_ ?_
    · rcases htight.attained with ⟨position, hattained⟩
      rw [hcrossing] at hattained
      exact hattained.trans (Stream.card_needed_le_pressure s position)
    · refine Finset.sup_le ?_
      intro position _
      rw [← hcrossing]
      exact htight.covered position
  refine ⟨hpeak, Finset.sup_le ?_, ?_⟩
  · intro position _
    rw [← hcrossing]
    exact hvalid.crossing_le position
  · intro pair hpair
    rw [hvalid.placed] at hpair
    rcases List.mem_map.1 hpair with ⟨p, hp, rfl⟩
    exact hpeak ▸ htight.below p hp

theorem run_agrees {registers' : Nat} {intervals : List LiveInterval} {scan scan' : Scan}
    {tr tr' tr₂ tr₂' : Trace} (hone : 1 ≤ registers) (hlimit : registers ≤ 64)
    (hone' : 1 ≤ registers') (hlimit' : registers' ≤ 64)
    (h : (run registers intervals).run tr = .ok scan tr')
    (h' : (run registers' intervals).run tr₂ = .ok scan' tr₂') : Agrees scan scan' := by
  rcases Pool.exists_full hone hlimit with ⟨pool, hpool⟩
  rcases Pool.exists_full hone' hlimit' with ⟨pool', hpool'⟩
  rw [run_run hpool] at h
  rw [run_run hpool'] at h'
  have hstart : Agrees ({ pool } : Scan) ({ pool := pool' } : Scan) := ⟨rfl, rfl, rfl⟩
  exact foldlM_place_agrees hstart (valid_start hpool) (valid_start hpool')
    (LiveInterval.sorted_pairwise_start _) (fun i _ => Nat.zero_le _) h h'

theorem Agrees.allocation {scan scan' : Scan} (h : Agrees scan scan') (s : Stream) :
    scan.allocation s = scan'.allocation s := by
  rw [Scan.allocation, Scan.allocation, h.placed, h.peak]

end Scan

/-! ## Allocations -/

/-- Allocation is exact.  With one to 64 registers it succeeds if and only if the pressure of the
stream is not above their number.  It then reports the pressure as its peak and assigns registers
below it, and with any other sufficient number of registers the result is the same. -/
theorem allocate_exact (s : Stream) (tr : Trace) (settings : Settings)
    (hone : 1 ≤ settings.registers) (hlimit : settings.registers ≤ 64)
    (hrules : 1 ≤ settings.ruleLimit) :
    ((∃ result tr', (allocate settings s).run tr = .ok result tr') ↔
      Stream.pressure s ≤ settings.registers) ∧
    ∀ a bound tr', (allocate settings s).run tr = .ok (a, bound) tr' →
      a.peak = Stream.pressure s ∧
      (∀ pair ∈ a.assignments, pair.2 < Stream.pressure s) ∧
      ∀ other tr₂, Stream.pressure s ≤ other.registers → 1 ≤ other.registers →
        other.registers ≤ 64 → 1 ≤ other.ruleLimit →
        ∃ tr₂', (allocate other s).run tr₂ = .ok (a, bound) tr₂' := by
  have hcheck := (settings.check_eq_ok_iff).2 ⟨hone, hlimit, hrules⟩
  refine ⟨⟨?_, ?_⟩, ?_⟩
  · rintro ⟨⟨a, bound⟩, tr', h⟩
    rcases (allocate_eq_ok_iff.1 ⟨tr', h⟩).2 with ⟨scan, tr₁, hscan, -, -⟩
    exact (Scan.run_tight hone hlimit hscan).2.1
  · intro hroom
    rcases Scan.exists_run hone hlimit hroom (tr.push (.measured (liveIntervals s).length)) with
      ⟨scan, tr₁, hscan⟩
    rcases allocate_eq_ok_iff.2 ⟨hcheck, scan, tr₁, hscan, rfl, rfl⟩ with ⟨tr', h⟩
    exact ⟨_, tr', h⟩
  · intro a bound tr' h
    rcases (allocate_eq_ok_iff.1 ⟨tr', h⟩).2 with ⟨scan, tr₁, hscan, rfl, rfl⟩
    rcases Scan.run_tight hone hlimit hscan with ⟨hpeak, -, hbelow⟩
    refine ⟨hpeak, hbelow, ?_⟩
    intro other tr₃ hroom hone' hlimit' hrules'
    have hcheck' := (other.check_eq_ok_iff).2 ⟨hone', hlimit', hrules'⟩
    rcases Scan.exists_run hone' hlimit' hroom (tr₃.push (.measured (liveIntervals s).length)) with
      ⟨scan', tr₄, hscan'⟩
    have hsame := (Scan.run_agrees hone hlimit hone' hlimit' hscan hscan').allocation s
    exact allocate_eq_ok_iff.2 ⟨hcheck', scan', tr₄, hscan', hsame, rfl⟩

/-- Three registers of which two are needed at once: with one register the allocation fails, and
with 64 it assigns what it assigns with two. -/
theorem allocate_exact_threeInTwo :
    Stream.pressure Machine.threeInTwo = 2 ∧
      (¬ ∃ result tr', (allocate { registers := 1 } Machine.threeInTwo).run #[] = .ok result tr') ∧
      ∃ a bound tr' tr'', (allocate { registers := 2 } Machine.threeInTwo).run #[] =
          .ok (a, bound) tr' ∧ a.peak = 2 ∧
        (allocate { registers := 64 } Machine.threeInTwo).run #[] = .ok (a, bound) tr'' := by
  have hpressure : Stream.pressure Machine.threeInTwo = 2 := by decide
  have hone := allocate_exact Machine.threeInTwo #[] { registers := 1 }
    (by decide) (by decide) (by decide)
  have htwo := allocate_exact Machine.threeInTwo #[] { registers := 2 }
    (by decide) (by decide) (by decide)
  rw [hpressure] at hone htwo
  rcases htwo.1.2 (by decide) with ⟨⟨a, bound⟩, tr', h⟩
  rcases htwo.2 a bound tr' h with ⟨hpeak, -, hmore⟩
  rcases hmore { registers := 64 } #[] (by decide) (by decide) (by decide) (by decide) with
    ⟨tr'', h'⟩
  refine ⟨hpressure, ?_, a, bound, tr', tr'', h, hpeak, h'⟩
  intro hok
  exact absurd (hone.1.1 hok) (by decide)

end Codegen
