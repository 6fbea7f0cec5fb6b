import Codegen.Allocation
import Codegen.Proofs.FreeSet
import Codegen.Proofs.Liveness
import Codegen.Proofs.Run
import Mathlib.Data.List.TakeWhile

/-!
# Scan — what a linear scan guarantees

Every placement made so far is either still active or ended before the position the scan has
reached, and the registers of the active placements are exactly those the pool does not have.  So
a register is handed out again only after the interval that held it has ended.

* `Scan.Valid`     : the invariant of the scan, with the placements made so far
* `Scan.run_valid` : a finished scan is valid for placements of all intervals in order
-/

namespace Codegen

/-! ## One step of the scan -/

namespace Scan

/-- The scan after the intervals that ended before `start` gave their registers back. -/
def expired (s : Scan) (start : Nat) : Scan :=
  { s with
    pool := (s.active.takeWhile (·.interval.stop < start)).foldl (·.release ·.reg) s.pool
    active := s.active.dropWhile (·.interval.stop < start) }

/-- The scan after an interval took the register `reg`, which left `pool`. -/
def extended (s : Scan) (i : LiveInterval) (reg : Nat) (pool : Pool) : Scan :=
  let active := activate { interval := i, reg } s.active
  { pool, active, placed := s.placed ++ [(i.vreg, reg)], peak := max s.peak active.length }

theorem run_forM_log (events : Placement → Event) (l : List Placement) (tr : Trace) :
    ∃ tr', (l.forM fun p => AllocM.log (events p)).run tr = .ok () tr' := by
  induction l generalizing tr with
  | nil => exact ⟨tr, rfl⟩
  | cons p rest ih =>
      rcases ih (tr.push (events p)) with ⟨tr', h⟩
      refine ⟨tr', ?_⟩
      rw [List.forM_eq_forM, List.forM_cons, run_bind_eq_ok]
      exact ⟨(), _, rfl, h⟩

theorem run_expire (s : Scan) (start : Nat) (tr : Trace) :
    ∃ tr', (s.expire start).run tr = .ok (s.expired start) tr' := by
  rcases run_forM_log (fun p => .expired p.interval.vreg p.reg)
    (s.active.takeWhile (·.interval.stop < start)) tr with ⟨tr', h⟩
  refine ⟨tr', ?_⟩
  unfold expire
  rw [run_bind_eq_ok]
  exact ⟨(), tr', h, rfl⟩

/-- A step that succeeds expires what has ended and takes the lowest free register. -/
theorem place_eq_ok {s s' : Scan} {i : LiveInterval} {tr tr' : Trace}
    (h : (s.place i).run tr = .ok s' tr') :
    ∃ reg pool, (s.expired i.start).pool.take? = some (reg, pool) ∧
      s' = (s.expired i.start).extended i reg pool := by
  unfold place at h
  rw [run_bind_eq_ok] at h
  rcases h with ⟨e, tr₁, he, h⟩
  rcases run_expire s i.start tr with ⟨tr₂, he'⟩
  rw [he'] at he
  cases he
  cases htake : (s.expired i.start).pool.take? with
  | none =>
      simp only [htake] at h
      rw [run_bind_eq_ok] at h
      rcases h with ⟨_, _, _, h⟩
      cases h
  | some found =>
      rcases found with ⟨reg, pool⟩
      refine ⟨reg, pool, rfl, ?_⟩
      simp only [htake] at h
      rw [run_bind_eq_ok] at h
      rcases h with ⟨_, _, _, h⟩
      cases h
      rfl

theorem activate_perm (p : Placement) (l : List Placement) : (activate p l).Perm (p :: l) := by
  induction l with
  | nil => exact .refl _
  | cons q rest ih =>
      unfold activate
      split
      · exact (ih.cons q).trans (.swap p q rest)
      · exact .refl _

/-! ## The invariant -/

/-- `s` is the state of a scan that has made the placements `done`, in order, and has expired the
intervals that ended before the position `reached`. -/
structure Valid (registers : Nat) (done : List Placement) (reached : Nat) (s : Scan) : Prop where
  limit : registers ≤ 64
  size : s.pool.size = registers
  placed : s.placed = done.map fun p => (p.interval.vreg, p.reg)
  bounded : ∀ p ∈ done, p.reg < registers
  active_done : ∀ p ∈ s.active, p ∈ done
  distinct : s.active.Pairwise (·.reg ≠ ·.reg)
  free_iff : ∀ r, s.pool.free.getLsbD r = true ↔ r < registers ∧ ∀ p ∈ s.active, p.reg ≠ r
  ended : ∀ p ∈ done, p ∈ s.active ∨ p.interval.stop < reached
  apart : done.Pairwise fun p q => p.reg = q.reg → p.interval.stop < q.interval.start

theorem valid_start {registers : Nat} {pool : Pool} (h : Pool.full registers = .ok pool) :
    Valid registers [] 0 { pool } where
  limit := (Pool.bounds_of_full h).2
  size := Pool.size_full h
  placed := rfl
  bounded := by simp
  active_done := by simp
  distinct := .nil
  free_iff := by simp [Pool.free_full h]
  ended := by simp
  apart := .nil

theorem size_foldl_release (l : List Placement) (p : Pool) :
    (l.foldl (·.release ·.reg) p).size = p.size := by
  induction l generalizing p with
  | nil => rfl
  | cons q rest ih => rw [List.foldl_cons, ih, Pool.size_release]

theorem free_foldl_release (l : List Placement) (p : Pool) (r : Nat) :
    (l.foldl (·.release ·.reg) p).free.getLsbD r = true ↔
      p.free.getLsbD r = true ∨ ((∃ q ∈ l, q.reg = r) ∧ r < 64 ∧ r < p.size) := by
  induction l generalizing p with
  | nil => simp
  | cons q rest ih =>
      rw [List.foldl_cons, ih, Pool.free_release, Pool.size_release]
      constructor
      · rintro ((h | ⟨rfl, h⟩) | ⟨⟨q', hq', hr⟩, h⟩)
        · exact .inl h
        · exact .inr ⟨⟨q, List.mem_cons_self, rfl⟩, h⟩
        · exact .inr ⟨⟨q', List.mem_cons_of_mem _ hq', hr⟩, h⟩
      · rintro (h | ⟨⟨q', hq', rfl⟩, h⟩)
        · exact .inl (.inl h)
        · rcases List.mem_cons.1 hq' with rfl | hq'
          · exact .inl (.inr ⟨rfl, h⟩)
          · exact .inr ⟨⟨q', hq', rfl⟩, h⟩

namespace Valid

variable {registers reached : Nat} {done : List Placement} {s : Scan}

/-- An active placement is given back or stays active. -/
theorem mem_active_iff {start : Nat} {p : Placement} :
    p ∈ s.active ↔
      p ∈ s.active.takeWhile (·.interval.stop < start) ∨ p ∈ (s.expired start).active := by
  rw [Scan.expired, ← List.mem_append, List.takeWhile_append_dropWhile]

theorem expired (h : Valid registers done reached s) {start : Nat} (hle : reached ≤ start) :
    Valid registers done start (s.expired start) where
  limit := h.limit
  size := (size_foldl_release _ _).trans h.size
  placed := h.placed
  bounded := h.bounded
  active_done := by
    intro p hp
    exact h.active_done p (mem_active_iff.2 (.inr hp))
  distinct := h.distinct.sublist (List.dropWhile_sublist _)
  free_iff := by
    intro r
    -- a register given back is not one that stays in use
    have hdistinct := h.distinct
    rw [← List.takeWhile_append_dropWhile
      (p := fun p : Placement => decide (p.interval.stop < start)) (l := s.active),
      List.pairwise_append] at hdistinct
    refine (free_foldl_release _ _ _).trans ?_
    rw [h.free_iff, h.size]
    constructor
    · rintro (⟨hr, hfree⟩ | ⟨⟨q, hq, rfl⟩, -, hr⟩)
      · exact ⟨hr, fun p hp => hfree p (mem_active_iff.2 (.inr hp))⟩
      · exact ⟨hr, fun p hp => (hdistinct.2.2 q hq p hp).symm⟩
    · rintro ⟨hr, hfree⟩
      by_cases hq : ∃ q ∈ s.active.takeWhile (·.interval.stop < start), q.reg = r
      · exact .inr ⟨hq, Nat.lt_of_lt_of_le hr h.limit, hr⟩
      · refine .inl ⟨hr, ?_⟩
        intro p hp heq
        rcases mem_active_iff.1 hp with hp | hp
        · exact hq ⟨p, hp, heq⟩
        · exact hfree p hp heq
  ended := by
    intro p hp
    rcases h.ended p hp with hactive | hstop
    · rcases mem_active_iff.1 hactive with hgone | hkept
      · have hstop := List.mem_takeWhile_imp hgone
        exact .inr (of_decide_eq_true hstop)
      · exact .inl hkept
    · exact .inr (Nat.lt_of_lt_of_le hstop hle)
  apart := h.apart

theorem extended {start reg : Nat} {pool : Pool} {i : LiveInterval}
    (h : Valid registers done start s) (hstart : start ≤ i.start)
    (htake : s.pool.take? = some (reg, pool)) :
    Valid registers (done ++ [{ interval := i, reg }]) start (s.extended i reg pool) := by
  rcases Pool.free_take? htake with ⟨hfree, hpool⟩
  rcases (h.free_iff reg).1 hfree with ⟨hreg, hunused⟩
  have hmem : ∀ p, p ∈ (s.extended i reg pool).active ↔ p = ⟨i, reg⟩ ∨ p ∈ s.active := by
    intro p
    exact (activate_perm _ _).mem_iff.trans List.mem_cons
  refine
    { limit := h.limit
      size := (Pool.size_take? htake).trans h.size
      placed := ?_
      bounded := ?_
      active_done := ?_
      distinct := ?_
      free_iff := ?_
      ended := ?_
      apart := ?_ }
  · simp [Scan.extended, h.placed]
  · intro p hp
    rcases List.mem_append.1 hp with hp | hp
    · exact h.bounded p hp
    · rw [List.mem_singleton.1 hp]
      exact hreg
  · intro p hp
    rcases (hmem p).1 hp with rfl | hp
    · exact List.mem_append_right _ (List.mem_singleton_self _)
    · exact List.mem_append_left _ (h.active_done p hp)
  · refine (activate_perm _ _).symm.pairwise ?_ fun hne => hne.symm
    exact List.pairwise_cons.2 ⟨fun p hp => (hunused p hp).symm, h.distinct⟩
  · intro r
    have hbit : pool.free.getLsbD r = true ↔ s.pool.free.getLsbD r = true ∧ r ≠ reg := by
      rw [hpool r, Bool.and_eq_true, decide_eq_true_eq]
    refine hbit.trans ?_
    rw [h.free_iff]
    constructor
    · rintro ⟨⟨hr, hactive⟩, hne⟩
      refine ⟨hr, ?_⟩
      intro p hp
      rcases (hmem p).1 hp with rfl | hp
      · exact hne.symm
      · exact hactive p hp
    · rintro ⟨hr, hactive⟩
      have hnew := hactive _ ((hmem ⟨i, reg⟩).2 (.inl rfl))
      exact ⟨⟨hr, fun p hp => hactive p ((hmem p).2 (.inr hp))⟩, hnew.symm⟩
  · intro p hp
    rcases List.mem_append.1 hp with hp | hp
    · exact (h.ended p hp).imp_left fun hactive => (hmem p).2 (.inr hactive)
    · exact .inl ((hmem p).2 (.inl (List.mem_singleton.1 hp)))
  · refine List.pairwise_append.2 ⟨h.apart, List.pairwise_singleton _ _, ?_⟩
    intro p hp q hq heq
    rw [List.mem_singleton.1 hq] at heq ⊢
    -- a placement that holds the register taken now cannot be active any more
    rcases h.ended p hp with hactive | hstop
    · exact absurd heq (hunused p hactive)
    · exact Nat.lt_of_lt_of_le hstop hstart

end Valid

/-! ## Whole scans -/

theorem foldlM_place_valid {registers reached : Nat} {done : List Placement} {s s' : Scan}
    {order : List LiveInterval} {tr tr' : Trace} (h : Valid registers done reached s)
    (hsorted : order.Pairwise (·.start ≤ ·.start)) (hreached : ∀ i ∈ order, reached ≤ i.start)
    (hrun : (order.foldlM place s).run tr = .ok s' tr') :
    ∃ more reached', more.map Placement.interval = order ∧
      Valid registers (done ++ more) reached' s' := by
  induction order generalizing done reached s tr with
  | nil =>
      cases hrun
      exact ⟨[], reached, rfl, by simpa using h⟩
  | cons i rest ih =>
      rw [List.foldlM_cons, run_bind_eq_ok] at hrun
      rcases hrun with ⟨s₁, tr₁, hplace, hrun⟩
      rcases place_eq_ok hplace with ⟨reg, pool, htake, rfl⟩
      rcases List.pairwise_cons.1 hsorted with ⟨hfirst, hrest⟩
      have hexpired := h.expired (hreached i List.mem_cons_self)
      have hvalid := hexpired.extended (Nat.le_refl i.start) htake
      rcases ih hvalid hrest hfirst hrun with ⟨more, reached', hmore, hfinal⟩
      refine ⟨⟨i, reg⟩ :: more, reached', by simp [hmore], ?_⟩
      simpa using hfinal

/-- A scan that succeeds places every interval, in the order of allocation. -/
theorem run_valid {registers : Nat} {intervals : List LiveInterval} {s : Scan} {tr tr' : Trace}
    (h : (run registers intervals).run tr = .ok s tr') :
    ∃ done reached, done.map Placement.interval = LiveInterval.sorted intervals ∧
      Valid registers done reached s := by
  unfold run at h
  rw [run_bind_eq_ok] at h
  rcases h with ⟨pool, tr₁, hpool, h⟩
  have hfull : Pool.full registers = .ok pool := by
    cases hcase : Pool.full registers with
    | error e =>
        rw [hcase] at hpool
        cases hpool
    | ok p =>
        rw [hcase] at hpool
        cases hpool
        rfl
  rcases foldlM_place_valid (valid_start hfull) (LiveInterval.sorted_pairwise_start intervals)
    (fun i _ => Nat.zero_le _) h with ⟨done, reached, hdone, hvalid⟩
  exact ⟨done, reached, hdone, by simpa using hvalid⟩

end Scan

end Codegen
