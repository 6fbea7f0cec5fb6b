import Codegen.Pool
import Mathlib.Data.Finset.Card
import Mathlib.Data.Finset.Max
import Mathlib.Data.Finset.Range
import Mathlib.Order.Lattice.Nat

/-!
# FreeSet — the pool as a set of registers

The bits of a pool are a set of registers.  On that set taking is removal of the least element,
giving back is insertion and asking is membership, so a pool serves any requests one after the
other as the set does.  The set never leaves the size of the pool, and no shift that an operation
makes reaches the width of the word.

* `Pool.freeSet`              : the registers whose bits are set
* `FreeSet.reply`             : what a set of registers does with a request
* `Pool.Within`               : the invariant, the free registers are below the size
* `Pool.InRange`              : every operation on the pool shifts by less than the width
* `Pool.full_refines_freeSet` : a full pool serves all requests as the set of its registers
-/

namespace Codegen

namespace Pool

/-! ## Words -/

theorem getLsbD_oneAt (amount i : Nat) :
    (oneAt amount).getLsbD i = (decide (amount < 64) && decide (amount = i)) :=
  BitVec.getLsbD_twoPow amount i

theorem and_oneAt_bne_zero (w : BitVec 64) (i : Nat) : (w &&& oneAt i != 0) = w.getLsbD i := by
  change (w &&& BitVec.twoPow 64 i != 0#64) = w.getLsbD i
  rw [BitVec.and_twoPow]
  cases hbit : w.getLsbD i with
  | false => rfl
  | true =>
      have hself : (BitVec.twoPow 64 i).getLsbD i = true := by
        simp [BitVec.lt_of_getLsbD hbit]
      have hne : BitVec.twoPow 64 i ≠ 0#64 := by
        intro hzero
        rw [hzero, BitVec.getLsbD_zero] at hself
        cases hself
      simpa using hne

/-- One less than a single bit is all the bits below it. -/
theorem getLsbD_oneAt_sub_one {size : Nat} (h : size < 64) (i : Nat) :
    (oneAt size - 1).getLsbD i = decide (i < size) := by
  -- `x - 1` is the complement of `-x`, and the negation moves inside the shift.
  have hmask : oneAt size - 1 = ~~~(BitVec.allOnes 64 <<< size) := by
    rw [← BitVec.neg_one_eq_allOnes, BitVec.shiftLeft_neg, BitVec.not_neg]
    rfl
  rw [hmask, BitVec.getLsbD_not, BitVec.getLsbD_shiftLeft, BitVec.getLsbD_allOnes]
  by_cases hi : i < size
  · simp [hi, hi.trans h]
  · by_cases hwidth : i < 64
    · simp [hi, hwidth, Nat.lt_of_le_of_lt (Nat.sub_le i size) hwidth]
    · simp [hi, hwidth]

/-- The lowest bit, if there is one, stands where the trailing zeros end. -/
theorem lowest?_eq (w : BitVec 64) : lowest? w = if w = 0 then none else some w.ctz.toNat := by
  unfold lowest?
  split
  · rename_i hzero
    simp [hzero]
  · rename_i hne
    have hbit : w.getLsbD w.ctz.toNat = true := BitVec.getLsbD_true_ctz_of_ne_zero hne
    rw [List.find?_range_eq_some]
    refine ⟨hbit, List.mem_range.2 (BitVec.lt_of_getLsbD hbit), ?_⟩
    intro i hi
    rw [BitVec.getLsbD_false_of_lt_ctz hi, Bool.not_false]

/-! ## What each operation does to the bits -/

theorem full_of_bounds {size : Nat} (hone : 1 ≤ size) (hlimit : size ≤ 64) :
    full size = .ok { free := if size = 64 then BitVec.allOnes 64 else oneAt size - 1, size } := by
  have haccept : ¬ (size = 0 ∨ registerLimit < size) := by
    simp only [registerLimit]
    omega
  unfold full fullBy
  rw [if_neg haccept]
  by_cases hwidth : size = 64
  · subst hwidth
    rfl
  · rw [if_neg hwidth, if_neg (by simpa [registerLimit] using hwidth)]
    rfl

theorem bounds_of_full {size : Nat} {p : Pool} (h : full size = .ok p) :
    1 ≤ size ∧ size ≤ 64 := by
  by_contra hbounds
  have hrefuse : size = 0 ∨ registerLimit < size := by
    simp only [registerLimit]
    omega
  unfold full fullBy at h
  rw [if_pos hrefuse] at h
  cases h

theorem exists_full {size : Nat} (hone : 1 ≤ size) (hlimit : size ≤ 64) :
    ∃ p, full size = .ok p :=
  ⟨_, full_of_bounds hone hlimit⟩

theorem size_full {size : Nat} {p : Pool} (h : full size = .ok p) : p.size = size := by
  rcases bounds_of_full h with ⟨hone, hlimit⟩
  rw [full_of_bounds hone hlimit] at h
  cases h
  rfl

theorem free_full {size : Nat} {p : Pool} (h : full size = .ok p) (reg : Nat) :
    p.free.getLsbD reg = decide (reg < size) := by
  rcases bounds_of_full h with ⟨hone, hlimit⟩
  rw [full_of_bounds hone hlimit] at h
  cases h
  -- The widest pool has a mask of its own, since the bit at 64 is outside the word.
  by_cases hwidth : size = 64
  · simp only [hwidth, if_true, BitVec.getLsbD_allOnes]
  · simp only [if_neg hwidth]
    exact getLsbD_oneAt_sub_one (by omega) reg

theorem has_eq (p : Pool) (reg : Nat) :
    p.has reg = (decide (reg < p.size) && p.free.getLsbD reg) := by
  rw [← and_oneAt_bne_zero]
  unfold has hasBy
  by_cases hreg : reg < p.size
  · simp [hreg]
  · simp [hreg]

theorem take?_eq (p : Pool) :
    p.take? =
      if p.free = 0 then none
      else some (p.free.ctz.toNat, { p with free := p.free &&& ~~~oneAt p.free.ctz.toNat }) := by
  unfold take? takeBy
  rw [lowest?_eq]
  by_cases hzero : p.free = 0
  · rw [if_pos hzero, if_pos hzero]
    rfl
  · rw [if_neg hzero, if_neg hzero]
    rfl

theorem take?_eq_none_iff {p : Pool} : p.take? = none ↔ p.free = 0 := by
  rw [take?_eq, ite_eq_left_iff, imp_iff_not (Option.some_ne_none _), not_not]

theorem take?_eq_some {p p' : Pool} {reg : Nat} (h : p.take? = some (reg, p')) :
    p.free ≠ 0 ∧ reg = p.free.ctz.toNat ∧
      p' = { p with free := p.free &&& ~~~oneAt p.free.ctz.toNat } := by
  have hne : p.free ≠ 0 := by
    intro hzero
    rw [take?_eq_none_iff.2 hzero] at h
    cases h
  rw [take?_eq, if_neg hne] at h
  cases h
  exact ⟨hne, rfl, rfl⟩

theorem free_take? {p p' : Pool} {reg : Nat} (h : p.take? = some (reg, p')) :
    p.free.getLsbD reg = true ∧
      ∀ r, p'.free.getLsbD r = (p.free.getLsbD r && decide (r ≠ reg)) := by
  rcases take?_eq_some h with ⟨hne, rfl, rfl⟩
  have hbit : p.free.getLsbD p.free.ctz.toNat = true := BitVec.getLsbD_true_ctz_of_ne_zero hne
  refine ⟨hbit, ?_⟩
  intro r
  rw [BitVec.getLsbD_and, BitVec.getLsbD_not, getLsbD_oneAt]
  by_cases hr : r < 64
  · simp [BitVec.lt_of_getLsbD hbit, hr, eq_comm]
  · simp [BitVec.getLsbD_of_ge _ r (Nat.le_of_not_lt hr)]

theorem size_take? {p p' : Pool} {reg : Nat} (h : p.take? = some (reg, p')) :
    p'.size = p.size := by
  rcases take?_eq_some h with ⟨-, -, rfl⟩
  rfl

/-- The register taken is the lowest free one. -/
theorem lowest_take? {p p' : Pool} {reg : Nat} (h : p.take? = some (reg, p')) :
    ∀ r < reg, ¬ p.free.getLsbD r = true := by
  rcases take?_eq_some h with ⟨-, rfl, -⟩
  intro r hr
  simpa using BitVec.getLsbD_false_of_lt_ctz hr

theorem release_eq (p : Pool) (reg : Nat) :
    p.release reg = if reg < p.size then { p with free := p.free ||| oneAt reg } else p := rfl

@[simp] theorem size_release (p : Pool) (reg : Nat) : (p.release reg).size = p.size := by
  rw [release_eq]
  split <;> rfl

theorem free_release (p : Pool) (reg r : Nat) :
    (p.release reg).free.getLsbD r = true ↔
      p.free.getLsbD r = true ∨ (r = reg ∧ r < 64 ∧ r < p.size) := by
  rw [release_eq]
  split
  · rename_i hreg
    rw [BitVec.getLsbD_or, getLsbD_oneAt, Bool.or_eq_true, Bool.and_eq_true,
      decide_eq_true_eq, decide_eq_true_eq]
    refine or_congr_right ⟨?_, ?_⟩
    · rintro ⟨hlt, rfl⟩
      exact ⟨rfl, hlt, hreg⟩
    · rintro ⟨rfl, hlt, -⟩
      exact ⟨hlt, rfl⟩
  · rename_i hreg
    refine ⟨.inl, ?_⟩
    rintro (h | ⟨rfl, -, h⟩)
    · exact h
    · exact absurd h hreg

/-! ## The set of free registers -/

/-- The registers whose bits are set. -/
def freeSet (p : Pool) : Finset Nat := {reg ∈ Finset.range 64 | p.free.getLsbD reg = true}

@[simp] theorem mem_freeSet {p : Pool} {reg : Nat} :
    reg ∈ p.freeSet ↔ p.free.getLsbD reg = true := by
  unfold freeSet
  rw [Finset.mem_filter, Finset.mem_range, and_iff_right_iff_imp]
  exact BitVec.lt_of_getLsbD

theorem freeSet_full {size : Nat} {p : Pool} (h : full size = .ok p) :
    p.freeSet = Finset.range size := by
  ext reg
  simp [free_full h]

theorem freeSet_eq_empty_iff {p : Pool} : p.freeSet = ∅ ↔ p.free = 0 := by
  constructor
  · intro h
    apply BitVec.eq_of_getLsbD_eq
    intro reg _
    have hreg : reg ∉ p.freeSet := by simp [h]
    simpa using hreg
  · intro h
    ext reg
    simp [h]

/-- Taking removes the least element. -/
theorem isLeast_take? {p p' : Pool} {reg : Nat} (h : p.take? = some (reg, p')) :
    IsLeast (p.freeSet : Set Nat) reg ∧ p'.freeSet = p.freeSet.erase reg := by
  rcases free_take? h with ⟨hfree, htaken⟩
  refine ⟨⟨by simpa using hfree, ?_⟩, ?_⟩
  · intro r hr
    by_contra hlt
    exact lowest_take? h r (Nat.lt_of_not_le hlt) (by simpa using hr)
  · ext r
    simp [htaken, and_comm]

theorem freeSet_release {p : Pool} (hsize : p.size ≤ 64) (reg : Nat) :
    (p.release reg).freeSet = if reg < p.size then insert reg p.freeSet else p.freeSet := by
  ext r
  -- A register from the width on would set no bit, so the size has to fit the word.
  split
  · rename_i hreg
    simp only [mem_freeSet, free_release, Finset.mem_insert]
    grind
  · rename_i hreg
    simp only [mem_freeSet, free_release]
    grind

theorem available_eq_card (p : Pool) : p.available = p.freeSet.card := by
  unfold available freeSet
  rw [List.countP_eq_length_filter, Finset.card_def, Finset.filter_val, Finset.range_val,
    Multiset.range, Multiset.filter_coe, Multiset.coe_card]
  simp only [Bool.decide_eq_true]

end Pool

/-! ## Serving requests -/

inductive Request
  | take
  | release (reg : Nat)
  | ask (reg : Nat)
  deriving DecidableEq

inductive Reply
  | taken (reg : Option Nat)
  | released
  | free (yes : Bool)
  deriving DecidableEq

/-- The replies to requests that are served one after the other, and the state after them. -/
def replies {σ : Type} (reply : σ → Request → Reply × σ) : σ → List Request → List Reply × σ
  | s, [] => ([], s)
  | s, request :: rest =>
      let first := reply s request
      let later := replies reply first.2 rest
      (first.1 :: later.1, later.2)

/-- What a set of registers below `size` does with a request. -/
def FreeSet.reply (size : Nat) (s : Finset Nat) : Request → Reply × Finset Nat
  | .take =>
      if h : s.Nonempty then (.taken (some (s.min' h)), s.erase (s.min' h)) else (.taken none, s)
  | .release reg => (.released, if reg < size then insert reg s else s)
  | .ask reg => (.free (decide (reg ∈ s)), s)

namespace Pool

def reply (p : Pool) : Request → Reply × Pool
  | .take =>
      match p.take? with
      | some (reg, p') => (.taken (some reg), p')
      | none => (.taken none, p)
  | .release reg => (.released, p.release reg)
  | .ask reg => (.free (p.has reg), p)

/-- The size fits a word, and only registers below it are free. -/
structure Within (size : Nat) (p : Pool) : Prop where
  size_eq : p.size = size
  limit : size ≤ 64
  subset : p.freeSet ⊆ Finset.range size

theorem within_full {size : Nat} {p : Pool} (h : full size = .ok p) : Within size p where
  size_eq := size_full h
  limit := (bounds_of_full h).2
  subset := (freeSet_full h).subset

namespace Within

variable {size : Nat} {p : Pool}

theorem size_le (h : Within size p) : p.size ≤ 64 := h.size_eq.trans_le h.limit

theorem reply (h : Within size p) (request : Request) : Within size (p.reply request).2 := by
  cases request with
  | take =>
      unfold Pool.reply
      cases htake : p.take? with
      | none => exact h
      | some taken =>
          have hsubset : taken.2.freeSet ⊆ Finset.range size := by
            rw [(isLeast_take? htake).2]
            exact (Finset.erase_subset _ _).trans h.subset
          exact ⟨(size_take? htake).trans h.size_eq, h.limit, hsubset⟩
  | release reg =>
      -- Only here can the set grow, and only by a register below the size.
      refine ⟨(size_release p reg).trans h.size_eq, h.limit, ?_⟩
      change (p.release reg).freeSet ⊆ Finset.range size
      rw [freeSet_release h.size_le]
      split
      · rename_i hreg
        exact Finset.insert_subset (Finset.mem_range.2 (h.size_eq ▸ hreg)) h.subset
      · exact h.subset
  | ask reg => exact h

theorem has_eq_decide (h : Within size p) (reg : Nat) : p.has reg = decide (reg ∈ p.freeSet) := by
  rw [has_eq, Bool.eq_iff_iff, Bool.and_eq_true, decide_eq_true_eq, decide_eq_true_eq,
    ← mem_freeSet, and_iff_right_iff_imp]
  intro hreg
  rw [h.size_eq]
  exact Finset.mem_range.1 (h.subset hreg)

theorem freeSet_reply (h : Within size p) (request : Request) :
    FreeSet.reply size p.freeSet request =
      ((p.reply request).1, (p.reply request).2.freeSet) := by
  cases request with
  | take =>
      unfold FreeSet.reply Pool.reply
      cases htake : p.take? with
      | none =>
          have hempty : ¬ p.freeSet.Nonempty := by
            rw [Finset.not_nonempty_iff_eq_empty, freeSet_eq_empty_iff]
            exact take?_eq_none_iff.1 htake
          simp only [dif_neg hempty]
      | some taken =>
          rcases isLeast_take? htake with ⟨hleast, herase⟩
          have hsome : p.freeSet.Nonempty := ⟨taken.1, hleast.1⟩
          have hmin : p.freeSet.min' hsome = taken.1 :=
            (Finset.isLeast_min' _ hsome).unique hleast
          simp only [dif_pos hsome, hmin, herase]
  | release reg =>
      unfold FreeSet.reply Pool.reply
      simp only [freeSet_release h.size_le, h.size_eq]
  | ask reg =>
      unfold FreeSet.reply Pool.reply
      simp only [h.has_eq_decide]

theorem freeSet_replies (h : Within size p) (requests : List Request) :
    Within size (replies Pool.reply p requests).2 ∧
      replies (FreeSet.reply size) p.freeSet requests =
        ((replies Pool.reply p requests).1, (replies Pool.reply p requests).2.freeSet) := by
  -- Over all pools of the size, since later requests meet the pool that the first one leaves.
  induction requests generalizing p with
  | nil => exact ⟨h, rfl⟩
  | cons request rest ih =>
      rcases ih (h.reply request) with ⟨hend, hrest⟩
      refine ⟨hend, ?_⟩
      simp only [replies, h.freeSet_reply request, hrest]

end Within

/-! ## Shifts -/

/-- The shift that refuses an amount from the width of the word on. -/
def oneAt? (amount : Nat) : Option (BitVec 64) :=
  if amount < 64 then some (oneAt amount) else none

theorem oneAt?_of_lt {amount : Nat} (h : amount < 64) : oneAt? amount = some (oneAt amount) :=
  if_pos h

/-- No operation on the pool makes a shift that is refused, for whatever register. -/
structure InRange (p : Pool) : Prop where
  take : p.takeBy oneAt? = some p.take?
  release : ∀ reg, p.releaseBy oneAt? reg = some (p.release reg)
  has : ∀ reg, p.hasBy oneAt? reg = some (p.has reg)

theorem fullBy_oneAt? (size : Nat) : fullBy oneAt? size = some (full size) := by
  unfold full fullBy
  split
  · rfl
  · split
    · rfl
    · rename_i haccept hwidth
      simp only [registerLimit] at haccept hwidth
      rw [oneAt?_of_lt (by omega)]
      rfl

theorem Within.inRange {size : Nat} {p : Pool} (h : Within size p) : p.InRange where
  take := by
    unfold take? takeBy
    cases hlowest : lowest? p.free with
    | none => rfl
    | some reg =>
        -- The amount is the position of a bit, so it is in the word whatever the size is.
        have hbit : p.free.getLsbD reg = true := List.find?_some hlowest
        simp only [oneAt?_of_lt (BitVec.lt_of_getLsbD hbit)]
        rfl
  release := by
    intro reg
    unfold release releaseBy
    split
    · rename_i hreg
      rw [oneAt?_of_lt (hreg.trans_le h.size_le)]
      rfl
    · rfl
  has := by
    intro reg
    unfold has hasBy
    split
    · rename_i hreg
      rw [oneAt?_of_lt (hreg.trans_le h.size_le)]
      rfl
    · rfl

/-! ## Refinement -/

/-- A full pool replies to any requests as the set of its registers does, and holds the set that
is left.  The number of available registers is the number of elements of that set, which stays
below the size of the pool.  Neither making the pool nor any operation on a state that it comes to
shifts by the width of the word or more: each state of a run is the last of a shorter run. -/
theorem full_refines_freeSet (size : Nat) (hone : 1 ≤ size) (hlimit : size ≤ 64) :
    fullBy oneAt? size = some (full size) ∧
      ∃ p, full size = .ok p ∧ p.freeSet = Finset.range size ∧
        ∀ requests, ∃ answers q,
          replies reply p requests = (answers, q) ∧
          replies (FreeSet.reply size) (Finset.range size) requests = (answers, q.freeSet) ∧
          q.available = q.freeSet.card ∧
          q.freeSet ⊆ Finset.range size ∧
          q.InRange := by
  rcases exists_full hone hlimit with ⟨p, hfull⟩
  have hset := freeSet_full hfull
  refine ⟨fullBy_oneAt? size, p, hfull, hset, ?_⟩
  intro requests
  rcases (within_full hfull).freeSet_replies requests with ⟨hwithin, hreplies⟩
  rw [hset] at hreplies
  exact ⟨_, _, rfl, hreplies, available_eq_card _, hwithin.subset, hwithin.inRange⟩

/-- A register is given back twice, and numbers are named that no pool has. -/
def untidyRequests : List Request :=
  [.take, .take, .release 0, .release 0, .release 64, .release 255, .ask 64, .ask 63, .take, .take]

theorem full_refines_freeSet_widest :
    ∃ p q, full 64 = .ok p ∧
      replies reply p untidyRequests =
        ([.taken (some 0), .taken (some 1), .released, .released, .released, .released,
          .free false, .free true, .taken (some 0), .taken (some 2)], q) ∧
      q.freeSet = Finset.range 64 \ {0, 1, 2} ∧ q.available = 61 ∧ q.InRange := by
  have hset : replies (FreeSet.reply 64) (Finset.range 64) untidyRequests =
      ([.taken (some 0), .taken (some 1), .released, .released, .released, .released,
        .free false, .free true, .taken (some 0), .taken (some 2)],
        Finset.range 64 \ {0, 1, 2}) := by decide +kernel
  rcases full_refines_freeSet 64 (by decide) (by decide) with ⟨-, p, hfull, -, hserve⟩
  rcases hserve untidyRequests with ⟨answers, q, hpool, hreplies, hcard, -, hrange⟩
  rcases Prod.mk.inj (hreplies.symm.trans hset) with ⟨rfl, hleft⟩
  refine ⟨p, q, hfull, hpool, hleft, ?_, hrange⟩
  rw [hcard, hleft]
  decide +kernel

end Pool

end Codegen
