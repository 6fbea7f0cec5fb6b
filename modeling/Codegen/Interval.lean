import Codegen.Instr

/-!
# Interval — how long a virtual register is needed

* `LiveInterval`        : the positions from the first to the last mention of a register
* `LiveInterval.sorted` : a stable sort by start and register, the order of allocation
* `LiveTable`           : the intervals while a stream is read
* `liveIntervals`       : the intervals of a stream
-/

namespace Codegen

/-- The register `vreg` is needed from position `start` to position `stop`, both included. -/
structure LiveInterval where
  vreg : Nat
  start : Nat
  stop : Nat
  deriving DecidableEq

namespace LiveInterval

/-- Whether two intervals have a position in common. -/
def overlaps (a b : LiveInterval) : Bool := a.start ≤ b.stop && b.start ≤ a.stop

def contains (a : LiveInterval) (position : Nat) : Bool := a.start ≤ position && position ≤ a.stop

theorem overlaps_comm (a b : LiveInterval) : a.overlaps b = b.overlaps a := by
  simp [overlaps, Bool.and_comm]

/-! ## The order of allocation -/

/-- Whether `a` may come before `b`: by start, then by register. -/
def before (a b : LiveInterval) : Bool :=
  a.start < b.start || (a.start == b.start && a.vreg ≤ b.vreg)

/-- Puts an interval in front of the first one it may come before. -/
def insert (a : LiveInterval) : List LiveInterval → List LiveInterval
  | [] => [a]
  | b :: rest => if a.before b then a :: b :: rest else b :: insert a rest

/-- Sorts by start, then by register; equal ones keep their order. -/
def sorted (intervals : List LiveInterval) : List LiveInterval :=
  intervals.foldr insert []

theorem insert_perm (a : LiveInterval) (l : List LiveInterval) : (insert a l).Perm (a :: l) := by
  induction l with
  | nil => exact .refl _
  | cons b rest ih =>
      unfold insert
      split
      · exact .refl _
      · exact (ih.cons b).trans (.swap a b rest)

theorem sorted_perm (l : List LiveInterval) : (sorted l).Perm l := by
  induction l with
  | nil => exact .refl _
  | cons a rest ih => exact (insert_perm a _).trans (ih.cons a)

end LiveInterval

/-! ## Liveness -/

namespace Stream

/-- Every mention of a virtual register, with its position, in order. -/
def mentions (s : Stream) : List (Nat × Nat) :=
  s.toList.zipIdx.flatMap fun (i, position) => i.regs.map fun r => (r.index, position)

end Stream

/-- The intervals of the registers that came up so far. -/
structure LiveTable where
  /-- For each register, the place of its interval. -/
  slots : List (Nat × Nat) := []
  /-- The intervals in the order in which they were opened. -/
  intervals : List LiveInterval := []
  deriving DecidableEq

/-- Extends the interval of a register to a position, or opens one there. -/
def LiveTable.note (t : LiveTable) (vreg position : Nat) : LiveTable :=
  match t.slots.lookup vreg with
  | some slot => { t with intervals := t.intervals.modify slot ({ · with stop := position }) }
  | none =>
      { slots := (vreg, t.intervals.length) :: t.slots
        intervals := t.intervals ++ [⟨vreg, position, position⟩] }

/-- The table after a list of mentions. -/
def LiveTable.ofMentions (mentions : List (Nat × Nat)) : LiveTable :=
  mentions.foldl (fun t mention => t.note mention.1 mention.2) {}

/-- The intervals of all virtual registers of a stream, sorted. -/
def liveIntervals (s : Stream) : List LiveInterval :=
  LiveInterval.sorted (LiveTable.ofMentions (Stream.mentions s)).intervals

end Codegen
