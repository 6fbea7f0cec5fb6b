import Codegen.Event
import Codegen.Interval
import Codegen.Pool
import Codegen.Settings

/-!
# Allocation — linear scan over live intervals

Intervals are placed in order of their start.  Those that ended before the next one starts give
their registers back, then it takes the lowest free register.  If none is free the scan fails and
names the active interval that ends last.

* `Scan`            : the state between two intervals
* `assign`          : registers for a list of intervals
* `allocateInPlace` : registers for a stream, which are bound in it
* `allocate`        : registers for a stream, and the stream with its registers bound
-/

namespace Codegen

abbrev AllocM := EStateM Error Trace

namespace AllocM

def ofExcept {α : Type} : Except Error α → AllocM α
  | .ok a => pure a
  | .error e => throw e

def log (e : Event) : AllocM Unit := modify (·.push e)

end AllocM

/-! ## Placing one interval -/

structure Placement where
  interval : LiveInterval
  reg : Nat
  deriving DecidableEq

structure Scan where
  pool : Pool
  /-- The intervals that hold a register, by their last position. -/
  active : List Placement := []
  /-- The registers assigned so far, in order. -/
  placed : List (Nat × Nat) := []
  /-- The most intervals that were active at once. -/
  peak : Nat := 0
  deriving DecidableEq

namespace Scan

/-- Gives back the registers of the intervals that ended before `start`. -/
def expire (s : Scan) (start : Nat) : AllocM Scan := do
  let ended := s.active.takeWhile (·.interval.stop < start)
  ended.forM fun p => AllocM.log (.expired p.interval.vreg p.reg)
  return { s with
    pool := ended.foldl (fun pool p => pool.release p.reg) s.pool
    active := s.active.dropWhile (·.interval.stop < start) }

/-- Adds a placement after those that end no later. -/
def activate (p : Placement) : List Placement → List Placement
  | [] => [p]
  | q :: rest =>
      if q.interval.stop ≤ p.interval.stop then q :: activate p rest else p :: q :: rest

/-- Places the next interval. -/
def place (s : Scan) (i : LiveInterval) : AllocM Scan := do
  let s ← s.expire i.start
  match s.pool.take? with
  | none =>
      let candidate := (s.active.getLast?.map (·.interval.vreg)).getD i.vreg
      AllocM.log (.unplaced i.vreg i.start s.active.length candidate)
      throw (.poolExhausted i.vreg i.start s.active.length candidate)
  | some (reg, pool) =>
      AllocM.log (.placed i.vreg i.start i.stop reg)
      let active := activate { interval := i, reg } s.active
      return {
        pool, active
        placed := s.placed ++ [(i.vreg, reg)]
        peak := max s.peak active.length }

/-- Places all intervals, in order of their start. -/
def run (registers : Nat) (intervals : List LiveInterval) : AllocM Scan := do
  let pool ← AllocM.ofExcept (Pool.full registers)
  (LiveInterval.sorted intervals).foldlM place { pool }

end Scan

/-- The register of each interval, in order of allocation. -/
def assign (s : Settings) (intervals : List LiveInterval) : AllocM (List (Nat × Nat)) := do
  AllocM.ofExcept s.check
  return (← Scan.run s.registers intervals).placed

/-! ## Whole streams -/

structure Allocation where
  assignments : List (Nat × Nat)
  intervals : List LiveInterval
  peak : Nat
  deriving DecidableEq

def Allocation.reg? (a : Allocation) (vreg : Nat) : Option Nat :=
  a.assignments.lookup vreg

/-- Binds the virtual register `vreg` to `reg`, and leaves all others as they are. -/
def VirtualReg.assign (vreg reg : Nat) (r : VirtualReg) : VirtualReg :=
  if r.index = vreg then { r with phys := some reg } else r

namespace Stream

/-- Binds the mentions of `vreg` in the span of an interval. -/
def bindSpan (s : Stream) (i : LiveInterval) (vreg reg : Nat) : Stream :=
  (List.range' i.start (i.stop + 1 - i.start)).foldl
    (fun s position => s.modify position (·.mapRegs (VirtualReg.assign vreg reg))) s

/-- Binds one register after the other, each in the span that it is paired with. -/
def bindSpans (s : Stream) (spans : List (LiveInterval × Nat × Nat)) : Stream :=
  spans.foldl (fun s (i, vreg, reg) => s.bindSpan i vreg reg) s

end Stream

/-- A stream while it is allocated, with the events so far. -/
structure Draft where
  stream : Stream
  trace : Trace := #[]
  deriving DecidableEq

abbrev DraftM := EStateM Error Draft

/-- The scan has no access to the stream. -/
instance : MonadLift AllocM DraftM where
  monadLift x := fun d =>
    match x d.trace with
    | .ok a trace => .ok a { d with trace }
    | .error e trace => .error e { d with trace }

/-- Assigns a register to every virtual register of a stream and binds all mentions of it. -/
def allocateInPlace (s : Settings) : DraftM Allocation := do
  AllocM.ofExcept s.check
  let intervals := liveIntervals (← get).stream
  AllocM.log (.measured intervals.length)
  let scan ← Scan.run s.registers intervals
  modify fun d => { d with stream := d.stream.bindSpans (intervals.zip scan.placed) }
  AllocM.log (.allocated scan.placed.length s.registers scan.peak)
  return { assignments := scan.placed, intervals, peak := scan.peak }

/-- The allocation of a stream that is handed in, and the stream with its registers bound. -/
def allocate (s : Settings) (stream : Stream) : AllocM (Allocation × Stream) := fun trace =>
  match allocateInPlace s { stream, trace } with
  | .ok allocation d => .ok (allocation, d.stream) d.trace
  | .error e d => .error e d.trace

end Codegen
