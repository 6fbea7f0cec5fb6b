import Codegen.Allocation
import Codegen.Reduction

/-!
# Compile — from trees to allocated instructions

Every tree of a function is selected in order; then the whole stream is allocated.
-/

namespace Codegen

structure Compiled where
  stream : Stream
  allocation : Allocation
  stats : Stats
  deriving DecidableEq

namespace Target

/-- The state of a first function over an arena. -/
def start (t : Target) (arena : Arena) : Selection :=
  { arena, trace := #[t.built] }

/-- Allocates a stream, which itself stays as it was. -/
def allocate (t : Target) (stream : Stream) : SelectM (Allocation × Stream) := fun s =>
  match Codegen.allocate t.settings stream s.trace with
  | .ok result trace => .ok result { s with trace }
  | .error e trace => .error (.error e) { s with trace }

/-- Selects the trees of a function in order and allocates its stream. -/
def compile (t : Target) (roots : List NodeId) : SelectM Compiled := do
  roots.forM fun root => discard (t.selectRoot root)
  let s ← get
  let (allocation, stream) ← t.allocate s.stream
  SelectM.log (.compiled s.stats.trees stream.size s.stats.vregs)
  return { stream, allocation, stats := s.stats }

end Target

end Codegen
