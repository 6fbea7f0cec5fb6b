import Codegen.Compile
import Codegen.X64.Rules

/-!
# Report — a sample function, compiled and listed

The sample is two statements, `*(p + 8) = f(x * 3, y / z) + 1` and `r = p < 100`.  The report lists
its instructions, its live intervals with their registers, and the counts.
-/

namespace Codegen
namespace Report

/-- The nodes of the sample function. -/
def sample : Arena :=
  { nodes := #[
      .var ⟨"p", -8⟩, .literal 8, .binary .add 0 1, .deref 2,
      .var ⟨"x", -16⟩, .literal 3, .binary .mul 4 5,
      .var ⟨"y", -24⟩, .var ⟨"z", -32⟩, .binary .div 7 8,
      .call "f" [6, 9], .literal 1, .binary .add 10 11, .assign 3 12,
      .var ⟨"r", -40⟩, .var ⟨"p", -8⟩, .literal 100, .compare .lt 15 16, .assign 14 17] }

/-- The two statements of the sample function. -/
def sampleRoots : List NodeId := [13, 18]

open Text

def instrLine (position : Nat) (i : Instr) : String :=
  let dst := orNone (i.dst.map Operand.dump)
  let src := orNone (i.src.map Operand.dump)
  s!"  [{column 3 position}] {i.opcode.name} {dst}, {src}\n"

def intervalLine (a : Allocation) (i : LiveInterval) : String :=
  let reg := orNone ((a.reg? i.vreg).map physReg)
  s!"  v{i.vreg} [{i.start}, {i.stop}] -> {reg}\n"

def listing (c : Compiled) : String :=
  "\nInstructions:\n" ++
    String.join (c.stream.toList.zipIdx.map fun (i, position) => instrLine position i) ++
    "\nLive intervals:\n" ++
    String.join (c.allocation.intervals.map (intervalLine c.allocation)) ++
    s!"\nPeak pressure: {c.allocation.peak}\n" ++ "\n" ++ c.stats.text ++ "\n"

/-- What a run leaves behind: its exit code, its two outputs, and the events on the way. -/
structure Outcome where
  code : Nat
  output : String
  errors : String
  trace : Trace

/-- How a failure is told. -/
def complaint : Failure → String
  | .error e => s!"error: {e.message}\n"
  | .fault _ => "error: broken tree\n"

/-- Compiles the sample function with a number of registers. -/
def run (registers : Nat) : Outcome :=
  match Target.x64 { registers } with
  | .error e => { code := 1, output := "", errors := complaint (.error e), trace := #[] }
  | .ok t =>
      let title := s!"rule set: {t.grammar.size} rules, automaton: {t.automaton.size} states\n"
      match t.compile sampleRoots (t.start sample) with
      | .ok c s => { code := 0, output := title ++ listing c, errors := "", trace := s.trace }
      | .error e s => { code := 1, output := title, errors := complaint e, trace := s.trace }

end Report
end Codegen
