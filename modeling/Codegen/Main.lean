import Codegen.Report

/-!
# Main — the command line

Prints the report on the sample function.  `--registers N` sets the number of registers, and
`--verbose` shows the events of the run first.
-/

namespace Codegen

structure Options where
  registers : Nat := 8
  verbose : Bool := false

namespace Options

/-- A number in base ten, a plus sign in front allowed, of at most 64 bits. -/
def number? (text : String) : Option Nat :=
  let digits := match text.toList with
    | '+' :: rest => rest
    | cs => cs
  let value := digits.foldl (fun n c => 10 * n + (c.toNat - '0'.toNat)) 0
  if !digits.isEmpty && digits.all Char.isDigit && value < 0x10000000000000000 then
    some value
  else
    none

/-- Splits an option from a value written in the same word. -/
def words (arg : String) : List String :=
  match arg.toList with
  | '-' :: '-' :: rest =>
      match rest.span (· ≠ '=') with
      | (name, '=' :: value) => ["--" ++ String.ofList name, String.ofList value]
      | _ => [arg]
  | '-' :: 'r' :: '=' :: value => ["-r", String.ofList value]
  | '-' :: 'r' :: c :: value => ["-r", String.ofList (c :: value)]
  | _ => [arg]

/-- Reads the words of a command line; the error is what to tell the user. -/
def parse (o : Options) : List String → Except String Options
  | [] => .ok o
  | "--verbose" :: rest | "-v" :: rest => parse { o with verbose := true } rest
  | "--registers" :: value :: rest | "-r" :: value :: rest =>
      match number? value with
      | some registers => parse { o with registers } rest
      | none => .error s!"not a number of registers: {value}"
  | other :: _ => .error s!"unknown or incomplete option: {other}"

end Options

end Codegen

open Codegen in
def main (args : List String) : IO UInt32 := do
  match Options.parse {} (args.flatMap Options.words) with
  | .error message =>
      IO.eprintln message
      return 2
  | .ok options =>
      let outcome := Report.run options.registers
      if options.verbose then
        for e in outcome.trace do
          IO.eprintln s!"{e.level.name} {e.text}"
      IO.print outcome.output
      IO.eprint outcome.errors
      return outcome.code.toUInt32
