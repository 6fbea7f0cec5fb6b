import Codegen.Error

/-!
# Settings — the limits of a compilation

The number of allocatable registers and the number of rules a grammar may have.
-/

namespace Codegen

structure Settings where
  registers : Nat := 8
  ruleLimit : Nat := 256
  deriving DecidableEq

namespace Settings

/-- Refuses a register count that no pool can hold, then an empty allowance of rules. -/
def check (s : Settings) : Except Error Unit :=
  if s.registers = 0 ∨ registerLimit < s.registers then
    .error (.invalidSettings (.registers s.registers))
  else if s.ruleLimit = 0 then
    .error (.invalidSettings .ruleLimit)
  else
    .ok ()

theorem check_eq_ok_iff (s : Settings) :
    s.check = .ok () ↔ 1 ≤ s.registers ∧ s.registers ≤ registerLimit ∧ 1 ≤ s.ruleLimit := by
  unfold check
  split
  · simp
    omega
  · split
    · simp
      omega
    · simp
      omega

end Settings

end Codegen
