import Codegen.Error

/-!
# Pool — the allocatable registers that are free

A set of register numbers below a size of at most 64, one bit for each.  The lowest free number is
always taken first.

What a shift by the width of a word or more comes to depends on the machine, and it may be a trap.
So each operation is written over the shift that it uses, and taken here for the shift that drops
every bit it moves out of the word.
-/

namespace Codegen

structure Pool where
  free : BitVec 64
  size : Nat
  deriving DecidableEq

namespace Pool

/-- The word whose only bit is at `amount`. -/
def oneAt (amount : Nat) : BitVec 64 := 1#64 <<< amount

/-- The position of the lowest bit of a word. -/
def lowest? (w : BitVec 64) : Option Nat := (List.range 64).find? w.getLsbD

/-! ## Operations over a shift -/

section Shift

variable {m : Type → Type} [Monad m] (shift : Nat → m (BitVec 64))

def fullBy (size : Nat) : m (Except Error Pool) := do
  if size = 0 ∨ registerLimit < size then
    return .error (.invalidSettings (.poolSize size))
  else if size = registerLimit then
    return .ok { free := BitVec.allOnes 64, size }
  else
    return .ok { free := (← shift size) - 1, size }

def hasBy (p : Pool) (reg : Nat) : m Bool := do
  if reg < p.size then
    return p.free &&& (← shift reg) != 0
  else
    return false

def takeBy (p : Pool) : m (Option (Nat × Pool)) := do
  match lowest? p.free with
  | none => return none
  | some reg => return some (reg, { p with free := p.free &&& ~~~(← shift reg) })

def releaseBy (p : Pool) (reg : Nat) : m Pool := do
  if reg < p.size then
    return { p with free := p.free ||| (← shift reg) }
  else
    return p

end Shift

/-! ## Operations -/

/-- The pool of all registers below `size`. -/
def full (size : Nat) : Except Error Pool := Id.run (fullBy (pure <| oneAt ·) size)

def has (p : Pool) (reg : Nat) : Bool := Id.run (p.hasBy (pure <| oneAt ·) reg)

def available (p : Pool) : Nat := (List.range 64).countP p.free.getLsbD

/-- Takes the lowest free register. -/
def take? (p : Pool) : Option (Nat × Pool) := Id.run (p.takeBy (pure <| oneAt ·))

/-- Gives a register back; a number outside the pool is ignored. -/
def release (p : Pool) (reg : Nat) : Pool := Id.run (p.releaseBy (pure <| oneAt ·) reg)

end Pool

end Codegen
