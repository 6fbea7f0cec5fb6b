import Codegen.Proofs.Machine
import Mathlib.Algebra.Group.Int.Defs

/-!
# X64Machine — x86-64 instructions on 64-bit words

The opcodes with two operands combine them in place.  `idiv` divides the double word in `rdx:rax`
and traps where the quotient is out of range; `cqo` fills `rdx` with the sign of `rax`; a shift
takes its count modulo 64; `set` writes the low byte of its destination only, from the flags of the
last comparison.  The flags of other instructions, pushes and calls are left out: testing or running
them traps.

* `X64.interpretation` : the opcodes, over a sign extension `extend`
* `Machine.addressOf`, `Machine.contents?` : operands where each register has a cell of its own
* `step_*` : what single instructions do
-/

namespace Codegen

/-! ## Opcodes -/

/-- The operands of the last comparison, if its flags are still there. -/
abbrev Flags := Option (Word × Word)

/-- Whether the flags of comparing two words fulfill a condition. -/
def Condition.holds : Condition → Word → Word → Bool
  | .e, x, y => x == y
  | .ne, x, y => x != y
  | .l, x, y => x.slt y
  | .le, x, y => x.sle y
  | .g, x, y => y.slt x
  | .ge, x, y => y.sle x

/-- The word that an operand's value reads as. -/
def Machine.Value.contents? : Machine.Value → Option Word
  | .word w => some w
  | .cell _ contents => some contents
  | .symbol _ => none

namespace X64

open Machine

abbrev State := Machine.State Flags Unit

/-- The quotient and remainder of the double word `high:low`, unless the divisor is zero or the
quotient is out of range. -/
def divide? (high low divisor : Word) : Option (Word × Word) :=
  let dividend := (high ++ low).toInt
  let quotient := dividend.tdiv divisor.toInt
  if divisor = 0 ∨ quotient < -2 ^ 63 ∨ 2 ^ 63 ≤ quotient then
    none
  else
    some (BitVec.ofInt 64 quotient, BitVec.ofInt 64 (dividend.tmod divisor.toInt))

/-- The opcodes that combine destination and source, as functions. -/
def combine? : Opcode → Option (Word → Word → Word)
  | .add => some (· + ·)
  | .sub => some (· - ·)
  | .imul => some (· * ·)
  | .and => some (· &&& ·)
  | .or => some (· ||| ·)
  | .xor => some (· ^^^ ·)
  | .shl => some fun x y => x <<< (y.toNat % 64)
  | .sar => some fun x y => x.sshiftRight (y.toNat % 64)
  | _ => none

def run (extend : Word → Word) (op : Opcode) (dst src : Option Value) (w : World Flags Unit) :
    Option (Word × World Flags Unit) :=
  let read (v : Option Value) : Option Word := v.bind Value.contents?
  match op with
  | .mov => (read src).map fun v => (v, w)
  | .movsx => (read src).map fun v => (extend v, w)
  | .lea =>
      match src with
      | some (.cell address _) => some (address, w)
      | _ => none
  | .neg => (read dst).map fun x => (-x, { w with flags := none })
  | .not => (read dst).map fun x => (~~~x, w)
  | .cmp => do
      let x ← read dst
      let y ← read src
      return (x, { w with flags := some (x, y) })
  | .set c => do
      let x ← read dst
      let (y, z) ← w.flags
      return ((x &&& ~~~255) ||| (if c.holds y z then 1 else 0), w)
  | .cqo =>
      let high := if (w.fixed .rax).msb then BitVec.allOnes 64 else 0
      some (high, { w with fixed := Function.update w.fixed .rdx high })
  | .idiv => do
      let x ← read dst
      let (quotient, remainder) ← divide? (w.fixed .rdx) (w.fixed .rax) x
      let fixed := Function.update (Function.update w.fixed .rax quotient) .rdx remainder
      return (quotient, { w with fixed, flags := none })
  | .push | .call => none
  | op => do
      let f ← combine? op
      let x ← read dst
      let y ← read src
      return (f x y, { w with flags := none })

def interpretation (extend : Word → Word) : Interpretation Flags Unit := ⟨run extend⟩

section Run

variable {extend : Word → Word} {dst src : Option Value} {w : World Flags Unit}

@[simp] theorem run_mov :
    (interpretation extend).run .mov dst src w =
      (src.bind Value.contents?).map fun v => (v, w) := rfl

@[simp] theorem run_movsx :
    (interpretation extend).run .movsx dst src w =
      (src.bind Value.contents?).map fun v => (extend v, w) := rfl

@[simp] theorem run_lea {address contents : Word} :
    (interpretation extend).run .lea dst (some (.cell address contents)) w =
      some (address, w) := rfl

@[simp] theorem run_neg :
    (interpretation extend).run .neg dst src w =
      (dst.bind Value.contents?).map fun x => (-x, { w with flags := none }) := rfl

@[simp] theorem run_not :
    (interpretation extend).run .not dst src w =
      (dst.bind Value.contents?).map fun x => (~~~x, w) := rfl

@[simp] theorem run_cmp :
    (interpretation extend).run .cmp dst src w =
      (dst.bind Value.contents?).bind fun x => (src.bind Value.contents?).bind fun y =>
        some (x, { w with flags := some (x, y) }) := rfl

@[simp] theorem run_set {c : Condition} :
    (interpretation extend).run (.set c) dst src w =
      (dst.bind Value.contents?).bind fun x => w.flags.bind fun (y, z) =>
        some ((x &&& ~~~255) ||| (if c.holds y z then 1 else 0), w) := rfl

@[simp] theorem run_cqo :
    (interpretation extend).run .cqo dst src w =
      some (if (w.fixed .rax).msb then BitVec.allOnes 64 else 0, { w with
        fixed := Function.update w.fixed .rdx
          (if (w.fixed .rax).msb then BitVec.allOnes 64 else 0) }) := rfl

@[simp] theorem run_idiv :
    (interpretation extend).run .idiv dst src w =
      (dst.bind Value.contents?).bind fun x =>
        (divide? (w.fixed .rdx) (w.fixed .rax) x).bind fun (quotient, remainder) =>
          some (quotient, { w with
            fixed := Function.update (Function.update w.fixed .rax quotient) .rdx remainder
            flags := none }) := rfl

theorem run_of_combine? {op : Opcode} {f : Word → Word → Word} (hop : combine? op = some f) :
    (interpretation extend).run op dst src w =
      (dst.bind Value.contents?).bind fun x => (src.bind Value.contents?).bind fun y =>
        some (f x y, { w with flags := none }) := by
  cases op <;> cases hop <;> rfl

/-- The opcodes that combine read their destination and write it. -/
theorem dst_of_combine? {op : Opcode} {f : Word → Word → Word} (hop : combine? op = some f) :
    op.readsDst = true ∧ op.writesDst = true := by
  cases op <;> cases hop <;> exact ⟨rfl, rfl⟩

end Run

theorem toInt_sign_append (x : Word) :
    ((if x.msb then BitVec.allOnes 64 else 0) ++ x).toInt = x.toInt := by
  rw [BitVec.toInt_append, BitVec.toInt_eq_msb_cond x]
  cases x.msb
  · simp
  · have hones : (BitVec.allOnes 64).toInt = -1 := by decide
    simp only [if_true, hones]
    simp
    omega

/-- Dividing a word that is filled up with its sign is signed division. -/
theorem divide?_sign {x y : Word} (hzero : y ≠ 0) (hover : ¬ (x = BitVec.intMin 64 ∧ y = -1)) :
    divide? (if x.msb then BitVec.allOnes 64 else 0) x y = some (x.sdiv y, x.srem y) := by
  have hquotient : x.toInt.tdiv y.toInt = (x.sdiv y).toInt := by
    refine (BitVec.toInt_sdiv_of_ne_or_ne x y ?_).symm
    by_cases hx : x = BitVec.intMin 64
    · exact .inr fun hy => hover ⟨hx, hy⟩
    · exact .inl hx
  have hlow := BitVec.le_toInt (x.sdiv y)
  have hhigh := BitVec.toInt_lt (x := x.sdiv y)
  unfold divide?
  simp only [toInt_sign_append, hquotient, ← BitVec.toInt_srem, BitVec.ofInt_toInt]
  rw [if_neg]
  rintro (h | h | h)
  · exact hzero h
  · omega
  · omega

end X64

/-! ## Operands with a cell of their own -/

namespace Machine

variable {F E : Type} {s : State F E}

def addressOf (s : State F E) (a : Address) : Word :=
  match a.base with
  | .absolute => BitVec.ofInt 64 a.disp
  | .framePointer => s.world.fixed .rbp + BitVec.ofInt 64 a.disp
  | .reg r => s.file r.index + BitVec.ofInt 64 a.disp

/-- The word that an operand reads as. -/
def contents? (s : State F E) : Operand → Option Word
  | .vreg r => some (s.file r.index)
  | .mem a => some (s.world.memory (addressOf s a))
  | .imm v => some (BitVec.ofInt 64 v)
  | .fixed r => some (s.world.fixed r)
  | .symbol _ => none

theorem address?_byIndex (a : Address) : address? byIndex s a = some (addressOf s a) := by
  rcases a with ⟨base, disp⟩
  cases base <;> rfl

/-- Where a written operand keeps its value. -/
def sinkOf (s : State F E) : Operand → Sink
  | .vreg r => .cell r.index
  | .mem a => .memory (addressOf s a)
  | .fixed r => .fixed r
  | .imm _ | .symbol _ => .nowhere

theorem sink?_byIndex (o : Operand) : sink? byIndex s o = some (sinkOf s o) := by
  cases o with
  | mem a =>
      rw [sink?, address?_byIndex]
      rfl
  | _ => rfl

theorem exists_value?_byIndex (o : Operand) :
    ∃ v, value? byIndex s o = some v ∧ v.contents? = contents? s o := by
  cases o with
  | mem a =>
      refine ⟨.cell (addressOf s a) (s.world.memory (addressOf s a)), ?_, rfl⟩
      rw [value?, address?_byIndex]
      rfl
  | _ => exact ⟨_, rfl, rfl⟩

theorem step_eq {I : Interpretation F E} {i : Instr} {src dst : Option Value} {k : Sink}
    (hsrc : srcValue? byIndex s i = some src) (hsink : dstSink? byIndex s i = some k)
    (hdst : dstValue? byIndex s i = some dst) :
    step I byIndex i s = (I.run i.opcode dst src s.world).map fun (v, world) =>
      { s with world }.put v (if i.opcode.writesDst then k else .nowhere) := by
  unfold step access?
  rw [hsrc, hsink, hdst]
  cases h : I.run i.opcode dst src s.world with
  | none => simp [h]
  | some r => simp [h]

/-- An instruction with two operands reads the source, and the destination if its opcode does. -/
theorem step_binary (I : Interpretation F E) (op : Opcode) (dst src : Operand) :
    ∃ x y : Value, x.contents? = contents? s dst ∧ y.contents? = contents? s src ∧
      value? byIndex s src = some y ∧
      step I byIndex (.binary op dst src) s =
        (I.run op (if op.readsDst then some x else none) (some y) s.world).map fun (v, world) =>
          { s with world }.put v (if op.writesDst then sinkOf s dst else .nowhere) := by
  rcases exists_value?_byIndex (s := s) dst with ⟨x, hx, hxc⟩
  rcases exists_value?_byIndex (s := s) src with ⟨y, hy, hyc⟩
  refine ⟨x, y, hxc, hyc, hy, step_eq ?_ ?_ ?_⟩
  · simp [srcValue?, Instr.binary, hy]
  · simp [dstSink?, Instr.binary, sink?_byIndex]
  · simp only [dstValue?, Instr.binary]
    by_cases hreads : op.readsDst = true <;> simp [hreads, hx]

/-- So does an instruction with one operand. -/
theorem step_unary (I : Interpretation F E) (op : Opcode) (dst : Operand) :
    ∃ x : Value, x.contents? = contents? s dst ∧
      step I byIndex (.unary op dst) s =
        (I.run op (if op.readsDst then some x else none) none s.world).map fun (v, world) =>
          { s with world }.put v (if op.writesDst then sinkOf s dst else .nowhere) := by
  rcases exists_value?_byIndex (s := s) dst with ⟨x, hx, hxc⟩
  refine ⟨x, hxc, step_eq ?_ ?_ ?_⟩
  · simp [srcValue?, Instr.unary]
  · simp [dstSink?, Instr.unary, sink?_byIndex]
  · simp only [dstValue?, Instr.unary]
    by_cases hreads : op.readsDst = true <;> simp [hreads, hx]

end Machine

/-! ## Single instructions -/

namespace X64

open Machine

variable {extend : Word → Word} {s : State} {dst src : Operand} {x y : Word}

theorem step_move (hy : contents? s src = some y) :
    step (interpretation extend) byIndex (.move dst src) s = some (s.put y (sinkOf s dst)) := by
  rcases step_binary (s := s) (interpretation extend) .mov dst src with ⟨a, b, -, hb, -, hstep⟩
  rw [Instr.move, hstep]
  simp +decide [hb, hy]

theorem step_movsx (hy : contents? s src = some y) :
    step (interpretation extend) byIndex (.binary .movsx dst src) s =
      some (s.put (extend y) (sinkOf s dst)) := by
  rcases step_binary (s := s) (interpretation extend) .movsx dst src with ⟨a, b, -, hb, -, hstep⟩
  rw [hstep]
  simp +decide [hb, hy]

theorem step_lea (a : Address) :
    step (interpretation extend) byIndex (.binary .lea dst (.mem a)) s =
      some (s.put (addressOf s a) (sinkOf s dst)) := by
  rcases step_binary (s := s) (interpretation extend) .lea dst (.mem a) with
    ⟨_, b, -, -, hb, hstep⟩
  rw [value?, address?_byIndex] at hb
  cases hb
  rw [hstep]
  simp +decide

theorem step_combine {op : Opcode} {f : Word → Word → Word} (hop : combine? op = some f)
    (hx : contents? s dst = some x) (hy : contents? s src = some y) :
    step (interpretation extend) byIndex (.binary op dst src) s =
      some ({ s with world := { s.world with flags := none } }.put (f x y) (sinkOf s dst)) := by
  rcases step_binary (s := s) (interpretation extend) op dst src with ⟨a, b, ha, hb, -, hstep⟩
  rw [hstep]
  rcases dst_of_combine? hop with ⟨hreads, hwrites⟩
  simp [run_of_combine? hop, hreads, hwrites, ha, hb, hx, hy]

theorem step_neg (hx : contents? s dst = some x) :
    step (interpretation extend) byIndex (.unary .neg dst) s =
      some ({ s with world := { s.world with flags := none } }.put (-x) (sinkOf s dst)) := by
  rcases step_unary (s := s) (interpretation extend) .neg dst with ⟨a, ha, hstep⟩
  rw [hstep]
  simp +decide [ha, hx]

theorem step_not (hx : contents? s dst = some x) :
    step (interpretation extend) byIndex (.unary .not dst) s =
      some (s.put (~~~x) (sinkOf s dst)) := by
  rcases step_unary (s := s) (interpretation extend) .not dst with ⟨a, ha, hstep⟩
  rw [hstep]
  simp +decide [ha, hx]

theorem step_cmp (hx : contents? s dst = some x) (hy : contents? s src = some y) :
    step (interpretation extend) byIndex (.binary .cmp dst src) s =
      some { s with world := { s.world with flags := some (x, y) } } := by
  rcases step_binary (s := s) (interpretation extend) .cmp dst src with ⟨a, b, ha, hb, -, hstep⟩
  rw [hstep]
  simp +decide [ha, hb, hx, hy, State.put]

theorem step_set {c : Condition} {z : Word} (hx : contents? s dst = some x)
    (hflags : s.world.flags = some (y, z)) :
    step (interpretation extend) byIndex (.unary (.set c) dst) s =
      some (s.put ((x &&& ~~~255) ||| (if c.holds y z then 1 else 0)) (sinkOf s dst)) := by
  rcases step_unary (s := s) (interpretation extend) (.set c) dst with ⟨a, ha, hstep⟩
  rw [hstep]
  have hreads : (Opcode.set c).readsDst = true := rfl
  have hwrites : (Opcode.set c).writesDst = true := rfl
  simp [hreads, hwrites, ha, hx, hflags]

theorem step_cqo :
    step (interpretation extend) byIndex (.bare .cqo) s =
      some { s with world := { s.world with
        fixed := Function.update s.world.fixed .rdx
          (if (s.world.fixed .rax).msb then BitVec.allOnes 64 else 0) } } := by
  have hstep := step_eq (s := s) (I := interpretation extend) (i := .bare .cqo) rfl rfl rfl
  rw [hstep]
  simp +decide [Instr.bare, State.put]

theorem step_idiv {quotient remainder : Word} (hx : contents? s dst = some x)
    (hdivide : divide? (s.world.fixed .rdx) (s.world.fixed .rax) x = some (quotient, remainder)) :
    step (interpretation extend) byIndex (.unary .idiv dst) s =
      some { s with world := { s.world with
        fixed := Function.update (Function.update s.world.fixed .rax quotient) .rdx remainder
        flags := none } } := by
  rcases step_unary (s := s) (interpretation extend) .idiv dst with ⟨a, ha, hstep⟩
  rw [hstep]
  simp +decide [ha, hx, hdivide, State.put]

end X64
end Codegen
