import Codegen.Proofs.Evaluation
import Codegen.Proofs.X64Machine
import Codegen.X64.Emit

/-!
# Emission — what the emitted sequences compute

A sequence that is emitted for a node computes in fresh registers.  It leaves the registers issued
before as they were, and of the fixed registers it writes `rax`, `rcx` and `rdx` only; so operands
that were read off the tree earlier keep their meaning.

* `X64.Kept`       : what a sequence leaves alone
* `Operand.Usable` : operands that mention registers issued before
* `X64.Leaves`     : a sequence leaves a word in a register
* `leaves_*`       : one statement for each emitted sequence
-/

namespace Codegen

/-- The operand stands for a value, and the register it mentions is below `k`. -/
def Operand.Usable (k : Nat) : Operand → Prop
  | .vreg r => r.index < k
  | .mem ⟨.reg r, _⟩ => r.index < k
  | .mem _ | .imm _ => True
  | .fixed _ | .symbol _ => False

theorem Operand.Usable.mono {k k' : Nat} (hle : k ≤ k') {o : Operand} (h : o.Usable k) :
    o.Usable k' := by
  cases o with
  | vreg r => exact Nat.lt_of_lt_of_le h hle
  | mem a =>
      rcases a with ⟨base, disp⟩
      cases base with
      | reg r => exact Nat.lt_of_lt_of_le h hle
      | _ => trivial
  | imm v => trivial
  | fixed r => exact h
  | symbol name => exact h

namespace X64

open Machine

/-! ## What a sequence leaves alone -/

/-- The registers below `k` and the fixed registers other than `rax`, `rcx` and `rdx` are as they
were. -/
structure Kept (k : Nat) (s s' : State) : Prop where
  file : ∀ i < k, s'.file i = s.file i
  fixed : ∀ r, r ≠ .rax → r ≠ .rcx → r ≠ .rdx → s'.world.fixed r = s.world.fixed r

namespace Kept

variable {k k' : Nat} {s s' s'' : State}

theorem refl (k : Nat) (s : State) : Kept k s s := ⟨fun _ _ => rfl, fun _ _ _ _ => rfl⟩

theorem trans (h : Kept k s s') (h' : Kept k s' s'') : Kept k s s'' where
  file i hi := (h'.file i hi).trans (h.file i hi)
  fixed r hax hcx hdx := (h'.fixed r hax hcx hdx).trans (h.fixed r hax hcx hdx)

theorem mono (hle : k ≤ k') (h : Kept k' s s') : Kept k s s' where
  file i hi := h.file i (Nat.lt_of_lt_of_le hi hle)
  fixed := h.fixed

theorem addressOf (h : Kept k s s') {a : Address} (ha : Operand.Usable k (.mem a)) :
    Machine.addressOf s' a = Machine.addressOf s a := by
  rcases a with ⟨base, disp⟩
  cases base with
  | absolute => rfl
  | framePointer =>
      have hrbp := h.fixed .rbp (by decide) (by decide) (by decide)
      simp only [Machine.addressOf, hrbp]
  | reg r =>
      have hr := h.file r.index ha
      simp only [Machine.addressOf, hr]

theorem contents? (h : Kept k s s') (hmemory : s'.world.memory = s.world.memory) {o : Operand}
    (ho : o.Usable k) : contents? s' o = contents? s o := by
  cases o with
  | vreg r =>
      have hr := h.file r.index ho
      simp only [Machine.contents?, hr]
  | mem a => simp only [Machine.contents?, hmemory, h.addressOf ho]
  | imm v => rfl
  | fixed r => exact absurd ho not_false
  | symbol name => exact absurd ho not_false

/-- Writing a register that is not below `k`. -/
theorem put_cell {d : Nat} (hd : k ≤ d) (s : State) (v : Word) : Kept k s (s.put v (.cell d)) where
  file i hi := by
    have hne : i ≠ d := by omega
    simp [State.put, hne]
  fixed _ _ _ _ := rfl

theorem put_cell_flags {d : Nat} (hd : k ≤ d) (s : State) (flags : Flags) (v : Word) :
    Kept k s ({ s with world := { s.world with flags } }.put v (.cell d)) where
  file := (put_cell hd s v).file
  fixed _ _ _ _ := rfl

/-- Writing one of the registers that no operand refers to. -/
theorem put_scratch {r : MachineReg} (s : State) (v : Word)
    (hr : r = .rax ∨ r = .rcx ∨ r = .rdx) : Kept k s (s.put v (.fixed r)) where
  file _ _ := rfl
  fixed r' hax hcx hdx := by
    have hne : r' ≠ r := by grind
    simp [State.put, hne]

end Kept

/-! ## Sequences -/

/-- Running `code` ends in a state with memory `m` that has `P` and keeps what is below `k`. -/
def Reaches (extend : Word → Word) (code : List Instr) (k : Nat) (s : State) (m : Memory)
    (P : State → Prop) : Prop :=
  ∃ s', exec (interpretation extend) byIndex code s = some s' ∧ s'.world.memory = m ∧ Kept k s s' ∧
    P s'

namespace Reaches

variable {extend : Word → Word} {code rest : List Instr} {k k' : Nat} {s : State} {m m' : Memory}
  {P Q : State → Prop}

theorem nil (h : P s) : Reaches extend [] k s s.world.memory P := ⟨s, rfl, rfl, .refl k s, h⟩

theorem append (h : Reaches extend code k s m P)
    (hrest : ∀ s', s'.world.memory = m → Kept k s s' → P s' → Reaches extend rest k s' m' Q) :
    Reaches extend (code ++ rest) k s m' Q := by
  rcases h with ⟨s₁, hexec, hmemory, hkept, hP⟩
  rcases hrest s₁ hmemory hkept hP with ⟨s₂, hexec', hmemory', hkept', hQ⟩
  refine ⟨s₂, ?_, hmemory', hkept.trans hkept', hQ⟩
  rw [exec_append, hexec]
  exact hexec'

theorem mono (hle : k ≤ k') (hsub : ∀ s', s'.world.memory = m → P s' → Q s')
    (h : Reaches extend code k' s m P) : Reaches extend code k s m Q := by
  rcases h with ⟨s', hexec, hmemory, hkept, hP⟩
  exact ⟨s', hexec, hmemory, hkept.mono hle, hsub s' hmemory hP⟩

end Reaches

/-- Running `code` leaves `v` in register `d`, the memory as it was, and what is below `k`. -/
abbrev Leaves (extend : Word → Word) (code : List Instr) (s : State) (d k : Nat) (v : Word) :
    Prop :=
  Reaches extend code k s s.world.memory fun s' => s'.file d = v

variable {extend : Word → Word} {s : State} {d : VirtualReg} {k : Nat} {x y v : Word}
  {lhs rhs src : Operand}

theorem exec_cons {i : Instr} {code : List Instr} {s s₁ : State}
    (h : step (interpretation extend) byIndex i s = some s₁) :
    exec (interpretation extend) byIndex (i :: code) s =
      exec (interpretation extend) byIndex code s₁ := by
  rw [exec, h]
  rfl

theorem file_put_cell (s : State) (v : Word) (i : Nat) : (s.put v (.cell i)).file i = v := by
  simp [State.put]

theorem leaves_move (hd : k ≤ d.index) (hx : contents? s src = some x) :
    Leaves extend [.move (.vreg d) src] s d.index k x :=
  ⟨s.put x (.cell d.index), exec_cons (step_move hx), rfl, .put_cell hd s x,
    file_put_cell s x d.index⟩

theorem leaves_movsx (hd : k ≤ d.index) (hx : contents? s src = some x) :
    Leaves extend [.binary .movsx (.vreg d) src] s d.index k (extend x) :=
  ⟨s.put (extend x) (.cell d.index), exec_cons (step_movsx hx), rfl, .put_cell hd s _,
    file_put_cell s _ d.index⟩

theorem leaves_lea (hd : k ≤ d.index) (a : Address) :
    Leaves extend [.binary .lea (.vreg d) (.mem a)] s d.index k (Machine.addressOf s a) :=
  ⟨s.put (Machine.addressOf s a) (.cell d.index), exec_cons (step_lea a), rfl, .put_cell hd s _,
    file_put_cell s _ d.index⟩

theorem reaches_store (addr : Address) (hx : contents? s src = some x) :
    Reaches extend [.move (.mem addr) src] k s
      (Function.update s.world.memory (Machine.addressOf s addr) x) fun s' => s'.file = s.file :=
  ⟨s.put x (.memory (Machine.addressOf s addr)), exec_cons (step_move hx), rfl,
    ⟨fun _ _ => rfl, fun _ _ _ _ => rfl⟩, rfl⟩

/-- A copy of `lhs` combined in place with an operand that the copying does not change. -/
theorem leaves_combine {opcode : Opcode} {f : Word → Word → Word} (hop : combine? opcode = some f)
    (hd : k ≤ d.index) (hr : rhs.Usable k) (hx : contents? s lhs = some x)
    (hy : contents? s rhs = some y) :
    Leaves extend [.move (.vreg d) lhs, .binary opcode (.vreg d) rhs] s d.index k (f x y) := by
  have hkept : Kept k s (s.put x (.cell d.index)) := .put_cell hd s x
  have hx' : contents? (s.put x (.cell d.index)) (.vreg d) = some x := by
    rw [Machine.contents?, file_put_cell]
  have hy' := (hkept.contents? rfl hr).trans hy
  refine ⟨_, (exec_cons (step_move hx)).trans (exec_cons (step_combine hop hx' hy')), rfl, ?_,
    file_put_cell _ _ _⟩
  exact hkept.trans (.put_cell_flags hd _ none (f x y))

/-- A shift whose count goes through `rcx`. -/
theorem leaves_shift {opcode : Opcode} {f : Word → Word → Word} (hop : combine? opcode = some f)
    (hd : k ≤ d.index) (hr : rhs.Usable k) (hx : contents? s lhs = some x)
    (hy : contents? s rhs = some y) :
    Leaves extend [.move (.vreg d) lhs, .move (.fixed .rcx) rhs,
      .binary opcode (.vreg d) (.fixed .rcx)] s d.index k (f x y) := by
  have hkept : Kept k s (s.put x (.cell d.index)) := .put_cell hd s x
  have hy' := (hkept.contents? rfl hr).trans hy
  let s₂ : State := (s.put x (.cell d.index)).put y (.fixed .rcx)
  have hkept₂ : Kept k (s.put x (.cell d.index)) s₂ := .put_scratch _ _ (.inr (.inl rfl))
  have hx₂ : contents? s₂ (.vreg d) = some x := congrArg some (file_put_cell s x d.index)
  have hy₂ : contents? s₂ (.fixed .rcx) = some y := by
    simp [s₂, Machine.contents?, State.put]
  refine ⟨_, (exec_cons (step_move hx)).trans ((exec_cons (step_move hy')).trans
    (exec_cons (step_combine hop hx₂ hy₂))), rfl, ?_, file_put_cell _ _ _⟩
  exact hkept.trans (hkept₂.trans (.put_cell_flags hd s₂ none (f x y)))

/-- Division takes the dividend in `rax`, extended to `rdx`, and leaves the quotient in `rax` and
the remainder in `rdx`. -/
theorem leaves_divide (hzero : y ≠ 0) (hover : ¬ (x = BitVec.intMin 64 ∧ y = -1))
    (hd : k ≤ d.index) (hr : rhs.Usable k) (hx : contents? s lhs = some x)
    (hy : contents? s rhs = some y) (quotient : Bool) :
    Leaves extend [.move (.fixed .rax) lhs, .bare .cqo, .unary .idiv rhs,
      .move (.vreg d) (.fixed (if quotient then .rax else .rdx))] s d.index k
      (if quotient then x.sdiv y else x.srem y) := by
  let s₁ : State := s.put x (.fixed .rax)
  have hrax : s₁.world.fixed .rax = x := by simp [s₁, State.put]
  -- the state after `cqo`, where only `rdx` has changed
  let s₂ : State :=
    s₁.put (if (s₁.world.fixed .rax).msb then BitVec.allOnes 64 else 0) (.fixed .rdx)
  have hkept₂ : Kept k s s₂ :=
    (Kept.put_scratch s x (.inl rfl)).trans (.put_scratch s₁ _ (.inr (.inr rfl)))
  have hy₂ : contents? s₂ rhs = some y := (hkept₂.contents? rfl hr).trans hy
  have hdivide : divide? (s₂.world.fixed .rdx) (s₂.world.fixed .rax) y =
      some (x.sdiv y, x.srem y) := by
    have hhigh : s₂.world.fixed .rdx = if x.msb then BitVec.allOnes 64 else 0 := by
      simp [s₂, State.put, hrax]
    have hlow : s₂.world.fixed .rax = x := by simp [s₂, State.put, hrax]
    rw [hhigh, hlow]
    exact divide?_sign hzero hover
  let s₃ : State := { s₂ with world := { s₂.world with
    fixed := Function.update (Function.update s₂.world.fixed .rax (x.sdiv y)) .rdx (x.srem y)
    flags := none } }
  have hkept₃ : Kept k s₂ s₃ := by
    refine ⟨fun _ _ => rfl, fun r hax _ hdx => ?_⟩
    simp [s₃, hax, hdx]
  have hresult : contents? s₃ (.fixed (if quotient then .rax else .rdx)) =
      some (if quotient then x.sdiv y else x.srem y) := by
    cases quotient with
    | true => simp [Machine.contents?, s₃]
    | false => simp [Machine.contents?, s₃]
  refine ⟨s₃.put _ (.cell d.index), (exec_cons (step_move hx)).trans
    ((exec_cons step_cqo).trans ((exec_cons (step_idiv hy₂ hdivide)).trans
      (exec_cons (step_move hresult)))), rfl, ?_, file_put_cell _ _ _⟩
  exact hkept₂.trans (hkept₃.trans (.put_cell hd _ _))

/-- The opcode for an operator combines words the way the operator does. -/
theorem exists_combine? {op : BinaryOp} {opcode : Opcode} (hop : opcode? op = some opcode)
    (hv : op.apply? x y = some v) : ∃ f, combine? opcode = some f ∧ f x y = v := by
  cases op <;> cases hop <;> cases hv <;> exact ⟨_, rfl, rfl⟩

theorem leaves_arithmetic {op : BinaryOp} (hv : op.apply? x y = some v) (hd : k ≤ d.index)
    (hr : rhs.Usable k) (hx : contents? s lhs = some x) (hy : contents? s rhs = some y) :
    Leaves extend (arithmetic op d lhs rhs) s d.index k v := by
  unfold arithmetic
  cases hop : opcode? op with
  | some opcode =>
      rcases exists_combine? hop hv with ⟨f, hf, rfl⟩
      dsimp only
      split
      · exact leaves_shift hf hd hr hx hy
      · exact leaves_combine hf hd hr hx hy
  | none =>
      have hdivision : op = .div ∨ op = .rem := by
        cases op <;> simp [opcode?] at hop ⊢
      rcases hdivision with rfl | rfl
      · rcases Option.ite_none_left_eq_some.1 hv with ⟨hdefined, hv⟩
        rcases not_or.1 hdefined with ⟨hzero, hover⟩
        cases hv
        exact leaves_divide hzero hover hd hr hx hy true
      · rcases Option.ite_none_left_eq_some.1 hv with ⟨hdefined, hv⟩
        rcases not_or.1 hdefined with ⟨hzero, hover⟩
        cases hv
        exact leaves_divide hzero hover hd hr hx hy false

theorem leaves_comparison (c : Condition) (hd : k ≤ d.index) (hl : lhs.Usable k)
    (hr : rhs.Usable k) (hx : contents? s lhs = some x) (hy : contents? s rhs = some y) :
    Leaves extend (comparison c d lhs rhs) s d.index k (truth (c.holds x y)) := by
  let s₁ : State := s.put 0 (.cell d.index)
  have hkept₁ : Kept k s s₁ := .put_cell hd s 0
  have hx₁ : contents? s₁ lhs = some x := (hkept₁.contents? rfl hl).trans hx
  have hy₁ : contents? s₁ rhs = some y := (hkept₁.contents? rfl hr).trans hy
  let s₂ : State := { s₁ with world := { s₁.world with flags := some (x, y) } }
  have hzero : contents? s₂ (.vreg d) = some 0 := congrArg some (file_put_cell s 0 d.index)
  -- the register was cleared, so setting its low byte sets the whole of it
  have hbyte : ((0 : Word) &&& ~~~255) ||| (if c.holds x y then 1 else 0) =
      truth (c.holds x y) := by
    unfold truth
    simp
  refine ⟨s₂.put (truth (c.holds x y)) (.cell d.index), ?_, rfl,
    hkept₁.trans (.put_cell_flags hd s₁ (some (x, y)) _), file_put_cell _ _ _⟩
  have hset : step (interpretation extend) byIndex (.unary (.set c) (.vreg d)) s₂ =
      some (s₂.put (truth (c.holds x y)) (.cell d.index)) := by
    rw [← hbyte]
    exact step_set hzero rfl
  exact (exec_cons (step_move rfl)).trans ((exec_cons (step_cmp hx₁ hy₁)).trans (exec_cons hset))

/-- The condition for a comparison tells its outcome. -/
theorem holds_condition (op : CompareOp) : op.condition.holds x y = op.holds x y := by
  cases op <;> rfl

/-- A value changed in place by a copy and an instruction with one operand. -/
theorem leaves_neg (hd : k ≤ d.index) (hx : contents? s src = some x) :
    Leaves extend [.move (.vreg d) src, .unary .neg (.vreg d)] s d.index k (-x) := by
  have hx' : contents? (s.put x (.cell d.index)) (.vreg d) = some x :=
    congrArg some (file_put_cell s x d.index)
  exact ⟨_, (exec_cons (step_move hx)).trans (exec_cons (step_neg hx')), rfl,
    (Kept.put_cell hd s x).trans (.put_cell_flags hd _ none (-x)), file_put_cell _ _ _⟩

theorem leaves_not (hd : k ≤ d.index) (hx : contents? s src = some x) :
    Leaves extend [.move (.vreg d) src, .unary .not (.vreg d)] s d.index k (~~~x) := by
  have hx' : contents? (s.put x (.cell d.index)) (.vreg d) = some x :=
    congrArg some (file_put_cell s x d.index)
  exact ⟨_, (exec_cons (step_move hx)).trans (exec_cons (step_not hx')), rfl,
    (Kept.put_cell hd s x).trans (.put_cell hd _ (~~~x)), file_put_cell _ _ _⟩

/-- The instructions for a unary operator. -/
def inPlace (op : UnaryOp) (dst : VirtualReg) (src : Operand) : List Instr :=
  match op with
  | .neg => [.move (.vreg dst) src, .unary .neg (.vreg dst)]
  | .not => [.move (.vreg dst) src, .unary .not (.vreg dst)]
  | .logicalNot => comparison .e dst src (.imm 0)

theorem leaves_inPlace (op : UnaryOp) (hd : k ≤ d.index) (hs : src.Usable k)
    (hx : contents? s src = some x) :
    Leaves extend (inPlace op d src) s d.index k (op.apply x) := by
  cases op with
  | neg => exact leaves_neg hd hx
  | not => exact leaves_not hd hx
  | logicalNot => exact leaves_comparison .e hd hs trivial hx rfl

/-- Making a value 0 or 1. -/
theorem leaves_truth (hd : k ≤ d.index) (hs : src.Usable k) (hx : contents? s src = some x) :
    Leaves extend (comparison .ne d src (.imm 0)) s d.index k (truth (x != 0)) :=
  leaves_comparison .ne hd hs trivial hx rfl

/-- The instructions for a logical operator, in three registers. -/
def junction (op : LogicalOp) (left right dst : VirtualReg) (lhs rhs : Operand) : List Instr :=
  comparison .ne left lhs (.imm 0) ++ comparison .ne right rhs (.imm 0) ++
    [.move (.vreg dst) (.vreg left),
      .binary (match op with | .and => .and | .or => .or) (.vreg dst) (.vreg right)]

theorem leaves_junction (op : LogicalOp) {left right : VirtualReg} (hleft : k ≤ left.index)
    (hright : left.index < right.index) (hd : right.index < d.index) (hl : lhs.Usable k)
    (hr : rhs.Usable k) (hx : contents? s lhs = some x) (hy : contents? s rhs = some y) :
    Leaves extend (junction op left right d lhs rhs) s d.index k (op.apply x y) := by
  have hboth : Reaches extend
      (comparison .ne left lhs (.imm 0) ++ comparison .ne right rhs (.imm 0)) k s s.world.memory
      fun s' => s'.file left.index = truth (x != 0) ∧ s'.file right.index = truth (y != 0) := by
    refine (leaves_truth hleft hl hx).append fun s₁ hmemory hkept hx₁ => ?_
    have hy₁ : contents? s₁ rhs = some y := (hkept.contents? hmemory hr).trans hy
    -- the second sequence keeps the register of the first one too
    have hsecond : Leaves extend (comparison .ne right rhs (.imm 0)) s₁ right.index (left.index + 1)
        (truth (y != 0)) := leaves_truth hright (hr.mono (Nat.le_succ_of_le hleft)) hy₁
    rcases hsecond with ⟨s₂, hexec, hmemory', hkept', hy₂⟩
    have hx₂ := (hkept'.file left.index (Nat.lt_succ_self _)).trans hx₁
    exact ⟨s₂, hexec, hmemory'.trans hmemory, hkept'.mono (by omega), hx₂, hy₂⟩
  refine hboth.append fun s₂ hmemory hkept hvalues => ?_
  have hcombine : ∃ f, combine? (match op with | .and => .and | .or => .or) = some f ∧
      f (truth (x != 0)) (truth (y != 0)) = op.apply x y := by
    cases op with
    | and => exact ⟨_, rfl, truth_and _ _⟩
    | or => exact ⟨_, rfl, truth_or _ _⟩
  rcases hcombine with ⟨f, hf, hv⟩
  have husable : Operand.Usable (right.index + 1) (.vreg right) := Nat.lt_succ_self right.index
  have hx₂ : contents? s₂ (.vreg left) = some (truth (x != 0)) := congrArg some hvalues.1
  have hy₂ : contents? s₂ (.vreg right) = some (truth (y != 0)) := congrArg some hvalues.2
  rw [← hmemory]
  exact (leaves_combine hf hd husable hx₂ hy₂).mono (by omega) fun _ _ h => h.trans hv

/-! ## Calls -/

/-- A call sequence hands the values on, calls, clears the stack and fetches the result. -/
theorem callSequence_cases (callee : String) (values : List Operand) (dst : VirtualReg) :
    ∃ front, callSequence callee values dst = front ++ [.move (.vreg dst) (.fixed .rax)] ∧
      ∀ i ∈ front, (∃ o ∈ values, i = .unary .push o ∨ ∃ reg, i = .move (.fixed reg) o) ∨
        i = .unary .call (.symbol callee) ∨
        i = .binary .add (.fixed .rsp) (.imm (8 * (values.length - 6 : Nat))) := by
  refine ⟨_, rfl, fun i hi => ?_⟩
  simp only [List.mem_append, List.mem_map, List.mem_reverse] at hi
  rcases hi with ((⟨o, ho, rfl⟩ | ⟨⟨o, reg⟩, ho, rfl⟩) | hcall) | hclear
  · exact .inl ⟨o, List.mem_of_mem_drop ho, .inl rfl⟩
  · exact .inl ⟨o, (List.of_mem_zip ho).1, .inr ⟨reg, rfl⟩⟩
  · exact .inr (.inl (List.mem_singleton.1 hcall))
  · split at hclear
    · cases hclear
    · exact .inr (.inr (List.mem_singleton.1 hclear))

end X64
end Codegen
