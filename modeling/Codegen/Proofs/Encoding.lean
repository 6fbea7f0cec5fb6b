import Codegen.Compile
import Codegen.Proofs.Session
import Codegen.Proofs.Translation
import Mathlib.Algebra.Group.Int.Defs
import Mathlib.Algebra.Group.Nat.Defs

/-!
# Encoding — selected instructions have a shape that can be encoded

Two-address instructions are limited in the operands they take: one of them can be in memory, an
immediate has 32 bits unless it is moved into a register, and some opcodes take registers only.  The
rules of the grammar ask for operands that fit, so whatever is selected, the stream has no
instruction that would have to be taken apart afterwards.

* `Instr.Encodable`             : the limits, for one instruction
* `Instr.Encodes`               : the limits for code, where a shift by `rcx` needs a count in it
* `X64.Code.encodes`            : the code of goals is within them
* `Target.selects_encodable`    : and so is the stream of any number of selections
-/

namespace Codegen

/-! ## Shapes of instructions -/

namespace Operand

def isReg : Operand → Bool
  | .vreg _ => true
  | _ => false

def isMem : Operand → Bool
  | .mem _ => true
  | _ => false

/-- Whether the operand is an immediate that does not fit a signed word of 32 bits. -/
def isWide : Operand → Bool
  | .imm value => value < -2 ^ 31 || 2 ^ 31 ≤ value
  | _ => false

end Operand

namespace Instr

/-- Whether the instruction shifts by a count. -/
def isShift (i : Instr) : Bool := i.opcode = .shl || i.opcode = .sar

/-- What the operands of an instruction can be, by its opcode. -/
structure Encodable (i : Instr) : Prop where
  memory : i.operands.countP Operand.isMem ≤ 1
  store : i.dst.any Operand.isMem → i.opcode = .mov ∧ i.src.any Operand.isReg
  target : i.dst.any Operand.isImm = false
  wide : i.src.any Operand.isWide → i.opcode = .mov ∧ i.dst.any Operand.isReg
  single : i.opcode = .idiv ∨ i.opcode = .push → i.dst.any Operand.isReg ∧ i.src = none
  shift : i.isShift → i.src.any Operand.isImm ∨ i.src = some (.fixed .rcx)
  compare : i.opcode = .cmp →
    i.dst.any Operand.isReg ∧ i.src.any fun o => o.isReg || o.isImm
  lea : i.opcode = .lea → i.dst.any Operand.isReg ∧ i.src.any Operand.isMem

instance (i : Instr) : Decidable i.Encodable :=
  decidable_of_iff
    (i.operands.countP Operand.isMem ≤ 1 ∧
      (i.dst.any Operand.isMem → i.opcode = .mov ∧ i.src.any Operand.isReg) ∧
      i.dst.any Operand.isImm = false ∧
      (i.src.any Operand.isWide → i.opcode = .mov ∧ i.dst.any Operand.isReg) ∧
      (i.opcode = .idiv ∨ i.opcode = .push → i.dst.any Operand.isReg ∧ i.src = none) ∧
      (i.isShift → i.src.any Operand.isImm ∨ i.src = some (.fixed .rcx)) ∧
      (i.opcode = .cmp → i.dst.any Operand.isReg ∧ i.src.any fun o => o.isReg || o.isImm) ∧
      (i.opcode = .lea → i.dst.any Operand.isReg ∧ i.src.any Operand.isMem))
    ⟨fun ⟨memory, store, target, wide, single, shift, compare, lea⟩ =>
      ⟨memory, store, target, wide, single, shift, compare, lea⟩,
      fun h => ⟨h.memory, h.store, h.target, h.wide, h.single, h.shift, h.compare, h.lea⟩⟩

example : ¬ (Instr.binary .add (.mem (.frame 8)) (.imm 1)).Encodable := by decide

/-- All instructions can be encoded, and a shift by `rcx` comes directly after a move into it. -/
structure Encodes (code : List Instr) : Prop where
  each : ∀ i ∈ code, i.Encodable
  count : ∀ (p : Nat) (i : Instr), code[p]? = some i → i.isShift → i.src = some (.fixed .rcx) →
    ∃ (q : Nat) (o : Operand), p = q + 1 ∧ code[q]? = some (.move (.fixed .rcx) o)

theorem Encodes.nil : Encodes [] where
  each i hi := absurd hi List.not_mem_nil
  count p i hi := by simp at hi

theorem Encodes.append {code rest : List Instr} (h : Encodes code) (h' : Encodes rest) :
    Encodes (code ++ rest) where
  each i hi := by
    rcases List.mem_append.1 hi with hi | hi
    · exact h.each i hi
    · exact h'.each i hi
  count p i hi hshift hsrc := by
    -- a shift by `rcx` comes second in its part, so the parts can be looked at one by one
    by_cases hp : p < code.length
    · rw [List.getElem?_append_left hp] at hi
      rcases h.count p i hi hshift hsrc with ⟨q, o, rfl, hq⟩
      exact ⟨q, o, rfl, by rw [List.getElem?_append_left (by omega), hq]⟩
    · rw [List.getElem?_append_right (by omega)] at hi
      rcases h'.count _ i hi hshift hsrc with ⟨q, o, hpq, hq⟩
      refine ⟨code.length + q, o, by omega, ?_⟩
      rw [List.getElem?_append_right (by omega), Nat.add_sub_cancel_left, hq]

/-- Code without shifts. -/
theorem Encodes.of_each {code : List Instr} (h : ∀ i ∈ code, i.Encodable ∧ i.isShift = false) :
    Encodes code where
  each i hi := (h i hi).1
  count p i hi hshift := by
    rw [(h i (List.mem_of_getElem? hi)).2] at hshift
    cases hshift

end Instr

/-- Whether the limits say nothing about the opcode in particular. -/
def Opcode.isPlain : Opcode → Bool
  | .idiv | .push | .cmp | .lea | .shl | .sar => false
  | _ => true

namespace Instr

section Single

variable {op : Opcode} {d r : VirtualReg} {dst x : Operand}

theorem encodable_of_plain {i : Instr} (hop : i.opcode.isPlain = true)
    (memory : i.operands.countP Operand.isMem ≤ 1)
    (store : i.dst.any Operand.isMem → i.opcode = .mov ∧ i.src.any Operand.isReg)
    (target : i.dst.any Operand.isImm = false)
    (wide : i.src.any Operand.isWide → i.opcode = .mov ∧ i.dst.any Operand.isReg) :
    i.Encodable where
  memory := memory
  store := store
  target := target
  wide := wide
  single h := by rcases h with h | h <;> rw [h] at hop <;> cases hop
  shift h := by
    rw [isShift, Bool.or_eq_true, decide_eq_true_eq, decide_eq_true_eq] at h
    rcases h with h | h <;> rw [h] at hop <;> cases hop
  compare h := by
    rw [h] at hop
    cases hop
  lea h := by
    rw [h] at hop
    cases hop

/-- The source alone may be in memory. -/
theorem countP_isMem_le (hdst : dst.isMem = false) (op : Opcode) (x : Operand) :
    (binary op dst x).operands.countP Operand.isMem ≤ 1 := by
  have hoperands : (binary op dst x).operands = [dst, x] := rfl
  rw [hoperands, List.countP_cons_of_neg (by simp [hdst])]
  exact List.countP_le_length

theorem encodable_binary (hop : op.isPlain = true) (d : VirtualReg)
    (hx : x.isWide = true → op = .mov) : (binary op (.vreg d) x).Encodable :=
  encodable_of_plain hop (countP_isMem_le rfl op x) nofun rfl fun h => ⟨hx h, rfl⟩

theorem encodable_move (d : VirtualReg) (x : Operand) : (move (.vreg d) x).Encodable :=
  encodable_binary rfl d fun _ => rfl

theorem encodable_fixed (hop : op.isPlain = true) (r : MachineReg) (hx : x.isWide = false) :
    (binary op (.fixed r) x).Encodable := by
  refine encodable_of_plain hop (countP_isMem_le rfl op x) nofun rfl fun h => ?_
  cases hx.symm.trans h

theorem encodable_store (addr : Address) (r : VirtualReg) :
    (move (.mem addr) (.vreg r)).Encodable :=
  encodable_of_plain rfl (Nat.le_refl 1) (fun _ => ⟨rfl, rfl⟩) rfl nofun

theorem encodable_unary (hop : op.isPlain = true) (hmem : x.isMem = false)
    (himm : x.isImm = false) : (unary op x).Encodable := by
  have hcount : (unary op x).operands.countP Operand.isMem ≤ 1 := List.countP_le_length
  refine encodable_of_plain hop hcount (fun h => ?_) himm nofun
  cases hmem.symm.trans h

theorem encodable_single (hop : op = .idiv ∨ op = .push) (d : VirtualReg) :
    (unary op (.vreg d)).Encodable where
  memory := List.countP_le_length
  store := nofun
  target := rfl
  wide := nofun
  single _ := ⟨rfl, rfl⟩
  shift h := by rcases hop with rfl | rfl <;> cases h
  compare h := by rcases hop with rfl | rfl <;> cases h
  lea h := by rcases hop with rfl | rfl <;> cases h

theorem encodable_shift (hop : op = .shl ∨ op = .sar) (d : VirtualReg)
    (hx : x.isImm = true ∨ x = .fixed .rcx) (hwide : x.isWide = false) :
    (binary op (.vreg d) x).Encodable where
  memory := countP_isMem_le rfl op x
  store := nofun
  target := rfl
  wide h := by cases hwide.symm.trans h
  single h := by rcases hop with rfl | rfl <;> rcases h with h | h <;> cases h
  shift _ := hx.imp_right fun h => congrArg some h
  compare h := by rcases hop with rfl | rfl <;> cases h
  lea h := by rcases hop with rfl | rfl <;> cases h

theorem encodable_cmp (d : VirtualReg) (hx : (x.isReg || x.isImm) = true)
    (hwide : x.isWide = false) : (binary .cmp (.vreg d) x).Encodable where
  memory := countP_isMem_le rfl .cmp x
  store := nofun
  target := rfl
  wide h := by cases hwide.symm.trans h
  single h := by rcases h with h | h <;> cases h
  shift h := by cases h
  compare _ := ⟨rfl, hx⟩
  lea h := by cases h

theorem encodable_lea (d : VirtualReg) (addr : Address) :
    (binary .lea (.vreg d) (.mem addr)).Encodable where
  memory := countP_isMem_le rfl .lea _
  store := nofun
  target := rfl
  wide := nofun
  single h := by rcases h with h | h <;> cases h
  shift h := by cases h
  compare h := by cases h
  lea _ := ⟨rfl, rfl⟩

end Single

end Instr

/-! ## Emitted sequences -/

namespace X64

open Instr

variable {a : Arena} {id : NodeId} {k k' : Nat} {x : Nonterminal} {goals : List Goal}
  {os : List Operand} {own code : List Instr} {o o' : Operand} {d r : VirtualReg}

theorem isWide_imm (value : Int) : Operand.isWide (.imm value) = !fits32 value := by
  rw [Bool.eq_iff_iff]
  simp only [Operand.isWide, fits32, Bool.or_eq_true, Bool.not_eq_true', Bool.and_eq_false_iff,
    decide_eq_true_eq, decide_eq_false_iff_not]
  omega

/-- One instruction that is no shift. -/
theorem encodes_single {i : Instr} (h : i.Encodable) (hshift : i.isShift = false) :
    Encodes [i] := by
  refine .of_each ?_
  intro j hj
  rw [List.mem_singleton.1 hj]
  exact ⟨h, hshift⟩

/-- A shift whose count is fetched first. -/
theorem encodes_counted {op : Opcode} (hop : op = .shl ∨ op = .sar) (d : VirtualReg)
    (hwide : o.isWide = false) :
    Encodes [.move (.fixed .rcx) o, .binary op (.vreg d) (.fixed .rcx)] where
  each i hi := by
    rcases List.mem_cons.1 hi with rfl | hi
    · exact encodable_fixed rfl .rcx hwide
    · rw [List.mem_singleton.1 hi]
      exact encodable_shift hop d (.inr rfl) rfl
  count p i hi hshift hsrc := by
    match p with
    | 0 =>
        cases hi
        cases hshift
    | 1 => exact ⟨0, o, rfl, rfl⟩
    | p + 2 => simp at hi

/-- A shift whose count is known. -/
theorem encodes_shifted {op : Opcode} (hop : op = .shl ∨ op = .sar) (d : VirtualReg)
    (himm : o.isImm = true) (hwide : o.isWide = false) : Encodes [.binary op (.vreg d) o] where
  each i hi := by
    rw [List.mem_singleton.1 hi]
    exact encodable_shift hop d (.inl himm) hwide
  count p i hi _ hsrc := by
    match p with
    | 0 =>
        cases hi
        cases hsrc
        cases himm
    | p + 1 => simp at hi

theorem encodes_comparison (c : Condition) (d r : VirtualReg) (ho : (o.isReg || o.isImm) = true)
    (hwide : o.isWide = false) : Encodes (comparison c d (.vreg r) o) := by
  refine (encodes_single (encodable_move d _) rfl).append ?_
  exact (encodes_single (encodable_cmp r ho hwide) rfl).append
    (encodes_single (encodable_unary rfl rfl rfl) rfl)

theorem encodes_inPlace (op : UnaryOp) (d r : VirtualReg) : Encodes (inPlace op d (.vreg r)) := by
  cases op with
  | neg =>
      exact (encodes_single (encodable_move d _) rfl).append
        (encodes_single (encodable_unary rfl rfl rfl) rfl)
  | not =>
      exact (encodes_single (encodable_move d _) rfl).append
        (encodes_single (encodable_unary rfl rfl rfl) rfl)
  | logicalNot => exact encodes_comparison .e d r rfl rfl

theorem encodes_junction (op : LogicalOp) (left right d r r' : VirtualReg) :
    Encodes (junction op left right d (.vreg r) (.vreg r')) := by
  refine ((encodes_comparison .ne left r rfl rfl).append
    (encodes_comparison .ne right r' rfl rfl)).append ?_
  refine (encodes_single (encodable_move d _) rfl).append ?_
  cases op with
  | and => exact encodes_single (encodable_binary rfl d nofun) rfl
  | or => exact encodes_single (encodable_binary rfl d nofun) rfl

/-- Only shifts have opcodes that are limited. -/
theorem opcode?_cases {op : BinaryOp} {opcode : Opcode} (h : opcode? op = some opcode) :
    (isShift op = true ∧ (opcode = .shl ∨ opcode = .sar)) ∨
      (isShift op = false ∧ opcode.isPlain = true ∧
        ∀ dst src, (Instr.binary opcode dst src).isShift = false) := by
  cases op <;> cases h
  case shl => exact .inl ⟨rfl, .inl rfl⟩
  case shr => exact .inl ⟨rfl, .inr rfl⟩
  all_goals exact .inr ⟨rfl, rfl, fun _ _ => rfl⟩

theorem encodes_arithmetic (op : BinaryOp) (d r : VirtualReg) (hwide : o.isWide = false)
    (hdivisor : o.isReg = true ∨ (op ≠ .div ∧ op ≠ .rem)) :
    Encodes (arithmetic op d (.vreg r) o) := by
  unfold arithmetic
  cases hop : opcode? op with
  | none =>
      -- a division, whose divisor is in a register
      have hreg : ∃ r', o = .vreg r' := by
        rcases hdivisor with hreg | ⟨hdiv, hrem⟩
        · cases o <;> cases hreg
          exact ⟨_, rfl⟩
        · cases op <;> cases hop
          · exact absurd rfl hdiv
          · exact absurd rfl hrem
      rcases hreg with ⟨r', rfl⟩
      refine (encodes_single (encodable_fixed rfl .rax rfl) rfl).append ?_
      have hcqo : (Instr.bare .cqo).Encodable := by decide
      refine (encodes_single hcqo rfl).append ?_
      exact (encodes_single (encodable_single (.inl rfl) r') rfl).append
        (encodes_single (encodable_move d _) rfl)
  | some opcode =>
      dsimp only
      rcases opcode?_cases hop with ⟨hshift, hopcode⟩ | ⟨hshift, hplain, hnone⟩
      · -- the count of a shift is fetched, unless it is known
        rw [hshift, Bool.true_and]
        split
        · exact (encodes_single (encodable_move d _) rfl).append (encodes_counted hopcode d hwide)
        · rename_i himm
          have hknown : o.isImm = true := by simpa using himm
          exact (encodes_single (encodable_move d _) rfl).append
            (encodes_shifted hopcode d hknown hwide)
      · rw [hshift, Bool.false_and, if_neg Bool.false_ne_true]
        refine (encodes_single (encodable_move d _) rfl).append
          (encodes_single (encodable_binary hplain d ?_) (hnone _ _))
        intro hwide'
        cases hwide.symm.trans hwide'

/-- The stack is cleared of fewer than `2 ^ 28` values, eight bytes each. -/
theorem encodes_callSequence (callee : String) (d : VirtualReg)
    (hregs : ∀ o ∈ os, o.isReg = true) (hfew : os.length < 2 ^ 28) :
    Encodes (callSequence callee os d) := by
  have hreg : ∀ o ∈ os, ∃ r, o = .vreg r := by
    intro o ho
    have hreg := hregs o ho
    cases o <;> cases hreg
    exact ⟨_, rfl⟩
  rcases callSequence_cases callee os d with ⟨front, heq, hfront⟩
  rw [heq]
  refine Encodes.append (.of_each ?_) (encodes_single (encodable_move d _) rfl)
  intro i hi
  rcases hfront i hi with ⟨o, ho, rfl | ⟨reg, rfl⟩⟩ | rfl | rfl
  · rcases hreg o ho with ⟨r, rfl⟩
    exact ⟨encodable_single (.inr rfl) r, rfl⟩
  · rcases hreg o ho with ⟨r, rfl⟩
    exact ⟨encodable_fixed rfl reg rfl, rfl⟩
  · exact ⟨encodable_unary rfl rfl rfl, rfl⟩
  · -- eight bytes for each value that was pushed
    refine ⟨encodable_fixed rfl .rsp ?_, rfl⟩
    rw [isWide_imm, Bool.not_eq_false', fits32, Bool.and_eq_true, decide_eq_true_eq,
      decide_eq_true_eq]
    omega

/-! ## Code -/

/-- Immediates that stand for nodes fit 32 bits. -/
theorem Code.narrow (h : Code a goals k code os k') : ∀ o ∈ os, o.isWide = false := by
  induction h with
  | nil => exact fun o ho => absurd ho List.not_mem_nil
  | cons _ hscheme _ _ ih =>
      intro o ho
      rcases List.mem_cons.1 ho with rfl | ho
      · cases hscheme with
        | literal _ hfits => rw [isWide_imm, hfits, Bool.not_true]
        | _ => rfl
      · exact ih o ho

theorem Shows.isReg (h : Shows .reg o) : o.isReg = true := by
  rcases h.exists_vreg with ⟨r, rfl⟩
  rfl

/-- Operands that are compared with: registers and immediates. -/
theorem Shows.isReg_or_isImm {y : Nonterminal} (h : Shows y o) (hy : y ≠ .mem) :
    (o.isReg || o.isImm) = true := by
  cases y with
  | reg => rw [h.isReg, Bool.true_or]
  | imm =>
      cases o with
      | imm => rfl
      | _ => exact absurd h not_false
  | mem => exact absurd rfl hy

/-- The instructions of a rule, for operands of the shapes that it asks for. -/
theorem Scheme.encodes (h : Scheme a id k x goals os own o k')
    (hshapes : List.Forall₂ (fun goal o => Shows goal.2 o) goals os)
    (hnarrow : ∀ o ∈ os, o.isWide = false)
    (hfew : ∀ callee args, a.get? id = some (.call callee args) → args.length < 2 ^ 28) :
    Encodes own := by
  cases h with
  | literal | vreg | mem | slot | grouping | deref | derefFolded => exact .nil
  | wideLiteral | copy | framePointer => exact encodes_single (encodable_move _ _) rfl
  | addressOf => exact encodes_single (encodable_lea _ _) rfl
  | binary _ hdivisor =>
      rcases hshapes with _ | ⟨hleft, _ | ⟨hright, _⟩⟩
      rcases hleft.exists_vreg with ⟨r, rfl⟩
      refine encodes_arithmetic _ _ r (hnarrow _ (by simp)) (hdivisor.imp_left ?_)
      rintro rfl
      exact hright.isReg
  | unary =>
      rcases hshapes with _ | ⟨hshows, _⟩
      rcases hshows.exists_vreg with ⟨r, rfl⟩
      exact encodes_inPlace _ _ r
  | compare _ hy =>
      rcases hshapes with _ | ⟨hleft, _ | ⟨hright, _⟩⟩
      rcases hleft.exists_vreg with ⟨r, rfl⟩
      exact encodes_comparison _ _ r (hright.isReg_or_isImm hy) (hnarrow _ (by simp))
  | logical =>
      rcases hshapes with _ | ⟨hleft, _ | ⟨hright, _⟩⟩
      rcases hleft.exists_vreg with ⟨r, rfl⟩
      rcases hright.exists_vreg with ⟨r', rfl⟩
      exact encodes_junction _ _ _ _ r r'
  | signExtend =>
      refine encodes_single (encodable_binary rfl _ fun hwide => ?_) rfl
      cases (hnarrow _ List.mem_cons_self).symm.trans hwide
  | store => exact encodes_single (encodable_store _ _) rfl
  | @call callee args _ hn =>
      -- every argument is reduced to a register
      refine encodes_callSequence callee _ ?_ ?_
      · rw [List.forall₂_map_left_iff] at hshapes
        intro o ho
        rcases List.getElem_of_mem ho with ⟨i, hi, rfl⟩
        exact ((List.forall₂_iff_get.1 hshapes).2 i (hshapes.length_eq ▸ hi) hi).isReg
      · rw [← hshapes.length_eq, List.length_map]
        exact hfew callee args hn

/-- Calls in a tree have fewer arguments than would clear the stack by a number of 32 bits. -/
def FewArguments (a : Arena) (root : NodeId) : Prop :=
  ∀ m callee args, a.Below Node.links root m → a.get? m = some (.call callee args) →
    args.length < 2 ^ 28

theorem FewArguments.of_below {m : NodeId} (h : FewArguments a id) (hm : a.Below Node.links id m) :
    FewArguments a m :=
  fun m' callee args hm' => h m' callee args (hm.trans hm')

theorem Code.encodes (h : Code a goals k code os k')
    (hfew : ∀ goal ∈ goals, FewArguments a goal.1) : Encodes code := by
  induction h with
  | nil => exact .nil
  | @cons id _ goals _ _ _ _ _ _ _ _ _ _ _ hgoals hscheme _ ih ih' =>
      have hid : FewArguments a id := hfew _ List.mem_cons_self
      have hbelow : ∀ goal ∈ goals, FewArguments a goal.1 :=
        fun goal hgoal => hid.of_below (hscheme.below hgoal)
      have hown := hscheme.encodes hgoals.shapes hgoals.narrow fun callee args =>
        hid id callee args (.refl id)
      exact ((ih hbelow).append hown).append
        (ih' fun goal hgoal => hfew goal (List.mem_cons_of_mem _ hgoal))

theorem Wrote.encodes {s s' : Selection} (h : Wrote a goals os s s')
    (hfew : ∀ goal ∈ goals, FewArguments a goal.1) (hs : Encodes s.stream.toList) :
    Encodes s'.stream.toList := by
  rcases h.code with ⟨code, hstream, hcode⟩
  rw [hstream]
  exact hs.append (hcode.encodes hfew)

end X64

/-! ## Sessions -/

namespace Target

open X64

/-- A tree whose calls have few arguments, as it is when its turn comes. -/
def Manageable (a : Arena) (root : NodeId) : Prop :=
  a.IsTree Node.links root ∧ FewArguments a root

theorem selectRoot_encodes {settings : Settings} {t : Target} (ht : Target.x64 settings = .ok t)
    {s : Selection} {root : NodeId} (hroot : Manageable s.arena root)
    (hs : Instr.Encodes s.stream.toList) :
    Instr.Encodes ((t.selectRoot root).final s).stream.toList := by
  have hwrites := selectRoot_writes ht hroot.1
  rw [SelectM.final]
  cases hrun : (t.selectRoot root).run s with
  | ok v s' =>
      rw [hrun] at hwrites
      rcases hwrites.value with ⟨o, hwrote, -⟩
      refine hwrote.encodes ?_ hs
      intro goal hgoal
      rw [List.mem_singleton.1 hgoal]
      exact hroot.2
  | error e s' =>
      -- what was emitted before the refusal is the code of nodes in the tree
      rw [hrun] at hwrites
      rcases hwrites with ⟨goals, os, hwrote, hgoals⟩
      exact hwrote.encodes (fun goal hgoal => hroot.2.of_below (hgoals goal hgoal)) hs

/-- Every instruction that is selected can be encoded.  Whatever trees are selected one after the
other, in the arena as the selections before have left it, and whether or not they are refused: the
operands of each instruction in the stream are such as its opcode takes, and directly before a shift
by `rcx` a count is moved there. -/
theorem selects_encodable {settings : Settings} {t : Target} (ht : Target.x64 settings = .ok t)
    {arena : Arena} {s : Selection} (hs : t.Selects Manageable (t.start arena) s) {p : Nat}
    {i : Instr} (hi : s.stream[p]? = some i) :
    i.Encodable ∧ (i.isShift → i.src = some (.fixed .rcx) →
      ∃ q o, p = q + 1 ∧ s.stream[q]? = some (.move (.fixed .rcx) o)) := by
  have hencodes : Instr.Encodes s.stream.toList := by
    clear hi
    induction hs with
    | none => exact .nil
    | next _ hroot ih => exact selectRoot_encodes ht hroot ih
  rw [← Array.getElem?_toList] at hi
  refine ⟨hencodes.each i (List.mem_of_getElem? hi), fun hshift hsrc => ?_⟩
  rcases hencodes.count p i hi hshift hsrc with ⟨q, o, hpq, hq⟩
  exact ⟨q, o, hpq, by rwa [Array.getElem?_toList] at hq⟩

/-- A call `f(x << y, 5 = 6)` with its root at 6, which is refused at the second argument. -/
def shiftedCall : Arena :=
  ⟨#[.var ⟨"x", -8⟩, .var ⟨"y", -16⟩, .binary .shl 0 1, .literal 5, .literal 6, .assign 3 4,
    .call "f" [2, 5]]⟩

/-- The shift is emitted before the refusal, and once more when it is selected by itself. -/
theorem selects_encodable_shiftedCall :
    ∃ t s p dst, Target.x64 {} = .ok t ∧ t.Selects Manageable (t.start shiftedCall) s ∧
      s.stats.trees = 1 ∧ 4 < p ∧ s.stream[p]? = some (.binary .shl dst (.fixed .rcx)) ∧
      (Instr.binary .shl dst (.fixed .rcx)).Encodable ∧
      ∃ q o, p = q + 1 ∧ s.stream[q]? = some (.move (.fixed .rcx) o) := by
  have hfew : ∀ (a : Arena), (∀ n ∈ a.nodes, n.links.length < 2 ^ 28) → ∀ root,
      FewArguments a root := by
    intro a ha root m callee args _ hm
    exact ha _ (Array.mem_of_getElem? hm)
  have hrun : ∃ t, Target.x64 {} = .ok t ∧
      ((t.selectRoot 6).final (t.start shiftedCall)).arena.IsTree Node.links 2 ∧
      (∀ n ∈ ((t.selectRoot 6).final (t.start shiftedCall)).arena.nodes, n.links.length < 2 ^ 28) ∧
      ((t.selectRoot 2).final ((t.selectRoot 6).final (t.start shiftedCall))).stats.trees = 1 ∧
      ((t.selectRoot 2).final ((t.selectRoot 6).final (t.start shiftedCall))).stream[6]? =
        some (.binary .shl (.vreg (temporary 2)) (.fixed .rcx)) :=
    ⟨_, rfl, by decide +kernel⟩
  rcases hrun with ⟨t, ht, htree, hlinks, htrees, hshift⟩
  have hfirst : Manageable shiftedCall 6 := ⟨by decide, hfew _ (by decide) 6⟩
  have hs : t.Selects Manageable (t.start shiftedCall)
      ((t.selectRoot 2).final ((t.selectRoot 6).final (t.start shiftedCall))) :=
    .next (.next .none hfirst) ⟨htree, hfew _ hlinks 2⟩
  rcases selects_encodable ht hs hshift with ⟨hencodable, hcount⟩
  exact ⟨t, _, 6, _, ht, hs, htrees, by decide, hshift, hencodable, hcount rfl rfl⟩

end Target
end Codegen
