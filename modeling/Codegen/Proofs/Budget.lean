import Codegen.Compile
import Codegen.Proofs.Pressure
import Codegen.Proofs.Reselection
import Mathlib.Order.Interval.Finset.Nat

/-!
# Budget — how many registers trees need

While the second operand of a node is computed the first one waits in a register, and nothing else
does.  So every level of a tree costs at most one register, and the instructions of a rule need one
more than it has operands.  Between two trees nothing waits at all, and a function needs as many
registers as the tree that needs most.

* `Suffices`                    : code that gets by with a number of registers
* `Stream.pressure_le`          : what this means for a stream
* `X64.Scheme.suffices`         : the instructions of one rule
* `X64.Code.suffices`           : goals one after the other
* `Target.compile_affordable`   : whole functions
-/

namespace Codegen

/-! ## Registers that code mentions -/

/-- The registers that operands mention. -/
def named (os : List Operand) : Finset Nat :=
  ((os.filterMap Operand.reg?).map VirtualReg.index).toFinset

/-- The registers that instructions mention. -/
def mentioned (code : List Instr) : Finset Nat := named (code.flatMap Instr.operands)

section Mentioned

variable {os os' : List Operand} {o : Operand} {i : Instr} {code code' : List Instr} {v : Nat}

theorem mem_named_iff : v ∈ named os ↔ ∃ o ∈ os, ∃ r, o.reg? = some r ∧ r.index = v := by
  simp only [named, List.mem_toFinset, List.mem_map, List.mem_filterMap]
  exact ⟨fun ⟨r, ⟨o, ho, hr⟩, hv⟩ => ⟨o, ho, r, hr, hv⟩,
    fun ⟨o, ho, r, hr, hv⟩ => ⟨r, ⟨o, ho, hr⟩, hv⟩⟩

@[simp] theorem named_nil : named [] = ∅ := rfl

theorem named_append (os os' : List Operand) : named (os ++ os') = named os ∪ named os' := by
  simp only [named, List.filterMap_append, List.map_append, List.toFinset_append]

theorem named_cons (o : Operand) (os : List Operand) : named (o :: os) = named [o] ∪ named os :=
  named_append [o] os

@[simp] theorem named_pair (o o' : Operand) : named [o, o'] = named [o] ∪ named [o'] :=
  named_append [o] [o']

theorem named_subset (ho : o ∈ os) : named [o] ⊆ named os := by
  intro v hv
  rcases mem_named_iff.1 hv with ⟨o', ho', hr⟩
  rw [List.mem_singleton.1 ho'] at hr
  exact mem_named_iff.2 ⟨o, ho, hr⟩

/-- An operand mentions one register at most. -/
theorem card_named_le (os : List Operand) : (named os).card ≤ os.length := by
  refine (List.toFinset_card_le _).trans ?_
  rw [List.length_map]
  exact List.length_filterMap_le _ _

theorem card_le_of_subset {regs passing : Finset Nat} (os : List Operand)
    (h : regs ⊆ passing ∪ named os) : regs.card ≤ passing.card + os.length :=
  (Finset.card_le_card h).trans
    ((Finset.card_union_le _ _).trans (Nat.add_le_add_left (card_named_le os) _))

@[simp] theorem mentioned_nil : mentioned [] = ∅ := rfl

theorem mentioned_append (code code' : List Instr) :
    mentioned (code ++ code') = mentioned code ∪ mentioned code' := by
  rw [mentioned, List.flatMap_append, named_append, mentioned, mentioned]

theorem mentioned_cons (i : Instr) (code : List Instr) :
    mentioned (i :: code) = mentioned [i] ∪ mentioned code :=
  mentioned_append [i] code

theorem mentioned_subset {regs : Finset Nat} (h : ∀ i ∈ code, mentioned [i] ⊆ regs) :
    mentioned code ⊆ regs := by
  induction code with
  | nil => exact Finset.empty_subset regs
  | cons i code ih =>
      rw [mentioned_cons]
      exact Finset.union_subset (h i List.mem_cons_self)
        (ih fun j hj => h j (List.mem_cons_of_mem i hj))

theorem mem_mentioned_iff : v ∈ mentioned code ↔ ∃ i ∈ code, ∃ r ∈ i.regs, r.index = v := by
  simp only [mentioned, mem_named_iff, List.mem_flatMap, Instr.regs, List.mem_filterMap]
  constructor
  · rintro ⟨o, ⟨i, hi, ho⟩, r, hr, hv⟩
    exact ⟨i, hi, r, ⟨o, ho, hr⟩, hv⟩
  · rintro ⟨i, hi, r, ⟨o, ho, hr⟩, hv⟩
    exact ⟨o, ⟨i, hi, ho⟩, r, hr, hv⟩

@[simp] theorem named_vreg (r : VirtualReg) : named [.vreg r] = {r.index} := rfl

@[simp] theorem named_imm (value : Int) : named [.imm value] = ∅ := rfl

@[simp] theorem named_fixed (r : MachineReg) : named [.fixed r] = ∅ := rfl

@[simp] theorem named_symbol (name : String) : named [.symbol name] = ∅ := rfl

@[simp] theorem named_frame (disp : Int) : named [.mem (.frame disp)] = ∅ := rfl

@[simp] theorem named_ofReg (r : VirtualReg) (disp : Int) :
    named [.mem (.ofReg r disp)] = {r.index} := rfl

@[simp] theorem mentioned_bare (op : Opcode) (code : List Instr) :
    mentioned (.bare op :: code) = mentioned code := rfl

@[simp] theorem mentioned_unary (op : Opcode) (o : Operand) (code : List Instr) :
    mentioned (.unary op o :: code) = named [o] ∪ mentioned code :=
  named_append [o] _

@[simp] theorem mentioned_binary (op : Opcode) (dst src : Operand) (code : List Instr) :
    mentioned (.binary op dst src :: code) = named [dst] ∪ named [src] ∪ mentioned code := by
  rw [← named_append]
  exact named_append [dst, src] _

@[simp] theorem mentioned_move (dst src : Operand) (code : List Instr) :
    mentioned (.move dst src :: code) = named [dst] ∪ named [src] ∪ mentioned code :=
  mentioned_binary .mov dst src code

end Mentioned

/-! ## Code within a number of registers -/

/-- At every instruction of the code at most `n` registers are live: they are `known` or have been
mentioned, there included, and they are mentioned from there on or are `awaited`. -/
def Suffices (n : Nat) : Finset Nat → List Instr → Finset Nat → Prop
  | _, [], _ => True
  | known, i :: code, awaited =>
      ((known ∪ mentioned [i]) ∩ (mentioned (i :: code) ∪ awaited)).card ≤ n ∧
        Suffices n (known ∪ mentioned [i]) code awaited

namespace Suffices

variable {n n' : Nat} {known awaited : Finset Nat} {code code' : List Instr}

theorem mono (hle : n ≤ n') (h : Suffices n known code awaited) :
    Suffices n' known code awaited := by
  induction code generalizing known with
  | nil => trivial
  | cons i code ih => exact ⟨h.1.trans hle, ih h.2⟩

theorem append (h : Suffices n known code (mentioned code' ∪ awaited))
    (h' : Suffices n (known ∪ mentioned code) code' awaited) :
    Suffices n known (code ++ code') awaited := by
  induction code generalizing known with
  | nil =>
      rw [mentioned_nil, Finset.union_empty] at h'
      exact h'
  | cons i code ih =>
      rw [mentioned_cons, ← Finset.union_assoc] at h'
      rw [List.cons_append]
      refine ⟨?_, ih h.2 h'⟩
      rw [← List.cons_append, mentioned_append, Finset.union_assoc]
      exact h.1

/-- What passes by and what is mentioned at all are enough. -/
theorem of_card (h : (known ∩ awaited ∪ mentioned code).card ≤ n) :
    Suffices n known code awaited := by
  induction code generalizing known with
  | nil => trivial
  | cons i code ih =>
      rw [mentioned_cons] at h
      refine ⟨(Finset.card_le_card fun v hv => ?_).trans h, ih ((Finset.card_le_card ?_).trans h)⟩
      · rw [mentioned_cons i code] at hv
        simp only [Finset.mem_union, Finset.mem_inter] at hv ⊢
        tauto
      · intro v hv
        simp only [Finset.mem_union, Finset.mem_inter] at hv ⊢
        tauto

/-- The same at a position. -/
theorem card_le (h : Suffices n known code awaited) {p : Nat} (hp : p < code.length) :
    ((known ∪ mentioned (code.take (p + 1))) ∩ (mentioned (code.drop p) ∪ awaited)).card ≤ n := by
  induction code generalizing known p with
  | nil => exact absurd hp (Nat.not_lt_zero p)
  | cons i code ih =>
      cases p with
      | zero => exact h.1
      | succ p =>
          rw [List.take_succ_cons, mentioned_cons, ← Finset.union_assoc, List.drop_succ_cons]
          exact ih h.2 (Nat.lt_of_succ_lt_succ hp)

end Suffices

/-- Where `n` registers suffice for a stream, its pressure is `n` at most. -/
theorem Stream.pressure_le {s : Stream} {n : Nat} (h : Suffices n ∅ s.toList ∅) :
    Stream.pressure s ≤ n := by
  refine Finset.sup_le fun p hp => ?_
  have hlt : p < s.toList.length := by
    rw [Array.length_toList]
    exact Finset.mem_range.1 hp
  -- a register that is needed at `p` is mentioned up to there, and from there on
  refine (Finset.card_le_card fun v hv => ?_).trans (h.card_le hlt)
  rcases Stream.mem_needed_iff.1 hv with ⟨⟨q, hq, i, hi, hbefore⟩, q', hq', i', hi', hafter⟩
  rw [← Array.getElem?_toList] at hi hi'
  rw [Finset.empty_union, Finset.union_empty, Finset.mem_inter, mem_mentioned_iff,
    mem_mentioned_iff]
  refine ⟨⟨i, List.mem_of_getElem? (i := q) ?_, hbefore⟩,
    i', List.mem_of_getElem? (i := q' - p) ?_, hafter⟩
  · rw [List.getElem?_take_of_lt (Nat.lt_succ_of_le hq), hi]
  · rw [List.getElem?_drop, Nat.add_sub_cancel' hq', hi']

/-! ## Trees without registers -/

/-- Below the node there are no calls and nothing mentions a register, and no way has more than
`height` slots. -/
structure Arena.Bare (a : Arena) (height : Nat) (id : NodeId) : Prop where
  calls : ∀ m n, a.Below Node.links id m → a.get? m = some n → n.kind ≠ .call
  regs : ∀ m n, a.Below Node.links id m → a.get? m = some n → n.reg? = none
  low : ∀ w m, a.Path Node.links id w m → (slots w).length ≤ height

/-- What hangs in a slot is lower. -/
theorem Arena.Bare.of_link {a : Arena} {height : Nat} {id c m : NodeId} {n : Node}
    (h : a.Bare height id) (hn : a.get? id = some n) (hc : c ∈ n.links)
    (hm : a.Below Node.links c m) : 1 ≤ height ∧ a.Bare (height - 1) m := by
  rcases List.mem_iff_getElem?.1 hc with ⟨slot, hslot⟩
  rcases hm with ⟨v, hv⟩
  have hbelow : a.Below Node.links id m := ⟨_, .step hn hslot hv⟩
  -- a way from `m` is the end of one from `id` that passes the slot before it
  have hlow : ∀ w p, a.Path Node.links m w p → (slots w).length + 1 ≤ height := by
    intro w p hw
    have hlen := h.low _ p (.step hn hslot (hv.append hw))
    have hslots : slots (.kind n.kind :: .child slot :: (v ++ w)) = slot :: (slots v ++ slots w) :=
      congrArg (slot :: ·) List.filterMap_append
    rw [hslots, List.length_cons, List.length_append] at hlen
    omega
  have hone := hlow [] m (.root m)
  refine ⟨Nat.le_of_add_left_le hone, fun p q hp => h.calls p q (hbelow.trans hp),
    fun p q hp => h.regs p q (hbelow.trans hp), fun w p hw => ?_⟩
  have hlen := hlow w p hw
  omega

theorem Arena.Alike.bare {a a' : Arena} {height : Nat} {id : NodeId}
    (h : Alike Node.links a a' id) (hbare : a.Bare height id) : a'.Bare height id where
  calls m n hm hn := by
    have hm := h.below_iff.1 hm
    exact hbare.calls m n hm ((h m hm).symm.trans hn)
  regs m n hm hn := by
    have hm := h.below_iff.1 hm
    exact hbare.regs m n hm ((h m hm).symm.trans hn)
  low w m hw := hbare.low w m (h.path_iff.1 hw)

/-- Trees without registers, no two of which have a node in common, and whose assignments are to
places. -/
structure Arena.Grove (a : Arena) (height : Nat) (roots : List NodeId) : Prop where
  tree : ∀ root ∈ roots, a.IsTree Node.links root
  clear : ∀ root ∈ roots, a.Clear root
  bare : ∀ root ∈ roots, a.Bare height root
  apart : roots.Pairwise fun root root' =>
    ∀ m, a.Below Node.links root m → ¬ a.Below Node.links root' m

namespace X64

variable {a : Arena} {id : NodeId} {k k' : Nat} {x : Nonterminal} {goals : List Goal}
  {os : List Operand} {own code : List Instr} {o : Operand} {v : Nat}

/-! ## One rule -/

section Sequences

variable {dst left right : VirtualReg} {lhs rhs : Operand}

theorem mentioned_arithmetic (op : BinaryOp) :
    mentioned (arithmetic op dst lhs rhs) ⊆ named [lhs, rhs] ∪ {dst.index} := by
  intro v
  unfold arithmetic
  rw [named_pair]
  repeat' split
  all_goals
    simp only [mentioned_move, mentioned_bare, mentioned_unary, mentioned_binary, mentioned_nil,
      named_vreg, named_fixed, Finset.mem_union, Finset.mem_singleton, Finset.notMem_empty]
    tauto

theorem mentioned_comparison (c : Condition) :
    mentioned (comparison c dst lhs rhs) = named [lhs, rhs] ∪ {dst.index} := by
  ext v
  rw [named_pair]
  simp only [comparison, mentioned_move, mentioned_unary, mentioned_binary, mentioned_nil,
    named_vreg, named_imm, Finset.mem_union, Finset.mem_singleton, Finset.notMem_empty]
  tauto

theorem mentioned_inPlace (op : UnaryOp) :
    mentioned (inPlace op dst lhs) ⊆ named [lhs] ∪ {dst.index} := by
  intro v
  cases op with
  | logicalNot =>
      rw [inPlace, mentioned_comparison, named_pair, named_imm, Finset.union_empty]
      exact id
  | _ =>
      simp only [inPlace, mentioned_move, mentioned_unary, mentioned_nil, named_vreg,
        Finset.mem_union, Finset.mem_singleton, Finset.notMem_empty]
      tauto

theorem mentioned_callSequence (callee : String) :
    mentioned (callSequence callee os dst) ⊆ named os ∪ {dst.index} := by
  rcases callSequence_cases callee os dst with ⟨front, heq, hfront⟩
  rw [heq, mentioned_append]
  refine Finset.union_subset_union (mentioned_subset fun i hi => ?_) (by simp)
  rcases hfront i hi with ⟨o, ho, rfl | ⟨reg, rfl⟩⟩ | rfl | rfl
  · simpa using named_subset ho
  · simpa using named_subset ho
  · simp
  · simp

theorem mentioned_junction (op : LogicalOp) :
    mentioned (junction op left right dst lhs rhs) =
      named [lhs, rhs] ∪ {left.index, right.index, dst.index} := by
  ext v
  simp only [junction, mentioned_append, mentioned_comparison, mentioned_move, mentioned_binary,
    mentioned_nil, named_pair, named_vreg, named_imm, Finset.mem_union, Finset.mem_insert,
    Finset.mem_singleton, Finset.notMem_empty]
  tauto

end Sequences

/-- The instructions of a rule mention its operands and the registers issued for it. -/
theorem Scheme.mentioned_subset (h : Scheme a id k x goals os own o k') :
    mentioned own ⊆ named os ∪ Finset.Ico k k' := by
  have hissued : ({k} : Finset Nat) ⊆ Finset.Ico k (k + 1) := by simp
  cases h with
  | literal | vreg | mem | slot | grouping | deref | derefFolded => exact Finset.empty_subset _
  | wideLiteral | framePointer | addressOf | store => simp
  | copy | signExtend =>
      rw [Finset.union_comm]
      simp
  | binary => exact (mentioned_arithmetic _).trans (Finset.union_subset_union_right hissued)
  | unary => exact (mentioned_inPlace _).trans (Finset.union_subset_union_right hissued)
  | compare =>
      rw [mentioned_comparison]
      exact Finset.union_subset_union_right hissued
  | logical =>
      rw [mentioned_junction]
      refine Finset.union_subset_union_right ?_
      intro v
      simp only [index_temporary, Finset.mem_insert, Finset.mem_singleton, Finset.mem_Ico]
      omega
  | call => exact (mentioned_callSequence _).trans (Finset.union_subset_union_right hissued)

/-- So does the operand that stands for the node, unless the node itself mentions a register. -/
theorem Scheme.named_subset (h : Scheme a id k x goals os own o k')
    (hregs : ∀ n, a.get? id = some n → n.reg? = none) : named [o] ⊆ named os ∪ Finset.Ico k k' := by
  cases h with
  | literal | slot => exact Finset.empty_subset _
  | vreg hn => cases hregs _ hn
  | @mem addr hn =>
      rcases addr with ⟨base, disp⟩
      cases base with
      | reg r => cases hregs _ hn
      | _ => exact Finset.empty_subset _
  | grouping | deref => exact Finset.subset_union_left
  | derefFolded | store => simp
  | _ =>
      refine Finset.Subset.trans ?_ Finset.subset_union_right
      simp

/-- One register is issued for a rule, or none; only a junction takes three. -/
theorem Scheme.issues (h : Scheme a id k x goals os own o k') :
    k' ≤ k + 1 ∨ ∃ op lhs rhs, os = [lhs, rhs] ∧ o = .vreg (temporary (k + 2)) ∧
      own = junction op (temporary k) (temporary (k + 1)) (temporary (k + 2)) lhs rhs := by
  cases h with
  | logical => exact .inr ⟨_, _, _, rfl, rfl, rfl⟩
  | _ => exact .inl (by omega)

section Suffices

variable {known awaited passing : Finset Nat}

/-- A junction has its operands tested one after the other, so that of its five registers no more
than three are live at once. -/
theorem suffices_junction {op : LogicalOp} {lhs rhs : Operand} (hknown : ∀ v ∈ known, v < k)
    (hos : named [lhs, rhs] ⊆ known) (hpassing : known ∩ awaited ⊆ passing) :
    Suffices (passing.card + 3) known
      (junction op (temporary k) (temporary (k + 1)) (temporary (k + 2)) lhs rhs) awaited := by
  rw [named_pair] at hos
  have hlhs : ∀ v ∈ named [lhs], v ∈ known := fun v hv => hos (Finset.mem_union_left _ hv)
  have hrhs : ∀ v ∈ named [rhs], v ∈ known := fun v hv => hos (Finset.mem_union_right _ hv)
  have hpasses : ∀ v ∈ known, v ∈ awaited → v ∈ passing :=
    fun v hv hv' => hpassing (Finset.mem_inter.2 ⟨hv, hv'⟩)
  refine Suffices.append (.append (.of_card ?_) (.of_card ?_)) (.of_card ?_)
  · -- the right operand waits while the left one is tested
    refine card_le_of_subset [lhs, rhs, .vreg (temporary k)] fun v hv => ?_
    rw [named_cons, named_pair]
    simp only [mentioned_comparison, mentioned_move, mentioned_binary, mentioned_nil, named_pair,
      named_vreg, named_imm, index_temporary, Finset.mem_union, Finset.mem_inter,
      Finset.mem_singleton, Finset.notMem_empty] at hv ⊢
    grind
  · -- then the outcome waits
    refine card_le_of_subset [.vreg (temporary k), rhs, .vreg (temporary (k + 1))] fun v hv => ?_
    rw [named_cons, named_pair]
    simp only [mentioned_comparison, mentioned_move, mentioned_binary, mentioned_nil, named_pair,
      named_vreg, named_imm, index_temporary, Finset.mem_union, Finset.mem_inter,
      Finset.mem_singleton, Finset.notMem_empty] at hv ⊢
    grind
  · -- in the end both outcomes are combined, and the operands are not needed any more
    refine card_le_of_subset [.vreg (temporary k), .vreg (temporary (k + 1)),
      .vreg (temporary (k + 2))] fun v hv => ?_
    rw [named_cons, named_pair]
    simp only [mentioned_comparison, mentioned_append, mentioned_move, mentioned_binary,
      mentioned_nil, named_pair, named_vreg, named_imm, index_temporary, Finset.mem_union,
      Finset.mem_inter, Finset.mem_singleton, Finset.notMem_empty] at hv ⊢
    grind

/-- The instructions of a rule need one register more than it has operands. -/
theorem Scheme.suffices (h : Scheme a id k x goals os own o k')
    (hregs : ∀ n, a.get? id = some n → n.reg? = none) (hknown : ∀ v ∈ known, v < k)
    (hos : named os ⊆ known) (hpassing : known ∩ awaited ⊆ passing ∪ named [o]) :
    Suffices (passing.card + (os.length + 1)) known own awaited := by
  rcases h.issues with hone | ⟨op, lhs, rhs, rfl, rfl, rfl⟩
  · -- all that is mentioned may be live at once
    refine .of_card ?_
    have hsubset : known ∩ awaited ∪ mentioned own ⊆ passing ∪ (named os ∪ Finset.Ico k k') := by
      refine Finset.union_subset (hpassing.trans (Finset.union_subset_union_right ?_))
        (h.mentioned_subset.trans Finset.subset_union_right)
      exact h.named_subset hregs
    calc (known ∩ awaited ∪ mentioned own).card
      _ ≤ passing.card + (named os ∪ Finset.Ico k k').card :=
          (Finset.card_le_card hsubset).trans (Finset.card_union_le _ _)
      _ ≤ passing.card + ((named os).card + (Finset.Ico k k').card) :=
          Nat.add_le_add_left (Finset.card_union_le _ _) _
      _ ≤ passing.card + (os.length + 1) := by
          have hnamed := card_named_le os
          rw [Nat.card_Ico]
          omega
  · refine suffices_junction hknown hos fun v hv => ?_
    -- the result is new, so it is not known
    rcases Finset.mem_union.1 (hpassing hv) with hv' | hv'
    · exact hv'
    · have hlt := hknown v (Finset.mem_inter.1 hv).1
      rw [named_vreg, Finset.mem_singleton, index_temporary] at hv'
      omega

end Suffices

/-! ## Goals -/

theorem Scheme.length_le_two (h : Scheme a id k x goals os own o k')
    (hcall : ∀ n, a.get? id = some n → n.kind ≠ .call) : goals.length ≤ 2 := by
  cases h with
  | call hn => exact absurd rfl (hcall _ hn)
  | _ => simp

/-- The goals that a rule rests on are lower, the more so the more there are. -/
theorem Scheme.lowers (h : Scheme a id k x goals os own o k') {height : Nat}
    (hbare : a.Bare height id) :
    ∃ height', (∀ goal ∈ goals, a.Bare height' goal.1) ∧ height' + goals.length ≤ height + 1 := by
  have htwo := h.length_le_two fun n => hbare.calls id n (.refl id)
  rcases h.descends with ⟨y, o', rfl, -, -⟩ | hdown
  · -- a copy rests on the node itself, but on nothing else
    refine ⟨height, fun goal hgoal => ?_, Nat.le_refl _⟩
    rw [List.mem_singleton.1 hgoal]
    exact hbare
  · cases goals with
    | nil => exact ⟨height, nofun, Nat.le_succ _⟩
    | cons goal goals =>
        have hlower : ∀ goal' ∈ goal :: goals, 1 ≤ height ∧ a.Bare (height - 1) goal'.1 := by
          intro goal' hgoal'
          rcases hdown goal' hgoal' with ⟨n, c, hn, hc, hm⟩
          exact hbare.of_link hn hc hm
        -- two goals at most, one level down
        have hone := (hlower goal List.mem_cons_self).1
        exact ⟨height - 1, fun goal' hgoal' => (hlower goal' hgoal').2, by omega⟩

theorem mem_mentioned_of_written (h : v ∈ written code) : v ∈ mentioned code := by
  rcases List.mem_filterMap.1 h with ⟨i, hi, hv⟩
  unfold Instr.written? at hv
  split at hv
  · split at hv
    · rename_i r hdst
      cases hv
      refine mem_mentioned_iff.2 ⟨i, hi, r, ?_, rfl⟩
      simp [Instr.regs, Instr.operands, hdst, Operand.reg?]
    · cases hv
  · cases hv

/-- Where no node mentions a register, code and operands mention those that were issued. -/
theorem Code.bounded {height : Nat} (h : Code a goals k code os k')
    (hbare : ∀ goal ∈ goals, a.Bare height goal.1) :
    mentioned code ⊆ Finset.Ico k k' ∧ named os ⊆ Finset.Ico k k' := by
  induction h generalizing height with
  | nil k => simp
  | @cons id x goals rest k k₁ k₂ k' code own code' os os' o hgoals hscheme hrest ih ih' =>
      have hid := hbare _ List.mem_cons_self
      rcases hscheme.lowers hid with ⟨height', hbelow, -⟩
      rcases ih hbelow with ⟨hcode, hos⟩
      rcases ih' fun goal hgoal => hbare goal (List.mem_cons_of_mem _ hgoal) with ⟨hcode', hos'⟩
      have hle := hgoals.le
      have hle₁ := hscheme.le
      have hle₂ := hrest.le
      have hfirst : Finset.Ico k k₁ ⊆ Finset.Ico k k' := Finset.Ico_subset_Ico_right (by omega)
      have hlast : Finset.Ico k₂ k' ⊆ Finset.Ico k k' := Finset.Ico_subset_Ico_left (by omega)
      have hissued : named os ∪ Finset.Ico k₁ k₂ ⊆ Finset.Ico k k' :=
        Finset.union_subset (hos.trans hfirst) (Finset.Ico_subset_Ico hle hle₂)
      have ho := hscheme.named_subset fun n => hid.regs id n (.refl id)
      rw [mentioned_append, mentioned_append, named_cons]
      exact ⟨Finset.union_subset (Finset.union_subset (hcode.trans hfirst)
          (hscheme.mentioned_subset.trans hissued)) (hcode'.trans hlast),
        Finset.union_subset (ho.trans hissued) (hos'.trans hlast)⟩

/-- Goals one after the other, of bounded height: each but the first has the operands of those
before it wait.  What is known and awaited passes by. -/
theorem Code.suffices {height : Nat} {known awaited : Finset Nat} (h : Code a goals k code os k')
    (hbare : ∀ goal ∈ goals, a.Bare height goal.1) (hknown : ∀ v ∈ known, v < k)
    (hawaited : ∀ v ∈ awaited, k ≤ v → v < k' → v ∈ named os) :
    Suffices ((known ∩ awaited).card + (height + 1 + goals.length)) known code awaited := by
  induction h generalizing height known awaited with
  | nil k => trivial
  | @cons id x goals rest k k₁ k₂ k' code own code' os os' o hgoals hscheme hrest ih ih' =>
      have hid := hbare _ List.mem_cons_self
      have hothers : ∀ goal ∈ rest, a.Bare height goal.1 :=
        fun goal hgoal => hbare goal (List.mem_cons_of_mem _ hgoal)
      have hregs : ∀ n, a.get? id = some n → n.reg? = none := fun n => hid.regs id n (.refl id)
      rcases hscheme.lowers hid with ⟨height', hbelow, hlow⟩
      rcases hgoals.bounded hbelow with ⟨hcode, hos⟩
      rcases hrest.bounded hothers with ⟨hcode', hos'⟩
      have hle := hgoals.le
      have hle₁ := hscheme.le
      have hle₂ := hrest.le
      have hown := hscheme.mentioned_subset
      have ho := hscheme.named_subset hregs
      rw [named_cons] at hawaited
      simp only [Finset.subset_iff, Finset.mem_Ico] at hcode hos hcode' hos'
      simp only [Finset.subset_iff, Finset.mem_union, Finset.mem_Ico] at hown ho hawaited
      refine Suffices.append (.append ?_ ?_) ?_
      · -- the goals of the rule; what is mentioned later is new or an operand
        refine (ih hbelow hknown fun v hv => ?_).mono (Nat.add_le_add (Finset.card_le_card ?_) ?_)
        · simp only [Finset.mem_union] at hv
          grind
        · intro v hv
          simp only [Finset.mem_union, Finset.mem_inter] at hv ⊢
          grind
        · rw [List.length_cons]
          omega
      · -- the rule itself, whose operands the goals have written
        have hpassing : (known ∪ mentioned code) ∩ (mentioned code' ∪ awaited) ⊆
            known ∩ awaited ∪ named [o] := by
          intro v hv
          simp only [Finset.mem_union, Finset.mem_inter] at hv ⊢
          grind
        refine (hscheme.suffices hregs ?_ ?_ hpassing).mono (Nat.add_le_add_left ?_ _)
        · intro v hv
          simp only [Finset.mem_union] at hv
          grind
        · intro v hv
          have hwritten := hgoals.mem_written_iff.2 (hos hv)
          exact Finset.mem_union_right _ (mem_mentioned_of_written hwritten)
        · rw [hgoals.length_eq, List.length_cons]
          omega
      · -- the goals that follow, while the operand waits
        have hpassing : ((known ∪ mentioned (code ++ own)) ∩ awaited).card ≤
            (known ∩ awaited).card + 1 := by
          refine card_le_of_subset [o] fun v hv => ?_
          simp only [mentioned_append, Finset.mem_union, Finset.mem_inter] at hv ⊢
          grind
        refine (ih' hothers ?_ ?_).mono ?_
        · intro v hv
          simp only [mentioned_append, Finset.mem_union] at hv
          grind
        · intro v hv hlow hhigh
          grind
        · rw [List.length_cons]
          omega

/-! ## Trees one after the other -/

section Trees

variable {settings : Settings} {t : Target} {s s' : Selection} {root value : NodeId} {height : Nat}

/-- A selection that succeeds changes no node outside of its tree. -/
theorem selectRoot_spares (ht : Target.x64 settings = .ok t)
    (htree : s.arena.IsTree Node.links root) (hrun : (t.selectRoot root).run s = .ok value s')
    {m : NodeId} (hm : m < s.arena.size) (hapart : ¬ s.arena.Below Node.links root m) :
    s'.arena.get? m = s.arena.get? m := by
  by_cases hblocked : s.arena.Blocked root
  · rcases selectRoot_refuses ht htree.nearTree hblocked with ⟨n, table, trace, -, hrefused⟩
    cases hrun.symm.trans hrefused
  · rcases htree.nearTree with ⟨site, hroot, hsited⟩
    rcases exists_prepared ht hsited hroot with ⟨table, trace, hprepared, hrecords, heq⟩
    have hfuel : ∀ w m, s.arena.Path Node.links root w m →
        w.length + (if Nonterminal.reg = .reg then 1 else 0) < t.nesting s.arena :=
      fun w m hw => Target.lt_nesting t htree.isDag hw
    have hends := reduces ht _ hprepared (hrecords.2 hblocked) hfuel { s with table, trace }
      (.refl { s with table, trace } root)
    rw [heq, run_bind_eq_ok] at hrun
    rcases hrun with ⟨v, s₁, hreduce, hcounted⟩
    rw [hreduce] at hends
    cases hcounted
    cases hends with
    | ok _ hv => exact hv.1.nodes m hm fun h => absurd h hapart

/-- The stream gets by with `n` registers, whichever of those not issued yet are awaited. -/
structure Frugal (n : Nat) (s : Selection) : Prop where
  issued : ∀ v ∈ mentioned s.stream.toList, v < s.nextReg
  room : ∀ awaited, (∀ v ∈ awaited, s.nextReg ≤ v) → Suffices n ∅ s.stream.toList awaited

/-- One more tree: between trees nothing waits. -/
theorem Frugal.wrote (h : Frugal (height + 2) s) (hbare : s.arena.Bare height root)
    (hwrote : Wrote s.arena [(root, x)] [o] s s') : Frugal (height + 2) s' := by
  rcases hwrote.code with ⟨code, hstream, hcode⟩
  have hgoals : ∀ goal ∈ [(root, x)], s.arena.Bare height goal.1 := by
    intro goal hgoal
    rw [List.mem_singleton.1 hgoal]
    exact hbare
  have hle := hcode.le
  have hmentioned := (hcode.bounded hgoals).1
  simp only [Finset.subset_iff, Finset.mem_Ico] at hmentioned
  constructor
  · intro v hv
    rw [hstream, mentioned_append, Finset.mem_union] at hv
    rcases hv with hv | hv
    · exact (h.issued v hv).trans_le hle
    · exact (hmentioned hv).2
  · intro awaited hawaited
    rw [hstream]
    -- the trees before do not see the registers of this one, nor does it see theirs
    refine .append (h.room _ fun v hv => ?_) ?_
    · rcases Finset.mem_union.1 hv with hv | hv
      · exact (hmentioned hv).1
      · exact hle.trans (hawaited v hv)
    · rw [Finset.empty_union]
      have hnone : mentioned s.stream.toList ∩ awaited = ∅ := by
        refine Finset.eq_empty_of_forall_notMem fun v hv => ?_
        rw [Finset.mem_inter] at hv
        have hlow := h.issued v hv.1
        have hhigh := hawaited v hv.2
        omega
      have hsuffices := hcode.suffices hgoals h.issued fun v hv _ hlt =>
        absurd hlt (Nat.not_lt.2 (hawaited v hv))
      rwa [hnone, Finset.card_empty, Nat.zero_add] at hsuffices

/-- Selecting one tree leaves the others as they were. -/
theorem selectRoot_grove (ht : Target.x64 settings = .ok t) {roots : List NodeId}
    (h : s.arena.Grove height (root :: roots)) :
    ∃ value s', (t.selectRoot root).run s = .ok value s' ∧ s'.arena.Grove height roots := by
  have hroot := List.mem_cons_self (a := root) (l := roots)
  have hothers : ∀ root' ∈ roots, root' ∈ root :: roots := fun _ => List.mem_cons_of_mem root
  rcases selectRoot_sustains ht (h.tree root hroot) (h.clear root hroot) with
    ⟨value, s', -, hrun, -, hsustains⟩
  have hapart := List.pairwise_cons.1 h.apart
  -- the nodes of another tree are not below the root that is selected
  have halike : ∀ root' ∈ roots, s.arena.Alike Node.links s'.arena root' := by
    intro root' hroot' m hm
    refine selectRoot_spares ht (h.tree root hroot) hrun
      ((h.tree root' (hothers root' hroot')).inside m hm) ?_
    exact fun hbelow => hapart.1 root' hroot' m hbelow hm
  refine ⟨value, s', hrun, ?_, ?_, ?_, ?_⟩
  · exact fun root' hroot' => hsustains.tree root' (h.tree root' (hothers root' hroot'))
  · exact fun root' hroot' => hsustains.clear root' (h.tree root' (hothers root' hroot'))
      (h.clear root' (hothers root' hroot'))
  · exact fun root' hroot' => (halike root' hroot').bare (h.bare root' (hothers root' hroot'))
  · refine hapart.2.imp_of_mem fun {r r'} hr hr' hnone m hm hm' => ?_
    exact hnone m ((halike r hr).below_iff.1 hm) ((halike r' hr').below_iff.1 hm')

theorem selectRoots_frugal (ht : Target.x64 settings = .ok t) {roots : List NodeId}
    (h : s.arena.Grove height roots) (hfrugal : Frugal (height + 2) s) :
    ∃ s', (roots.forM fun root => discard (t.selectRoot root)).run s = .ok () s' ∧
      Frugal (height + 2) s' := by
  induction roots generalizing s with
  | nil => exact ⟨s, rfl, hfrugal⟩
  | cons root roots ih =>
      rcases selectRoot_grove ht h with ⟨value, s₁, hrun, hgrove⟩
      have hwrites := selectRoot_writes ht (h.tree root List.mem_cons_self)
      rw [hrun] at hwrites
      rcases hwrites.value with ⟨o, hwrote, -⟩
      rcases ih hgrove (hfrugal.wrote (h.bare root List.mem_cons_self) hwrote) with
        ⟨s', hrest, hfrugal'⟩
      refine ⟨s', ?_, hfrugal'⟩
      rw [List.forM, discard, LawfulFunctor.map_const, Function.comp_apply, bind_map_left,
        run_bind_of_ok hrun]
      exact hrest

end Trees

end X64

/-! ## Functions -/

namespace Target

open X64

theorem run_allocate_of_ok {t : Target} {stream : Stream} {s : Selection}
    {result : Allocation × Stream} {trace : Trace}
    (h : (Codegen.allocate t.settings stream).run s.trace = .ok result trace) :
    (t.allocate stream).run s = .ok result { s with trace } := by
  have happlied : Codegen.allocate t.settings stream s.trace = .ok result trace := h
  simp only [EStateM.run, Target.allocate, happlied]

/-- With room for its pressure a stream is allocated, and the peak is the pressure. -/
theorem exists_allocate {t : Target} (hcheck : t.settings.check = .ok ()) {stream : Stream}
    (hroom : Stream.pressure stream ≤ t.settings.registers) (s : Selection) :
    ∃ allocation bound s', (t.allocate stream).run s = .ok (allocation, bound) s' ∧
      allocation.peak = Stream.pressure stream := by
  rcases (t.settings.check_eq_ok_iff).1 hcheck with ⟨hone, hlimit, -⟩
  rcases Scan.exists_run hone hlimit hroom (s.trace.push (.measured (liveIntervals stream).length))
    with ⟨scan, tr₁, hscan⟩
  rcases allocate_eq_ok_iff.2 ⟨hcheck, scan, tr₁, hscan, rfl, rfl⟩ with ⟨tr', hallocate⟩
  exact ⟨_, _, _, run_allocate_of_ok hallocate, (Scan.run_tight hone hlimit hscan).1⟩

/-- A register budget from the height of trees.  Trees without calls and without registers that have
no node in common, and whose assignments are to places, are compiled whatever they compute, if there
are two registers more than the highest of them has levels below its root; and no more than that are
ever needed at once. -/
theorem compile_affordable {settings : Settings} {t : Target} (ht : Target.x64 settings = .ok t)
    {arena : Arena} {roots : List NodeId} {height : Nat} (h : arena.Grove height roots)
    (hroom : height + 2 ≤ settings.registers) :
    ∃ c s', (t.compile roots).run (t.start arena) = .ok c s' ∧
      c.allocation.peak ≤ height + 2 := by
  have hstart : Frugal (height + 2) (t.start arena) := ⟨nofun, fun _ _ => trivial⟩
  rcases selectRoots_frugal ht (s := t.start arena) h hstart with ⟨s₁, hrun, hfrugal⟩
  have hpressure : Stream.pressure s₁.stream ≤ height + 2 :=
    Stream.pressure_le (hfrugal.room ∅ nofun)
  rcases eq_of_build ht with ⟨htarget, hgrammar⟩
  have hsettings : t.settings = settings := congrArg Target.settings htarget
  rw [← hsettings] at hroom hgrammar
  rcases exists_allocate (Grammar.check_settings hgrammar) (hpressure.trans hroom) s₁ with
    ⟨allocation, bound, s₂, hallocate, hpeak⟩
  have hcompile : (t.compile roots).run (t.start arena) = .ok ⟨bound, allocation, s₁.stats⟩
      { s₂ with trace := s₂.trace.push (.compiled s₁.stats.trees bound.size s₁.stats.vregs) } := by
    rw [compile, run_bind_of_ok hrun, run_bind_of_ok (EStateM.run_get s₁), run_bind_of_ok hallocate]
    rfl
  exact ⟨_, _, hcompile, hpeak.trans_le hpressure⟩

/-- The assignment `x = (fp + fp) * -y` with its root at 7, the number 5 at 8, and `*z` with its
root at 10. -/
def threeTrees : Arena :=
  ⟨#[.var ⟨"x", -8⟩, .framePointer, .framePointer, .binary .add 1 2, .var ⟨"y", -16⟩, .unary .neg 4,
    .binary .mul 3 5, .assign 0 6, .literal 5, .var ⟨"z", -24⟩, .deref 9]⟩

theorem grove_threeTrees : threeTrees.Grove 3 [7, 8, 10] := by
  have htree : ∀ root ∈ [7, 8, 10], threeTrees.IsTree Node.links root := by decide
  -- every way from a root leads to a node of its tree, by three slots at most
  have hways : ∀ root ∈ [7, 8, 10], ∀ p ∈ threeTrees.ways Node.links 11 root,
      (slots p.1).length ≤ 3 ∧ (if p.2 ≤ 7 then 7 else if p.2 = 8 then 8 else 10) = root := by
    decide
  have hpath : ∀ root ∈ [7, 8, 10], ∀ w m, threeTrees.Path Node.links root w m →
      (slots w).length ≤ 3 ∧ (if m ≤ 7 then 7 else if m = 8 then 8 else 10) = root :=
    fun root hroot w m hw => hways root hroot (w, m)
      (Arena.mem_ways_iff.2 ⟨hw, (htree root hroot).length_lt hw⟩)
  refine ⟨htree, ?_, ?_, ?_⟩
  · rintro root - m - ⟨target, value, n, hm, hn, hplace⟩
    have hall : ∀ n ∈ threeTrees.nodes, n.kind = .assign → n.children = [0, 6] := by decide
    cases hall _ (Array.mem_of_getElem? hm) rfl
    cases hn
    exact hplace (.inl rfl)
  · have hall : ∀ n ∈ threeTrees.nodes, n.kind ≠ .call ∧ n.reg? = none := by decide
    exact fun root hroot => ⟨fun m n _ hn => (hall n (Array.mem_of_getElem? hn)).1,
      fun m n _ hn => (hall n (Array.mem_of_getElem? hn)).2,
      fun w m hw => (hpath root hroot w m hw).1⟩
  · have hdistinct : [7, 8, 10].Pairwise (· ≠ ·) := by decide
    refine hdistinct.imp_of_mem fun {root root'} hroot hroot' hne m hm hm' => hne ?_
    rcases hm with ⟨w, hw⟩
    rcases hm' with ⟨w', hw'⟩
    exact (hpath root hroot w m hw).2.symm.trans (hpath root' hroot' w' m hw').2

theorem compile_affordable_threeTrees :
    threeTrees.Grove 3 [7, 8, 10] ∧ ∃ t c s', Target.x64 { registers := 5 } = .ok t ∧
      (t.compile [7, 8, 10]).run (t.start threeTrees) = .ok c s' ∧ c.allocation.peak ≤ 5 := by
  have ht : ∃ t, Target.x64 { registers := 5 } = .ok t := ⟨_, rfl⟩
  rcases ht with ⟨t, ht⟩
  rcases compile_affordable ht grove_threeTrees (by decide) with ⟨c, s', hrun, hpeak⟩
  exact ⟨grove_threeTrees, t, c, s', ht, hrun, hpeak⟩

end Target
end Codegen
