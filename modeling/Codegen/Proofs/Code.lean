import Codegen.Proofs.Arguments
import Codegen.Proofs.Emission
import Codegen.X64.Price

/-!
# Code — the instructions that trees amount to

Which instructions are selected for a node depends on the rules that were recorded, but whatever
they are, the code of a node is the code of the goals that its rule rests on, from left to right,
followed by the instructions of the rule.  Here this is a relation on the arena alone, without
labels and without the nodes that stand for values.

* `X64.Scheme`               : the instructions of one rule, for operands that are known
* `X64.Code`                 : the instructions of goals one after the other
* `X64.Code.shapes`          : what the operands look like
* `X64.Code.mem_written_iff` : the registers that are overwritten are those that are issued
-/

namespace Codegen

/-- The virtual register that an instruction overwrites. -/
def Instr.written? (i : Instr) : Option Nat :=
  if i.opcode.writesDst then
    match i.dst with
    | some (.vreg r) => some r.index
    | _ => none
  else
    none

namespace X64

/-- A node and what it is to be reduced to. -/
abbrev Goal := NodeId × Nonterminal

/-- The register that is issued after `k` others. -/
def temporary (k : Nat) : VirtualReg := { index := k }

@[simp] theorem index_temporary (k : Nat) : (temporary k).index = k := rfl

/-- One rule at the node `id`, after `k` registers have been issued: the goals it rests on, the
operands that stand for them, the instructions that are emitted, the operand that stands for the
node, and the number of registers issued in the end. -/
inductive Scheme (a : Arena) (id : NodeId) (k : Nat) :
    Nonterminal → List Goal → List Operand → List Instr → Operand → Nat → Prop
  -- leaves that are operands, or have one for their value
  | literal {value : Int} : a.get? id = some (.literal value) → fits32 value = true →
      Scheme a id k .imm [] [] [] (.imm value) k
  | wideLiteral {value : Int} : a.get? id = some (.literal value) → fits32 value = false →
      Scheme a id k .reg [] [] [.move (.vreg (temporary k)) (.imm value)] (.vreg (temporary k))
        (k + 1)
  | vreg {r : VirtualReg} : a.get? id = some (.vreg r) → Scheme a id k .reg [] [] [] (.vreg r) k
  | mem {addr : Address} : a.get? id = some (.mem addr) → Scheme a id k .mem [] [] [] (.mem addr) k
  | slot {v : Variable} : a.get? id = some (.var v) →
      Scheme a id k .mem [] [] [] (.mem (.frame v.offset)) k
  -- the same node, not for a register: the goal is not that of a child
  | copy {y : Nonterminal} {o : Operand} : y ≠ .reg →
      Scheme a id k .reg [(id, y)] [o] [.move (.vreg (temporary k)) o] (.vreg (temporary k)) (k + 1)
  -- values that are computed into a new register
  | framePointer : a.get? id = some .framePointer →
      Scheme a id k .reg [] [] [.move (.vreg (temporary k)) (.fixed .rbp)] (.vreg (temporary k))
        (k + 1)
  | addressOf {v : Variable} : a.get? id = some (.addrOf v) →
      Scheme a id k .reg [] [] [.binary .lea (.vreg (temporary k)) (.mem (.frame v.offset))]
        (.vreg (temporary k)) (k + 1)
  | binary {op : BinaryOp} {lhs rhs : NodeId} {y : Nonterminal} {o o' : Operand} :
      a.get? id = some (.binary op lhs rhs) → (y = .reg ∨ op ≠ .div ∧ op ≠ .rem) →
      Scheme a id k .reg [(lhs, .reg), (rhs, y)] [o, o'] (arithmetic op (temporary k) o o')
        (.vreg (temporary k)) (k + 1)
  | unary {op : UnaryOp} {c : NodeId} {o : Operand} : a.get? id = some (.unary op c) →
      Scheme a id k .reg [(c, .reg)] [o] (inPlace op (temporary k) o) (.vreg (temporary k)) (k + 1)
  | compare {op : CompareOp} {lhs rhs : NodeId} {y : Nonterminal} {o o' : Operand} :
      a.get? id = some (.compare op lhs rhs) → y ≠ .mem →
      Scheme a id k .reg [(lhs, .reg), (rhs, y)] [o, o']
        (comparison op.condition (temporary k) o o') (.vreg (temporary k)) (k + 1)
  | logical {op : LogicalOp} {lhs rhs : NodeId} {o o' : Operand} :
      a.get? id = some (.logical op lhs rhs) →
      Scheme a id k .reg [(lhs, .reg), (rhs, .reg)] [o, o']
        (junction op (temporary k) (temporary (k + 1)) (temporary (k + 2)) o o')
        (.vreg (temporary (k + 2))) (k + 3)
  -- nothing is computed here, and the operand is handed on
  | grouping {c : NodeId} {r : VirtualReg} : a.get? id = some (.grouping c) →
      Scheme a id k .reg [(c, .reg)] [.vreg r] [] (.vreg r) k
  | signExtend {c : NodeId} {y : Nonterminal} {o : Operand} : a.get? id = some (.signExtend c) →
      y ≠ .imm → Scheme a id k .reg [(c, y)] [o] [.binary .movsx (.vreg (temporary k)) o]
        (.vreg (temporary k)) (k + 1)
  -- addresses; in the second case the goals are two levels below
  | deref {c : NodeId} {r : VirtualReg} : a.get? id = some (.deref c) →
      Scheme a id k .mem [(c, .reg)] [.vreg r] [] (.mem (.ofReg r 0)) k
  | derefFolded {c lhs rhs : NodeId} {op : BinaryOp} {r : VirtualReg} {value disp : Int} :
      a.get? id = some (.deref c) → a.get? c = some (.binary op lhs rhs) →
      displacement? op value = some disp →
      Scheme a id k .mem [(lhs, .reg), (rhs, .imm)] [.vreg r, .imm value] []
        (.mem (.ofReg r disp)) k
  -- effects
  | store {target value : NodeId} {addr : Address} {r : VirtualReg} :
      a.get? id = some (.assign target value) →
      Scheme a id k .reg [(target, .mem), (value, .reg)] [.mem addr, .vreg r]
        [.move (.mem addr) (.vreg r)] (.vreg r) k
  | call {callee : String} {args : List NodeId} {os : List Operand} :
      a.get? id = some (.call callee args) →
      Scheme a id k .reg (args.map fun arg => (arg, .reg)) os (callSequence callee os (temporary k))
        (.vreg (temporary k)) (k + 1)

/-- Goals one after the other: the instructions for all of them, the operands that stand for them,
and the numbers of registers issued before and after. -/
inductive Code (a : Arena) : List Goal → Nat → List Instr → List Operand → Nat → Prop
  | nil (k : Nat) : Code a [] k [] [] k
  | cons {id : NodeId} {x : Nonterminal} {goals rest : List Goal} {k k₁ k₂ k' : Nat}
      {code own code' : List Instr} {os os' : List Operand} {o : Operand} :
      Code a goals k code os k₁ → Scheme a id k₁ x goals os own o k₂ → Code a rest k₂ code' os' k' →
        Code a ((id, x) :: rest) k (code ++ own ++ code') (o :: os') k'

variable {a : Arena} {id : NodeId} {k k₁ k' : Nat} {x : Nonterminal} {goals goals' : List Goal}
  {os os' : List Operand} {own code code' : List Instr} {o : Operand}

/-! ## Sequences of goals -/

theorem Code.append (h : Code a goals k code os k₁) (h' : Code a goals' k₁ code' os' k') :
    Code a (goals ++ goals') k (code ++ code') (os ++ os') k' := by
  induction h with
  | nil => exact h'
  | cons hgoals hscheme _ _ ih =>
      rw [List.append_assoc]
      exact .cons hgoals hscheme (ih h')

theorem Code.single (h : Code a goals k code os k₁) (hscheme : Scheme a id k₁ x goals os own o k') :
    Code a [(id, x)] k (code ++ own) [o] k' := by
  have hcode := Code.cons h hscheme (.nil k')
  rwa [List.append_nil] at hcode

theorem Code.length_eq (h : Code a goals k code os k') : os.length = goals.length := by
  induction h with
  | nil => rfl
  | cons _ _ _ _ ih => rw [List.length_cons, List.length_cons, ih]

/-! ## Operands -/

/-- What an operand looks like that stands for a node reduced to a nonterminal. -/
def Shows : Nonterminal → Operand → Prop
  | .reg, .vreg _ | .imm, .imm _ | .mem, .mem _ => True
  | _, _ => False

theorem Shows.exists_vreg (h : Shows .reg o) : ∃ r, o = .vreg r := by
  cases o with
  | vreg r => exact ⟨r, rfl⟩
  | _ => exact absurd h not_false

theorem Shows.exists_mem (h : Shows .mem o) : ∃ addr, o = .mem addr := by
  cases o with
  | mem addr => exact ⟨addr, rfl⟩
  | _ => exact absurd h not_false

theorem Scheme.shows (h : Scheme a id k x goals os own o k') : Shows x o := by
  cases h <;> exact trivial

theorem Code.shapes (h : Code a goals k code os k') :
    List.Forall₂ (fun goal o => Shows goal.2 o) goals os := by
  induction h with
  | nil => exact .nil
  | cons _ hscheme _ _ ih => exact .cons hscheme.shows ih

/-- Only a literal is reduced to an immediate. -/
theorem Scheme.exists_literal (h : Scheme a id k .imm goals os own o k') :
    ∃ value, o = .imm value ∧ a.get? id = some (.literal value) := by
  cases h with
  | literal hn _ => exact ⟨_, rfl, hn⟩

theorem Code.exists_literal {rest : List Goal} (h : Code a ((id, .imm) :: rest) k code os k') :
    ∃ value os', os = .imm value :: os' ∧ a.get? id = some (.literal value) := by
  cases h with
  | cons _ hscheme _ =>
      rcases hscheme.exists_literal with ⟨value, rfl, hn⟩
      exact ⟨value, _, rfl, hn⟩

/-! ## Nodes -/

/-- A rule rests on goals further down, unless it copies the value of the node itself. -/
theorem Scheme.descends (h : Scheme a id k x goals os own o k') :
    (∃ y o', goals = [(id, y)] ∧ os = [o'] ∧ own = [.move (.vreg (temporary k)) o']) ∨
      ∀ goal ∈ goals, ∃ n c, a.get? id = some n ∧ c ∈ n.links ∧ a.Below Node.links c goal.1 := by
  cases h with
  | literal | wideLiteral | vreg | mem | slot | framePointer | addressOf => exact .inr nofun
  | copy => exact .inl ⟨_, _, rfl, rfl, rfl⟩
  | binary hn | compare hn | logical hn | store hn =>
      refine .inr fun goal hgoal => ?_
      rcases List.mem_cons.1 hgoal with rfl | hgoal
      · exact ⟨_, _, hn, List.mem_cons_self, .refl _⟩
      · rw [List.mem_singleton.1 hgoal]
        exact ⟨_, _, hn, List.mem_cons_of_mem _ List.mem_cons_self, .refl _⟩
  | unary hn | grouping hn | signExtend hn | deref hn =>
      refine .inr fun goal hgoal => ?_
      rw [List.mem_singleton.1 hgoal]
      exact ⟨_, _, hn, List.mem_cons_self, .refl _⟩
  | derefFolded hn hc =>
      -- the goals are the children of the child
      refine .inr fun goal hgoal => ?_
      refine ⟨_, _, hn, List.mem_cons_self, .of_mem hc ?_⟩
      rcases List.mem_cons.1 hgoal with rfl | hgoal
      · exact List.mem_cons_self
      · rw [List.mem_singleton.1 hgoal]
        exact List.mem_cons_of_mem _ List.mem_cons_self
  | call hn =>
      refine .inr fun goal hgoal => ?_
      rcases List.mem_map.1 hgoal with ⟨arg, harg, rfl⟩
      exact ⟨_, _, hn, harg, .refl _⟩

theorem Scheme.below (h : Scheme a id k x goals os own o k') {goal : Goal} (hgoal : goal ∈ goals) :
    a.Below Node.links id goal.1 := by
  rcases h.descends with ⟨y, o', rfl, -⟩ | hdown
  · rw [List.mem_singleton.1 hgoal]
    exact .refl id
  · rcases hdown goal hgoal with ⟨n, c, hn, hc, hbelow⟩
    exact (Arena.Below.of_mem hn hc).trans hbelow

/-! ## Registers -/

theorem Scheme.le (h : Scheme a id k x goals os own o k') : k ≤ k' := by
  cases h <;> omega

theorem Code.le (h : Code a goals k code os k') : k ≤ k' := by
  induction h with
  | nil => exact Nat.le_refl _
  | cons _ hscheme _ ih ih' => exact ih.trans (hscheme.le.trans ih')

/-- The forms of an arithmetic sequence: a division, or a copy that is combined in place. -/
theorem arithmetic_cases (op : BinaryOp) (dst : VirtualReg) (lhs rhs : Operand) :
    (∃ result, arithmetic op dst lhs rhs =
      [.move (.fixed .rax) lhs, .bare .cqo, .unary .idiv rhs,
        .move (.vreg dst) (.fixed result)]) ∨
    ∃ opcode count, opcode? op = some opcode ∧
      (count = [] ∨ count = [.move (.fixed .rcx) rhs]) ∧ ∃ src, arithmetic op dst lhs rhs =
        .move (.vreg dst) lhs :: (count ++ [.binary opcode (.vreg dst) src]) := by
  unfold arithmetic
  cases hop : opcode? op with
  | none => exact .inl ⟨_, rfl⟩
  | some opcode =>
      dsimp only
      split
      · exact .inr ⟨opcode, _, rfl, .inr rfl, _, rfl⟩
      · exact .inr ⟨opcode, [], rfl, .inl rfl, _, rfl⟩

theorem opcode?_writesDst {op : BinaryOp} {opcode : Opcode} (h : opcode? op = some opcode) :
    opcode.writesDst = true := by
  cases op <;> cases h <;> rfl

/-- The registers that a sequence overwrites. -/
abbrev written (code : List Instr) : List Nat := code.filterMap Instr.written?

section Written

variable {v : Nat} {dst : VirtualReg} {lhs rhs src : Operand}

@[simp] theorem written?_move_vreg : (Instr.move (.vreg dst) src).written? = some dst.index := rfl

@[simp] theorem written?_move_fixed {r : MachineReg} :
    (Instr.move (.fixed r) src).written? = none := rfl

@[simp] theorem written?_move_mem {addr : Address} :
    (Instr.move (.mem addr) src).written? = none := rfl

theorem mem_written_arithmetic {op : BinaryOp} :
    v ∈ written (arithmetic op dst lhs rhs) ↔ v = dst.index := by
  rcases arithmetic_cases op dst lhs rhs with ⟨result, heq⟩ | ⟨opcode, count, hop, hcount, src, heq⟩
  · have hcqo : (Instr.bare .cqo).written? = none := rfl
    have hidiv : (Instr.unary .idiv rhs).written? = none := rfl
    rw [heq]
    simp [written, hcqo, hidiv, eq_comm]
  · have hwrites : (Instr.binary opcode (.vreg dst) src).written? = some dst.index := by
      simp [Instr.written?, Instr.binary, opcode?_writesDst hop]
    rw [heq]
    rcases hcount with rfl | rfl <;> simp [written, hwrites, eq_comm]

theorem mem_written_comparison {c : Condition} :
    v ∈ written (comparison c dst lhs rhs) ↔ v = dst.index := by
  have hcmp : (Instr.binary .cmp lhs rhs).written? = none := rfl
  have hset : (Instr.unary (.set c) (.vreg dst)).written? = some dst.index := rfl
  simp [comparison, written, hcmp, hset, eq_comm]

theorem mem_written_inPlace {op : UnaryOp} :
    v ∈ written (inPlace op dst src) ↔ v = dst.index := by
  have hneg : (Instr.unary .neg (.vreg dst)).written? = some dst.index := rfl
  have hnot : (Instr.unary .not (.vreg dst)).written? = some dst.index := rfl
  cases op with
  | neg => simp [inPlace, written, hneg, eq_comm]
  | not => simp [inPlace, written, hnot, eq_comm]
  | logicalNot => exact mem_written_comparison

theorem mem_written_junction {op : LogicalOp} {left right : VirtualReg} :
    v ∈ written (junction op left right dst lhs rhs) ↔
      v = left.index ∨ v = right.index ∨ v = dst.index := by
  have hcombined : ∀ opcode : Opcode, opcode = .and ∨ opcode = .or →
      (Instr.binary opcode (.vreg dst) (.vreg right)).written? = some dst.index := by
    rintro opcode (rfl | rfl) <;> rfl
  unfold junction
  rw [written, List.filterMap_append, List.filterMap_append, List.mem_append, List.mem_append,
    mem_written_comparison, mem_written_comparison, or_assoc]
  cases op <;> simp [hcombined, eq_comm]

theorem mem_written_callSequence {callee : String} :
    v ∈ written (callSequence callee os dst) ↔ v = dst.index := by
  rcases callSequence_cases callee os dst with ⟨front, heq, hfront⟩
  -- pushes, moves into argument registers, the call and the adjustment write no virtual register
  have hnone : front.filterMap Instr.written? = [] := by
    refine List.filterMap_eq_nil_iff.2 fun i hi => ?_
    rcases hfront i hi with ⟨o, -, rfl | ⟨reg, rfl⟩⟩ | rfl | rfl <;> rfl
  rw [heq, written, List.filterMap_append, hnone]
  simp only [List.filterMap_cons, List.filterMap_nil, written?_move_vreg, List.nil_append,
    List.mem_singleton]

end Written

/-- The instructions of a rule overwrite the registers that are issued for them. -/
theorem Scheme.mem_written_iff (h : Scheme a id k x goals os own o k') {v : Nat} :
    v ∈ written own ↔ k ≤ v ∧ v < k' := by
  cases h with
  | literal | vreg | mem | slot | grouping | deref | derefFolded | store =>
      simp only [written, List.filterMap_nil, List.filterMap_cons, written?_move_mem,
        List.not_mem_nil, false_iff]
      omega
  | wideLiteral | copy | framePointer =>
      simp only [written, List.filterMap_cons, List.filterMap_nil, written?_move_vreg,
        List.mem_singleton, index_temporary]
      omega
  | addressOf | signExtend =>
      simp only [written, List.filterMap_cons, List.filterMap_nil, Instr.written?, Instr.binary,
        Opcode.writesDst, if_true, List.mem_singleton, index_temporary]
      omega
  | binary =>
      rw [mem_written_arithmetic, index_temporary]
      omega
  | unary =>
      rw [mem_written_inPlace, index_temporary]
      omega
  | compare =>
      rw [mem_written_comparison, index_temporary]
      omega
  | logical =>
      simp only [mem_written_junction, index_temporary]
      omega
  | call =>
      rw [mem_written_callSequence, index_temporary]
      omega

/-- Code overwrites the registers that are issued for it, all of them and no others. -/
theorem Code.mem_written_iff (h : Code a goals k code os k') {v : Nat} :
    v ∈ written code ↔ k ≤ v ∧ v < k' := by
  induction h with
  | nil =>
      simp only [written, List.filterMap_nil, List.not_mem_nil, false_iff]
      omega
  | cons hgoals hscheme hrest ih ih' =>
      rw [written, List.filterMap_append, List.filterMap_append, List.mem_append, List.mem_append,
        ih, hscheme.mem_written_iff, ih']
      have hle := hgoals.le
      have hle' := hscheme.le
      have hle'' := hrest.le
      omega

end X64
end Codegen
