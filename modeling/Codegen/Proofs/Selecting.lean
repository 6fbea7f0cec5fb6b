import Codegen.Proofs.Emission
import Codegen.Proofs.Run
import Codegen.Reduction

/-!
# Selecting — what the steps of a selection do to its state

Emission procedures read operands off the arena, issue registers, emit instructions and append a
node for the value.

* `Node.operand?`      : the operand that a node stands for
* `Selection.leaving`  : the state after a sequence has been emitted into a fresh register
* `run_*`              : what each emission procedure returns, and the state it leaves
* `Selection.Extends`  : what any part of a selection keeps of the state
-/

namespace Codegen

def Node.operand? : Node → Option Operand
  | .vreg r => some (.vreg r)
  | .mem a => some (.mem a)
  | .literal value => some (.imm value)
  | _ => none

/-- The operand that the node at a position stands for. -/
def Arena.operand? (a : Arena) (id : NodeId) : Option Operand := (a.get? id).bind Node.operand?

/-! ## States -/

namespace Selection

/-- The register that is issued next. -/
def fresh (s : Selection) : VirtualReg := { index := s.nextReg }

def issued (s : Selection) : Selection :=
  { s with nextReg := s.nextReg + 1, stats := { s.stats with vregs := s.stats.vregs + 1 } }

def emitted (s : Selection) : List Instr → Selection
  | [] => s
  | i :: rest =>
      { s with
        trace := s.trace.push (.emitted i)
        stream := s.stream.push i
        stats := { s.stats with instrs := s.stats.instrs + 1 } }.emitted rest

def appended (s : Selection) (n : Node) : Selection := { s with arena := s.arena.push n }

/-- The state after `code` has been emitted and the next register taken for its value. -/
def leaving (s : Selection) (code : List Instr) : Selection :=
  (s.issued.emitted code).appended (.vreg s.fresh)

variable (s : Selection) (code rest : List Instr)

@[simp] theorem table_emitted : (s.emitted code).table = s.table := by
  induction code generalizing s with
  | nil => rfl
  | cons i rest ih => exact ih _

@[simp] theorem arena_emitted : (s.emitted code).arena = s.arena := by
  induction code generalizing s with
  | nil => rfl
  | cons i rest ih => exact ih _

@[simp] theorem nextReg_emitted : (s.emitted code).nextReg = s.nextReg := by
  induction code generalizing s with
  | nil => rfl
  | cons i rest ih => exact ih _

@[simp] theorem vregs_emitted : (s.emitted code).stats.vregs = s.stats.vregs := by
  induction code generalizing s with
  | nil => rfl
  | cons i rest ih => exact ih _

@[simp] theorem trees_emitted : (s.emitted code).stats.trees = s.stats.trees := by
  induction code generalizing s with
  | nil => rfl
  | cons i rest ih => exact ih _

@[simp] theorem instrs_emitted :
    (s.emitted code).stats.instrs = s.stats.instrs + code.length := by
  induction code generalizing s with
  | nil => rfl
  | cons i rest ih =>
      rw [emitted, ih, List.length_cons, Nat.add_comm rest.length, ← Nat.add_assoc]

@[simp] theorem stream_emitted :
    (s.emitted code).stream.toList = s.stream.toList ++ code := by
  induction code generalizing s with
  | nil => simp [emitted]
  | cons i rest ih =>
      rw [emitted, ih]
      simp

theorem arena_leaving : (s.leaving code).arena = s.arena.push (.vreg s.fresh) := by
  simp [leaving, appended, issued]

theorem operand?_appended (n : Node) :
    (s.appended n).arena.operand? s.arena.size = n.operand? := by
  rw [appended, Arena.operand?, Arena.get?_push, if_pos rfl]
  rfl

theorem operand?_leaving :
    (s.leaving code).arena.operand? s.arena.size = some (.vreg s.fresh) := by
  rw [arena_leaving, Arena.operand?, Arena.get?_push, if_pos rfl]
  rfl

theorem nextReg_leaving : (s.leaving code).nextReg = s.nextReg + 1 := by
  simp [leaving, appended, issued]

theorem emitted_append : s.emitted (code ++ rest) = (s.emitted code).emitted rest := by
  induction code generalizing s with
  | nil => rfl
  | cons i code ih => exact ih _

theorem issued_emitted : (s.emitted code).issued = s.issued.emitted code := by
  induction code generalizing s with
  | nil => rfl
  | cons i code ih => exact ih _

end Selection

/-! ## Reading and writing -/

namespace SelectM

variable {s : Selection} {id c : NodeId} {n : Node} {slot : Nat} {o : Operand}

theorem run_node (hn : s.arena.get? id = some n) : (node id).run s = .ok n s := by
  rw [node, ofArena, run_bind_of_ok (EStateM.run_get s)]
  rw [Arena.node_eq_ok_iff.2 hn]
  rfl

theorem run_child? (hn : s.arena.get? id = some n) :
    (child? id slot).run s = .ok n.children[slot]? s := by
  have hchild : s.arena.child? id slot = .ok n.children[slot]? := by
    rw [Arena.child?, Arena.node_eq_ok_iff.2 hn]
    rfl
  rw [child?, ofArena, run_bind_of_ok (EStateM.run_get s), hchild]
  rfl

theorem run_kind (hn : s.arena.get? id = some n) : (kind id).run s = .ok n.kind s := by
  have hkind : s.arena.kind id = .ok n.kind := by
    rw [Arena.kind, Arena.node_eq_ok_iff.2 hn]
    rfl
  rw [kind, ofArena, run_bind_of_ok (EStateM.run_get s), hkind]
  rfl

theorem run_setChild {n' : Node} {value : NodeId} (hn : s.arena.get? id = some n)
    (hset : n.setChild? slot value = some n') :
    (setChild id slot value).run s = .ok () { s with arena := s.arena.set id n' } := by
  rw [setChild, run_bind_of_ok (run_node hn), hset]
  rfl

theorem run_operand (ho : s.arena.operand? id = some o) : (operand id).run s = .ok o s := by
  rcases Option.bind_eq_some_iff.1 ho with ⟨n, hn, hoperand⟩
  rw [operand, run_bind_of_ok (run_node hn)]
  cases n <;> cases hoperand <;> rfl

theorem run_operandAt (hn : s.arena.get? id = some n) (hc : n.children[slot]? = some c)
    (ho : s.arena.operand? c = some o) : (operandAt id slot).run s = .ok o s := by
  rw [operandAt, run_bind_of_ok (run_child? hn), hc]
  exact run_operand ho

theorem run_freshReg (s : Selection) : freshReg.run s = .ok s.fresh s.issued := rfl

theorem run_forM_emit (code : List Instr) (s : Selection) :
    (code.forM emit).run s = .ok () (s.emitted code) := by
  induction code generalizing s with
  | nil => rfl
  | cons i rest ih =>
      rw [List.forM_eq_forM, List.forM_cons, ← List.forM_eq_forM]
      exact ih _

/-- Registers can be issued before instructions are emitted that do not mention them. -/
theorem run_freshReg_emitted (code : List Instr) (s : Selection) :
    freshReg.run (s.emitted code) = .ok s.fresh (s.issued.emitted code) := by
  rw [← Selection.issued_emitted]
  have hfresh : (s.emitted code).fresh = s.fresh := by simp [Selection.fresh]
  rw [← hfresh]
  rfl

/-- Most emission procedures end so: a register is issued, a sequence is emitted into it, and a node
is appended for it. -/
theorem run_leaving (code : VirtualReg → List Instr) (s : Selection) :
    (do
      let dst ← freshReg
      (code dst).forM emit
      appendReg dst : SelectM NodeId).run s = .ok s.arena.size (s.leaving (code s.fresh)) := by
  rw [run_bind_of_ok (run_freshReg s), run_bind_of_ok (run_forM_emit (code s.fresh) s.issued)]
  have harena : (s.issued.emitted (code s.fresh)).arena = s.arena := Selection.arena_emitted _ _
  rw [← harena]
  rfl

end SelectM

/-! ## Emission procedures -/

namespace X64

open SelectM

variable {s : Selection} {R : Reducer} {id lhs rhs c : NodeId} {n : Node} {x y : Operand}

theorem run_copy (hx : s.arena.operand? id = some x) :
    (copy R id).run s = .ok s.arena.size (s.leaving [.move (.vreg s.fresh) x]) := by
  rw [copy, run_bind_of_ok (run_operand hx)]
  exact run_leaving (fun dst => [.move (.vreg dst) x]) s

theorem run_slot {v : Variable} (hn : s.arena.get? id = some (.var v)) :
    (slot R id).run s = .ok s.arena.size (s.appended (.mem (.frame v.offset))) := by
  rw [slot, run_bind_of_ok (run_node hn)]
  rfl

theorem run_framePointer :
    (framePointer R id).run s =
      .ok s.arena.size (s.leaving [.move (.vreg s.fresh) (.fixed .rbp)]) :=
  run_leaving (fun dst => [.move (.vreg dst) (.fixed .rbp)]) s

theorem run_addressOf {v : Variable} (hn : s.arena.get? id = some (.addrOf v)) :
    (addressOf R id).run s =
      .ok s.arena.size (s.leaving [.binary .lea (.vreg s.fresh) (.mem (.frame v.offset))]) := by
  rw [addressOf, run_bind_of_ok (run_node hn)]
  exact run_leaving (fun dst => [.binary .lea (.vreg dst) (.mem (.frame v.offset))]) s

theorem run_binary {op : BinaryOp} (hn : s.arena.get? id = some (.binary op lhs rhs))
    (hx : s.arena.operand? lhs = some x) (hy : s.arena.operand? rhs = some y) :
    (binary R id).run s = .ok s.arena.size (s.leaving (arithmetic op s.fresh x y)) := by
  rw [binary, run_bind_of_ok (run_node hn)]
  dsimp only
  rw [run_bind_of_ok (run_operandAt hn rfl hx), run_bind_of_ok (run_operandAt hn rfl hy)]
  exact run_leaving (fun dst => arithmetic op dst x y) s

theorem run_unary {op : UnaryOp} (hn : s.arena.get? id = some (.unary op c))
    (hx : s.arena.operand? c = some x) :
    (unary R id).run s = .ok s.arena.size (s.leaving (inPlace op s.fresh x)) := by
  rw [unary, run_bind_of_ok (run_node hn)]
  dsimp only
  rw [run_bind_of_ok (run_operandAt hn rfl hx)]
  cases op with
  | neg => exact run_leaving (fun dst => inPlace .neg dst x) s
  | not => exact run_leaving (fun dst => inPlace .not dst x) s
  | logicalNot => exact run_leaving (fun dst => inPlace .logicalNot dst x) s

theorem run_compare {op : CompareOp} (hn : s.arena.get? id = some (.compare op lhs rhs))
    (hx : s.arena.operand? lhs = some x) (hy : s.arena.operand? rhs = some y) :
    (compare R id).run s =
      .ok s.arena.size (s.leaving (comparison op.condition s.fresh x y)) := by
  rw [compare, run_bind_of_ok (run_node hn)]
  dsimp only
  rw [run_bind_of_ok (run_operandAt hn rfl hx), run_bind_of_ok (run_operandAt hn rfl hy)]
  exact run_leaving (fun dst => comparison op.condition dst x y) s

/-- The two registers for the truth values are issued before that of the result. -/
theorem run_logical {op : LogicalOp} (hn : s.arena.get? id = some (.logical op lhs rhs))
    (hx : s.arena.operand? lhs = some x) (hy : s.arena.operand? rhs = some y) :
    (logical R id).run s =
      .ok s.arena.size (s.issued.issued.leaving
        (junction op s.fresh s.issued.fresh s.issued.issued.fresh x y)) := by
  rw [logical, run_bind_of_ok (run_node hn)]
  dsimp only
  rw [run_bind_of_ok (run_operandAt hn rfl hx), run_bind_of_ok (run_operandAt hn rfl hy),
    run_bind_of_ok (run_freshReg s), run_bind_of_ok (run_forM_emit _ _),
    run_bind_of_ok (run_freshReg_emitted _ _), run_bind_of_ok (run_forM_emit _ _),
    ← Selection.emitted_append, run_bind_of_ok (run_freshReg_emitted _ _)]
  unfold Selection.leaving junction
  rw [Selection.emitted_append]
  have harena : (s.issued.issued.issued.emitted (comparison .ne s.fresh x (.imm 0) ++
      comparison .ne s.issued.fresh y (.imm 0))).arena = s.arena := Selection.arena_emitted _ _
  rw [← harena]
  rfl

theorem run_inner (hn : s.arena.get? id = some n) (hc : n.children[0]? = some c) :
    (inner R id).run s = .ok c s := by
  rw [inner, run_bind_of_ok (run_child? hn), hc]
  rfl

theorem run_signExtend (hn : s.arena.get? id = some (.signExtend c))
    (hx : s.arena.operand? c = some x) :
    (signExtend R id).run s = .ok s.arena.size (s.leaving [.binary .movsx (.vreg s.fresh) x]) := by
  rw [signExtend, run_bind_of_ok (run_operandAt hn rfl hx)]
  exact run_leaving (fun dst => [.binary .movsx (.vreg dst) x]) s

theorem run_deref {base : VirtualReg} (hn : s.arena.get? id = some (.deref c))
    (hx : s.arena.operand? c = some (.vreg base)) :
    (deref R id).run s = .ok s.arena.size (s.appended (.mem (.ofReg base 0))) := by
  rw [deref, run_bind_of_ok (run_operandAt hn rfl hx)]
  rfl

theorem run_derefFolded {op : BinaryOp} {base : VirtualReg} {offset disp : Int}
    (hn : s.arena.get? id = some (.deref c)) (hc : s.arena.get? c = some (.binary op lhs rhs))
    (hx : s.arena.operand? lhs = some (.vreg base)) (hy : s.arena.operand? rhs = some (.imm offset))
    (hdisp : displacement? op offset = some disp) :
    (derefFolded R id).run s = .ok s.arena.size (s.appended (.mem (.ofReg base disp))) := by
  have hchild : (child? id 0).run s = .ok (some c) s := run_child? hn
  rw [derefFolded, run_bind_of_ok hchild]
  dsimp only
  rw [run_bind_of_ok (run_node hc)]
  dsimp only
  rw [run_bind_of_ok (run_operandAt hc rfl hx), run_bind_of_ok (run_operandAt hc rfl hy)]
  dsimp only
  rw [hdisp]
  rfl

theorem run_store (hn : s.arena.get? id = some (.assign lhs rhs))
    (hx : s.arena.operand? lhs = some x) (hy : s.arena.operand? rhs = some y) :
    (store R id).run s = .ok rhs (s.emitted [.move x y]) := by
  have hemit : (emit (.move x y)).run s = .ok () (s.emitted [.move x y]) := rfl
  have hchild : (child? id 1).run (s.emitted [.move x y]) =
      .ok (some rhs) (s.emitted [.move x y]) :=
    run_child? (n := .assign lhs rhs) hn
  rw [store, run_bind_of_ok (run_operandAt hn rfl hx), run_bind_of_ok (run_operandAt hn rfl hy),
    run_bind_of_ok hemit, run_bind_of_ok hchild]
  rfl

end X64

/-! ## What is kept -/

namespace Arena

theorem size_set (a : Arena) (id : NodeId) (n : Node) : (a.set id n).size = a.size := by
  simp [set, size]

theorem get?_set_self {a : Arena} {id : NodeId} (hid : id < a.size) (n : Node) :
    (a.set id n).get? id = some n := by
  rw [size] at hid
  simp [set, get?, hid]

theorem get?_set_of_ne (a : Arena) {id m : NodeId} (hne : m ≠ id) (n : Node) :
    (a.set id n).get? m = a.get? m :=
  Array.getElem?_setIfInBounds_ne hne.symm

theorem lt_size {a : Arena} {id : NodeId} {n : Node} (hn : a.get? id = some n) : id < a.size := by
  rcases Nat.lt_or_ge id a.size with hlt | hge
  · exact hlt
  · rw [get?_eq_none_iff.2 hge] at hn
    cases hn

end Arena

namespace Selection

/-- From `s` to `s'` the stream has grown by `code`; the labels are the same, and so are the nodes
that were there and are not touched. -/
structure Extends (touched : NodeId → Prop) (s s' : Selection) (code : List Instr) : Prop where
  table : s'.table = s.table
  stream : s'.stream.toList = s.stream.toList ++ code
  nextReg : s.nextReg ≤ s'.nextReg
  size : s.arena.size ≤ s'.arena.size
  same : ∀ m < s.arena.size, ¬ touched m → s'.arena.get? m = s.arena.get? m

namespace Extends

variable {touched touched' : NodeId → Prop} {s s' s'' : Selection} {code rest : List Instr}

theorem refl (s : Selection) : Extends touched s s [] where
  table := rfl
  stream := (List.append_nil _).symm
  nextReg := Nat.le_refl _
  size := Nat.le_refl _
  same _ _ _ := rfl

theorem trans (h : Extends touched s s' code) (h' : Extends touched s' s'' rest) :
    Extends touched s s'' (code ++ rest) where
  table := h'.table.trans h.table
  stream := by rw [h'.stream, h.stream, List.append_assoc]
  nextReg := Nat.le_trans h.nextReg h'.nextReg
  size := Nat.le_trans h.size h'.size
  same m hm htouched :=
    (h'.same m (Nat.lt_of_lt_of_le hm h.size) htouched).trans (h.same m hm htouched)

theorem mono (hsub : ∀ m, touched m → touched' m) (h : Extends touched s s' code) :
    Extends touched' s s' code where
  table := h.table
  stream := h.stream
  nextReg := h.nextReg
  size := h.size
  same m hm htouched := h.same m hm fun hm' => htouched (hsub m hm')

/-- Code alone is emitted. -/
theorem emitted (s : Selection) (code : List Instr) :
    Extends touched s (s.emitted code) code where
  table := s.table_emitted code
  stream := s.stream_emitted code
  nextReg := Nat.le_of_eq (s.nextReg_emitted code).symm
  size := Nat.le_of_eq (congrArg Arena.size (s.arena_emitted code)).symm
  same m _ _ := by rw [arena_emitted]

theorem issued (h : Extends touched s s' code) : Extends touched s s'.issued code where
  table := h.table
  stream := h.stream
  nextReg := Nat.le_succ_of_le h.nextReg
  size := h.size
  same := h.same

theorem appended (h : Extends touched s s' code) (n : Node) :
    Extends touched s (s'.appended n) code where
  table := h.table
  stream := h.stream
  nextReg := h.nextReg
  size := by
    rw [Selection.appended, Arena.size_push]
    exact Nat.le_succ_of_le h.size
  same m hm htouched := by
    have hne : m ≠ s'.arena.size := Nat.ne_of_lt (Nat.lt_of_lt_of_le hm h.size)
    rw [Selection.appended, Arena.get?_push, if_neg hne]
    exact h.same m hm htouched

theorem leaving (s : Selection) (code : List Instr) : Extends touched s (s.leaving code) code :=
  ((refl s).issued.trans (emitted s.issued code)).appended (.vreg s.fresh)

/-- The node at `id` is replaced. -/
theorem replaced (s : Selection) (id : NodeId) (n : Node) :
    Extends (· = id) s { s with arena := s.arena.set id n } [] where
  table := rfl
  stream := (List.append_nil _).symm
  nextReg := Nat.le_refl _
  size := Nat.le_of_eq (s.arena.size_set id n).symm
  same _ _ hm := s.arena.get?_set_of_ne hm n

end Extends

/-- The state after the application of a rule has been noted. -/
def applied (s : Selection) (id : NodeId) (goal : Nonterminal) (rule : String) : Selection :=
  { s with
    trace := s.trace.push (.reduced id goal rule)
    stats := { s.stats with applied := s.stats.applied.add rule } }

theorem Extends.applied {touched : NodeId → Prop} {s s' : Selection} {code : List Instr}
    (h : Extends touched s s' code) (id : NodeId) (goal : Nonterminal) (rule : String) :
    Extends touched s (s'.applied id goal rule) code :=
  ⟨h.table, h.stream, h.nextReg, h.size, h.same⟩

end Selection

/-! ## Reducing -/

namespace Target

variable {t : Target} {fuel : Nat} {id : NodeId} {goal : Nonterminal} {choice : Choice} {r : Rule}
  {s s₁ : Selection}

/-- What the pattern of a rule binds is reduced; the result is the node to emit instructions for. -/
def bound (t : Target) (fuel : Nat) (r : Rule) (id : NodeId) : SelectM NodeId :=
  match r.pattern with
  | .nt x => t.reduce fuel id x
  | .node _ subs => do
      bindSubs (t.reduce fuel) r.name subs id 0
      pure id

theorem run_reduce_some (hbest : s.table.best id goal = some choice)
    (hr : t.grammar.rules[choice.rule]? = some r) :
    (t.reduce (fuel + 1) id goal).run s = (do
      let bound ← t.bound fuel r id
      SelectM.log (.reduced id goal r.name)
      SelectM.tally r.name
      r.emit { select := t.selectWith (t.reduce fuel), reduce := t.reduce fuel } bound).run s := by
  rw [reduce, run_bind_of_ok (EStateM.run_get s)]
  cases hpattern : r.pattern <;> simp only [hbest, hr, bound, hpattern, bind_assoc]

theorem run_reduce_none {n : Node} (hbest : s.table.best id goal = none)
    (hn : s.arena.get? id = some n) :
    (t.reduce (fuel + 1) id goal).run s = .error (.error (.noRule id n.kind goal)) s := by
  rw [reduce, run_bind_of_ok (EStateM.run_get s)]
  simp only [hbest]
  rw [run_bind_of_ok (SelectM.run_kind hn)]
  rfl

theorem run_reduce_node {kind : NodeKind} {subs : List Pattern}
    (hbest : s.table.best id goal = some choice) (hr : t.grammar.rules[choice.rule]? = some r)
    (hpattern : r.pattern = .node kind subs)
    (hbind : (bindSubs (t.reduce fuel) r.name subs id 0).run s = .ok () s₁) :
    (t.reduce (fuel + 1) id goal).run s =
      (r.emit { select := t.selectWith (t.reduce fuel), reduce := t.reduce fuel } id).run
        (s₁.applied id goal r.name) := by
  rw [run_reduce_some hbest hr, Target.bound, hpattern, bind_assoc, run_bind_of_ok hbind]
  rfl

theorem run_reduce_chain {x : Nonterminal} {bound : NodeId}
    (hbest : s.table.best id goal = some choice) (hr : t.grammar.rules[choice.rule]? = some r)
    (hpattern : r.pattern = .nt x) (hbound : (t.reduce fuel id x).run s = .ok bound s₁) :
    (t.reduce (fuel + 1) id goal).run s =
      (r.emit { select := t.selectWith (t.reduce fuel), reduce := t.reduce fuel } bound).run
        (s₁.applied id goal r.name) := by
  rw [run_reduce_some hbest hr, Target.bound, hpattern, run_bind_of_ok hbound]
  rfl

theorem run_boundChild {rule : String} {n : Node} {slot : Nat} {c : NodeId}
    (hn : s.arena.get? id = some n) (hc : n.children[slot]? = some c) :
    (boundChild rule id slot).run s = .ok c s := by
  rw [boundChild, run_bind_of_ok (SelectM.run_child? hn), hc]
  rfl

/-- A bound child is reduced, and the node for its value takes its slot. -/
theorem run_bindSub_nt {rule : String} {x : Nonterminal} {n n' : Node} {slot : Nat}
    {c value : NodeId} (hn : s.arena.get? id = some n) (hc : n.children[slot]? = some c)
    (hvalue : (t.reduce fuel c x).run s = .ok value s₁) (hn₁ : s₁.arena.get? id = some n)
    (hset : n.setChild? slot value = some n') :
    (bindSub (t.reduce fuel) rule (.nt x) id slot).run s =
      .ok () { s₁ with arena := s₁.arena.set id n' } := by
  rw [bindSub, run_bind_of_ok (run_boundChild hn hc), run_bind_of_ok hvalue]
  exact SelectM.run_setChild hn₁ hset

/-- A child that the pattern looks into is not reduced itself. -/
theorem run_bindSubs_node {rule : String} {kind : NodeKind} {subs : List Pattern} {n : Node}
    {c : NodeId} (hn : s.arena.get? id = some n) (hc : n.children[0]? = some c)
    (hbind : (bindSubs (t.reduce fuel) rule subs c 0).run s = .ok () s₁) :
    (bindSubs (t.reduce fuel) rule [.node kind subs] id 0).run s = .ok () s₁ := by
  rw [bindSubs, bindSub, bind_assoc, run_bind_of_ok (run_boundChild hn hc), run_bind_of_ok hbind]
  rfl

/-! ## Selecting a tree -/

theorem lt_nesting_size (t : Target) (a : Arena) : 3 * a.size < t.nesting a := by
  have hle : 3 * (a.size + 1) * 1 ≤ 3 * (a.size + 1) * (t.progress a + 1) :=
    Nat.mul_le_mul_left _ (Nat.succ_le_succ (Nat.zero_le _))
  have hall : t.nesting a = 3 * (a.size + 1) * (t.progress a + 1) := rfl
  omega

variable {root : NodeId}

section Relabel

variable {t : Target} {s : Selection} {id : NodeId} {l : Labeling}

theorem run_relabel_of_ok {u : Unit}
    (h : (t.label s.arena id).run ⟨s.table, s.trace⟩ = .ok u l) :
    (t.relabel id).run s = .ok () { s with table := l.table, trace := l.trace } := by
  have happlied : t.label s.arena id ⟨s.table, s.trace⟩ = .ok u l := h
  simp only [EStateM.run, relabel, happlied]

theorem run_relabel_of_error {f : Fault}
    (h : (t.label s.arena id).run ⟨s.table, s.trace⟩ = .error f l) :
    (t.relabel id).run s = .error (.fault f) { s with table := l.table, trace := l.trace } := by
  have happlied : t.label s.arena id ⟨s.table, s.trace⟩ = .error f l := h
  simp only [EStateM.run, relabel, happlied]

end Relabel

/-- Selecting a tree labels it in a blank table and reduces its root. -/
theorem run_selectRoot_of_relabel {s₁ : Selection}
    (hrelabel : (t.relabel root).run { s with table := .blank s.arena.size t.grammar.size } =
      .ok () s₁) :
    (t.selectRoot root).run s = (do
      let value ← t.reduce (t.nesting s₁.arena) root t.grammar.start
      modify fun s => { s with stats := { s.stats with trees := s.stats.trees + 1 } }
      return value : SelectM NodeId).run s₁ := by
  have hblank : (modify fun s : Selection =>
      { s with table := .blank s.arena.size t.grammar.size } : SelectM PUnit).run s =
        .ok () { s with table := .blank s.arena.size t.grammar.size } := rfl
  rw [selectRoot, run_bind_of_ok hblank, run_bind_of_ok hrelabel,
    run_bind_of_ok (EStateM.run_get _)]

theorem run_selectRoot_of_label {l : Labeling}
    (hlabel : (t.label s.arena root).run
      { table := .blank s.arena.size t.grammar.size, trace := s.trace } = .ok () l) :
    (t.selectRoot root).run s = (do
      let value ← t.reduce (t.nesting s.arena) root t.grammar.start
      modify fun s => { s with stats := { s.stats with trees := s.stats.trees + 1 } }
      return value : SelectM NodeId).run { s with table := l.table, trace := l.trace } := by
  have hrelabel : (t.relabel root).run
      { s with table := .blank s.arena.size t.grammar.size } =
        .ok () { s with table := l.table, trace := l.trace } :=
    run_relabel_of_ok hlabel
  exact run_selectRoot_of_relabel hrelabel

theorem run_selectRoot {l : Labeling} {value : NodeId} {s' : Selection}
    (hlabel : (t.label s.arena root).run
      { table := .blank s.arena.size t.grammar.size, trace := s.trace } = .ok () l)
    (hreduce : (t.reduce (t.nesting s.arena) root t.grammar.start).run
      { s with table := l.table, trace := l.trace } = .ok value s') :
    (t.selectRoot root).run s =
      .ok value { s' with stats := { s'.stats with trees := s'.stats.trees + 1 } } := by
  rw [run_selectRoot_of_label hlabel, run_bind_of_ok hreduce]
  rfl

end Target
end Codegen
