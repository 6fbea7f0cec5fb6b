import Codegen.Proofs.Forms
import Codegen.Proofs.Narrowing
import Codegen.Proofs.Session

/-!
# Production — what an emission procedure makes, and when it refuses

An emission procedure reads first and writes afterwards.  So one that refuses has changed nothing,
and what one that succeeds has changed is told by its last steps: registers are issued, instructions
emitted, and a register or a memory cell is appended for the value.

* `Selection.Counts`    : registers and instructions are added, and all of them counted
* `Selection.Produces`  : moreover a location is appended for a value
* `Attempts`            : a run that fails has changed nothing
* `X64.Works`           : the rules, by what their procedures do
-/

namespace Codegen

/-! ## Locations -/

/-- The node is a virtual register or a memory cell. -/
def Node.isLocation : Node → Bool
  | .vreg _ | .mem _ => true
  | _ => false

theorem Node.isSome_operand? {n : Node} (h : n.isLocation = true) : n.operand?.isSome = true := by
  cases n <;> first
    | rfl
    | cases h

theorem Node.children_of_isLocation {n : Node} (h : n.isLocation = true) : n.children = [] := by
  cases n <;> first
    | rfl
    | cases h

/-! ## What is added -/

namespace Selection

/-- From `s` to `s'` instructions are emitted and registers issued, and as many are counted; no tree
is. -/
structure Counts (s s' : Selection) : Prop where
  code : ∃ code : List Instr, s'.stream.toList = s.stream.toList ++ code ∧
    s'.stats.instrs = s.stats.instrs + code.length
  regs : ∃ k, s'.nextReg = s.nextReg + k ∧ s'.stats.vregs = s.stats.vregs + k
  trees : s'.stats.trees = s.stats.trees

variable {s s' s'' : Selection} {v : NodeId} {n : Node}

namespace Counts

/-- Nothing is added. -/
theorem of_same (hstream : s'.stream = s.stream) (hreg : s'.nextReg = s.nextReg)
    (hinstrs : s'.stats.instrs = s.stats.instrs) (hvregs : s'.stats.vregs = s.stats.vregs)
    (htrees : s'.stats.trees = s.stats.trees) : s.Counts s' where
  code := ⟨[], by rw [hstream, List.append_nil], hinstrs⟩
  regs := ⟨0, hreg, hvregs⟩
  trees := htrees

theorem refl (s : Selection) : s.Counts s := of_same rfl rfl rfl rfl rfl

theorem trans (h : s.Counts s') (h' : s'.Counts s'') : s.Counts s'' where
  code := by
    rcases h.code with ⟨code, hstream, hinstrs⟩
    rcases h'.code with ⟨rest, hstream', hinstrs'⟩
    refine ⟨code ++ rest, ?_, ?_⟩
    · rw [hstream', hstream, List.append_assoc]
    · rw [hinstrs', hinstrs, List.length_append, Nat.add_assoc]
  regs := by
    rcases h.regs with ⟨k, hreg, hvregs⟩
    rcases h'.regs with ⟨k', hreg', hvregs'⟩
    refine ⟨k + k', ?_, ?_⟩
    · rw [hreg', hreg, Nat.add_assoc]
    · rw [hvregs', hvregs, Nat.add_assoc]
  trees := h'.trees.trans h.trees

theorem stream_isPrefix (h : s.Counts s') : s.stream.toList <+: s'.stream.toList := by
  rcases h.code with ⟨code, hstream, -⟩
  exact ⟨code, hstream.symm⟩

/-- The count of instructions stays in step with the stream. -/
theorem instrs_eq (h : s.Counts s') (hs : s.stats.instrs = s.stream.size) :
    s'.stats.instrs = s'.stream.size := by
  rcases h.code with ⟨code, hstream, hinstrs⟩
  calc
    s'.stats.instrs = s.stream.size + code.length := by rw [hinstrs, hs]
    _ = (s.stream.toList ++ code).length := by simp
    _ = s'.stream.size := by rw [← hstream, Array.length_toList]

/-- The count of registers stays in step with the register that is next. -/
theorem vregs_eq (h : s.Counts s') (hs : s.stats.vregs = s.nextReg) :
    s'.stats.vregs = s'.nextReg := by
  rcases h.regs with ⟨k, hreg, hvregs⟩
  rw [hvregs, hreg, hs]

theorem issued (s : Selection) : s.Counts s.issued where
  code := ⟨[], (List.append_nil _).symm, rfl⟩
  regs := ⟨1, rfl, rfl⟩
  trees := rfl

theorem emitted (s : Selection) (code : List Instr) : s.Counts (s.emitted code) where
  code := ⟨code, s.stream_emitted code, s.instrs_emitted code⟩
  regs := ⟨0, s.nextReg_emitted code, s.vregs_emitted code⟩
  trees := s.trees_emitted code

theorem appended (s : Selection) (n : Node) : s.Counts (s.appended n) :=
  of_same rfl rfl rfl rfl rfl

theorem leaving (s : Selection) (code : List Instr) : s.Counts (s.leaving code) :=
  ((issued s).trans (emitted s.issued code)).trans (appended _ _)

end Counts

/-- A register or a memory cell is appended at `v`; the other nodes and the labels are the same. -/
structure Produces (s : Selection) (v : NodeId) (s' : Selection) : Prop extends s.Counts s' where
  value : v = s.arena.size
  arena : ∃ n : Node, n.isLocation = true ∧ s'.arena = s.arena.push n
  table : s'.table = s.table

namespace Produces

theorem appended (s : Selection) (hn : n.isLocation = true) :
    s.Produces s.arena.size (s.appended n) where
  toCounts := .appended s n
  value := rfl
  arena := ⟨n, hn, rfl⟩
  table := rfl

theorem leaving (s : Selection) (code : List Instr) :
    s.Produces s.arena.size (s.leaving code) where
  toCounts := .leaving s code
  value := rfl
  arena := ⟨.vreg s.fresh, rfl, s.arena_leaving code⟩
  table := s.issued.table_emitted code

/-- A register may be issued before. -/
theorem of_issued (h : s.issued.Produces v s') : s.Produces v s' where
  toCounts := (Counts.issued s).trans h.toCounts
  value := h.value
  arena := h.arena
  table := h.table

/-- Instructions may be emitted before. -/
theorem of_emitted {code : List Instr} (h : (s.emitted code).Produces v s') : s.Produces v s' where
  toCounts := (Counts.emitted s code).trans h.toCounts
  value := by rw [h.value, arena_emitted]
  arena := by
    rw [← s.arena_emitted code]
    exact h.arena
  table := h.table.trans (s.table_emitted code)

end Produces

end Selection

/-! ## Attempts -/

/-- The run has a result with the property `Q`, or it fails before it has changed anything: with an
error, if all nodes below `id` are in the arena. -/
def Attempts (s : Selection) (id : NodeId) {α : Type} (Q : α → Selection → Prop) :
    EStateM.Result Failure Selection α → Prop
  | .ok v s' => Q v s'
  | .error f s' => s' = s ∧ (s.arena.Inside id → ∃ e, f = .error e)

namespace Attempts

variable {s : Selection} {id c : NodeId} {α β : Type} {Q : α → Selection → Prop}
  {result : EStateM.Result Failure Selection α}

/-- Reading comes before everything else. -/
theorem read {P : α → Prop} {Q : β → Selection → Prop} {x : SelectM α} {f : α → SelectM β}
    (hx : Attempts s id (fun v s' => s' = s ∧ P v) (x.run s))
    (hf : ∀ v, P v → Attempts s id Q ((f v).run s)) : Attempts s id Q ((x >>= f).run s) := by
  rw [EStateM.run_bind]
  cases hrun : x.run s with
  | ok v s₁ =>
      rw [hrun] at hx
      rcases hx with ⟨rfl, hv⟩
      exact hf v hv
  | error e s₁ =>
      rw [hrun] at hx
      exact hx

theorem mono {K : α → Selection → Prop} (h : Attempts s id Q result)
    (hQ : ∀ v s', Q v s' → K v s') : Attempts s id K result := by
  cases result with
  | ok v s' => exact hQ v s' h
  | error e s' => exact h

/-- What is tried at a node below is tried at the node. -/
theorem of_below (h : Attempts s c Q result) (hc : s.arena.Below Node.children id c) :
    Attempts s id Q result := by
  cases result with
  | ok v s' => exact h
  | error e s' => exact ⟨h.1, fun hid => h.2 (hid.of_below hc)⟩

theorem finishes (h : Attempts s id Q result) {allowed : Failure → Prop}
    (herror : ∀ e, allowed (.error e)) (hid : s.arena.Inside id) :
    Finishes allowed Q result := by
  cases result with
  | ok v s' => exact h
  | error f s' =>
      rcases h.2 hid with ⟨e, rfl⟩
      exact herror e

theorem ensures (h : Attempts s id Q result) {P : Selection → Prop} {K : α → Selection → Prop}
    (hs : P s) (hQ : ∀ v s', Q v s' → P s' ∧ K v s') : Ensures P K result := by
  cases result with
  | ok v s' => exact hQ v s' h
  | error f s' =>
      rcases h with ⟨rfl, -⟩
      exact hs

end Attempts

namespace X64

open SelectM

variable {s : Selection} {id : NodeId}

theorem fail_attempts {α : Type} {Q : α → Selection → Prop} (e : Error) :
    Attempts s id Q ((fail e : SelectM α).run s) :=
  ⟨rfl, fun _ => ⟨e, rfl⟩⟩

/-! ## Reading -/

theorem node_attempts :
    Attempts s id (fun n s' => s' = s ∧ s.arena.get? id = some n) ((node id).run s) := by
  have hensures := node_ensures s id
  cases hrun : (node id).run s with
  | ok n s' =>
      rw [hrun] at hensures
      exact hensures
  | error f s' =>
      rw [hrun] at hensures
      refine ⟨hensures, fun hid => ?_⟩
      rcases hid.exists_get? with ⟨n, hn⟩
      rw [run_node hn] at hrun
      cases hrun

theorem child?_attempts (slot : Nat) :
    Attempts s id (fun c s' => s' = s ∧ ∃ n, s.arena.get? id = some n ∧ c = n.children[slot]?)
      ((child? id slot).run s) := by
  have hensures := child?_ensures s id slot
  cases hrun : (child? id slot).run s with
  | ok c s' =>
      rw [hrun] at hensures
      exact hensures
  | error f s' =>
      rw [hrun] at hensures
      refine ⟨hensures, fun hid => ?_⟩
      rcases hid.exists_get? with ⟨n, hn⟩
      rw [run_child? hn] at hrun
      cases hrun

theorem operand_attempts :
    Attempts s id (fun o s' => s' = s ∧ s.arena.operand? id = some o) ((operand id).run s) := by
  rw [operand]
  refine node_attempts.read fun n hn => ?_
  rw [Arena.operand?, hn]
  cases n with
  | vreg r => exact ⟨rfl, rfl⟩
  | mem addr => exact ⟨rfl, rfl⟩
  | literal value => exact ⟨rfl, rfl⟩
  | _ => exact fail_attempts _

theorem operandAt_attempts (slot : Nat) :
    Attempts s id
      (fun o s' => s' = s ∧ ∃ n c, s.arena.get? id = some n ∧ n.children[slot]? = some c ∧
        s.arena.operand? c = some o)
      ((operandAt id slot).run s) := by
  rw [operandAt]
  refine (child?_attempts slot).read ?_
  rintro _ ⟨n, hn, rfl⟩
  cases hc : n.children[slot]? with
  | none =>
      dsimp only
      rw [run_bind_of_ok (run_kind hn)]
      exact fail_attempts _
  | some c =>
      refine (operand_attempts.of_below (.child hn hc)).mono ?_
      rintro o s' ⟨rfl, ho⟩
      exact ⟨rfl, n, c, hn, hc, ho⟩

/-! ## Procedures -/

variable (R : Reducer)

theorem append_attempts {n : Node} (hn : n.isLocation = true) :
    Attempts s id s.Produces ((append n).run s) :=
  .appended s hn

theorem leaving_attempts (code : VirtualReg → List Instr) :
    Attempts s id s.Produces
      ((do
        let dst ← freshReg
        (code dst).forM emit
        appendReg dst : SelectM NodeId).run s) := by
  rw [run_leaving code s]
  exact .leaving s (code s.fresh)

theorem copy_attempts : Attempts s id s.Produces ((copy R id).run s) := by
  rw [copy]
  refine operand_attempts.read fun x _ => ?_
  exact leaving_attempts fun dst => [.move (.vreg dst) x]

theorem slot_attempts : Attempts s id s.Produces ((slot R id).run s) := by
  rw [slot]
  refine node_attempts.read fun n _ => ?_
  cases n with
  | var v => exact append_attempts rfl
  | _ => exact fail_attempts _

theorem framePointer_attempts : Attempts s id s.Produces ((framePointer R id).run s) :=
  leaving_attempts fun dst => [.move (.vreg dst) (.fixed .rbp)]

theorem addressOf_attempts : Attempts s id s.Produces ((addressOf R id).run s) := by
  rw [addressOf]
  refine node_attempts.read fun n _ => ?_
  cases n with
  | addrOf v =>
      exact leaving_attempts fun dst => [.binary .lea (.vreg dst) (.mem (.frame v.offset))]
  | _ => exact fail_attempts _

theorem binary_attempts : Attempts s id s.Produces ((binary R id).run s) := by
  rw [binary]
  refine node_attempts.read fun n _ => ?_
  cases n with
  | binary op _ _ =>
      refine (operandAt_attempts 0).read fun x _ => (operandAt_attempts 1).read fun y _ => ?_
      exact leaving_attempts fun dst => arithmetic op dst x y
  | _ => exact fail_attempts _

theorem unary_attempts : Attempts s id s.Produces ((unary R id).run s) := by
  rw [unary]
  refine node_attempts.read fun n _ => ?_
  cases n with
  | unary op _ =>
      refine (operandAt_attempts 0).read fun x _ => ?_
      cases op with
      | neg => exact leaving_attempts fun dst => inPlace .neg dst x
      | not => exact leaving_attempts fun dst => inPlace .not dst x
      | logicalNot => exact leaving_attempts fun dst => inPlace .logicalNot dst x
  | _ => exact fail_attempts _

theorem compare_attempts : Attempts s id s.Produces ((compare R id).run s) := by
  rw [compare]
  refine node_attempts.read fun n _ => ?_
  cases n with
  | compare op _ _ =>
      refine (operandAt_attempts 0).read fun x _ => (operandAt_attempts 1).read fun y _ => ?_
      exact leaving_attempts fun dst => comparison op.condition dst x y
  | _ => exact fail_attempts _

theorem logical_attempts : Attempts s id s.Produces ((logical R id).run s) := by
  rw [logical]
  refine node_attempts.read fun n _ => ?_
  cases n with
  | logical op _ _ =>
      refine (operandAt_attempts 0).read fun x _ => (operandAt_attempts 1).read fun y _ => ?_
      -- both truth values come first, each in a register of its own
      rw [run_bind_of_ok (run_freshReg s), run_bind_of_ok (run_forM_emit _ _),
        run_bind_of_ok (run_freshReg _), run_bind_of_ok (run_forM_emit _ _)]
      have hcombine : ∀ left right opcode s₁,
          (do
            let dst ← freshReg
            emit (.move (.vreg dst) (.vreg left))
            emit (.binary opcode (.vreg dst) (.vreg right))
            appendReg dst : SelectM NodeId).run s₁ =
          .ok s₁.arena.size (s₁.leaving
            [.move (.vreg s₁.fresh) (.vreg left), .binary opcode (.vreg s₁.fresh) (.vreg right)]) :=
        fun left right opcode s₁ => run_leaving
          (fun dst => [.move (.vreg dst) (.vreg left), .binary opcode (.vreg dst) (.vreg right)]) s₁
      rw [hcombine]
      exact (((Selection.Produces.leaving _ _).of_emitted.of_issued).of_emitted).of_issued
  | _ => exact fail_attempts _

theorem signExtend_attempts : Attempts s id s.Produces ((signExtend R id).run s) := by
  rw [signExtend]
  refine (operandAt_attempts 0).read fun x _ => ?_
  exact leaving_attempts fun dst => [.binary .movsx (.vreg dst) x]

theorem deref_attempts : Attempts s id s.Produces ((deref R id).run s) := by
  rw [deref]
  refine (operandAt_attempts 0).read fun x _ => ?_
  cases x with
  | vreg base => exact append_attempts rfl
  | _ => exact fail_attempts _

theorem derefFolded_attempts : Attempts s id s.Produces ((derefFolded R id).run s) := by
  rw [derefFolded]
  refine (child?_attempts 0).read ?_
  rintro _ ⟨n, hn, rfl⟩
  cases hc : n.children[0]? with
  | none => exact fail_attempts _
  | some sum =>
      -- what is read from here on is below the sum
      refine Attempts.of_below ?_ (.child hn hc)
      refine node_attempts.read fun n' _ => ?_
      cases n' with
      | binary op _ _ =>
          refine (operandAt_attempts 0).read fun x _ => (operandAt_attempts 1).read fun y _ => ?_
          split
          · split
            · exact append_attempts rfl
            · exact fail_attempts _
          · exact fail_attempts _
      | _ => exact fail_attempts _

/-- The child that a group has stands for it. -/
theorem inner_attempts :
    Attempts s id
      (fun v s' => s' = s ∧ ∃ n, s.arena.get? id = some n ∧ n.children[0]? = some v)
      ((inner R id).run s) := by
  rw [inner]
  refine (child?_attempts 0).read ?_
  rintro _ ⟨n, hn, rfl⟩
  cases hc : n.children[0]? with
  | none =>
      dsimp only
      rw [run_bind_of_ok (run_kind hn)]
      exact fail_attempts _
  | some c => exact ⟨rfl, n, hn, hc⟩

/-- What is stored stands for the assignment; once both operands are read nothing can fail. -/
theorem store_attempts :
    Attempts s id
      (fun v s' => ∃ i n, s' = s.emitted [i] ∧ s.arena.get? id = some n ∧
        n.children[1]? = some v ∧ (s.arena.operand? v).isSome = true)
      ((store R id).run s) := by
  rw [store]
  refine (operandAt_attempts 0).read fun x _ => (operandAt_attempts 1).read ?_
  rintro y ⟨n, v, hn, hv, ho⟩
  have hemit : (emit (.move x y)).run s = .ok () (s.emitted [.move x y]) := rfl
  have hchild : (child? id 1).run (s.emitted [.move x y]) =
      .ok (some v) (s.emitted [.move x y]) := by
    rw [run_child? (s := s.emitted [.move x y]) (n := n) hn, hv]
  rw [run_bind_of_ok hemit, run_bind_of_ok hchild]
  exact ⟨_, n, rfl, hn, hv, Option.isSome_of_eq_some ho⟩

/-! ## Rules -/

/-- What the procedure of a rule does: a leaf that is an operand is kept, a group and an assignment
are worth what one of their children is, a call selects other nodes, and everything else produces a
location. -/
inductive Works : Rule → Prop
  | keep {name : String} {k : NodeKind} {x : Nonterminal} {cost : Cost} :
      (k, x) ∈ [(.literal, .imm), (.vreg, .reg), (.mem, .mem)] →
      Works ⟨name, .leaf k, x, cost, .keep⟩
  | inner {name : String} {cost : Cost} :
      Works ⟨name, .node .grouping [.reg], .reg, cost, inner⟩
  | store {name : String} {cost : Cost} :
      Works ⟨name, .node .assign [.mem, .reg], .reg, cost, store⟩
  | call {name : String} {cost : Cost} : Works ⟨name, .leaf .call, .reg, cost, call⟩
  | produce {r : Rule} : (∀ R id s, Attempts s id s.Produces ((r.emit R id).run s)) → Works r

theorem works {r : Rule} (hr : r ∈ rules) : Works r := by
  rcases r with ⟨name, p, x, cost, emit⟩
  cases form hr with
  | literal | vreg | mem => exact .keep (by decide)
  | wideLiteral | load => exact .produce fun R _ _ => copy_attempts R
  | slot => exact .produce fun R _ _ => slot_attempts R
  | framePointer => exact .produce fun R _ _ => framePointer_attempts R
  | addressOf => exact .produce fun R _ _ => addressOf_attempts R
  | unary => exact .produce fun R _ _ => unary_attempts R
  | binary => exact .produce fun R _ _ => binary_attempts R
  | compare => exact .produce fun R _ _ => compare_attempts R
  | logical => exact .produce fun R _ _ => logical_attempts R
  | signExtend => exact .produce fun R _ _ => signExtend_attempts R
  | grouping => exact .inner
  | deref => exact .produce fun R _ _ => deref_attempts R
  | derefFolded => exact .produce fun R _ _ => derefFolded_attempts R
  | store => exact .store
  | call => exact .call

end X64
end Codegen
