import Codegen.Proofs.Forms
import Codegen.Proofs.Labeling

/-!
# Coverage — what the x86-64 rules cover

A node has a derivation to a register unless an assignment to something that is no place can be seen
from it, and a node that names a place has one to a memory operand.  So labeling records a rule for
the root of any other tree, and what is recorded at any node is a rule that matches there.

* `Arena.Blocked`      : an assignment to something that is no place can be seen
* `Arena.Selectable`   : the trees without calls that instructions are selected for
* `X64.total`          : the prices of the rules can be computed at all nodes
* `X64.reducible_iff`  : the nodes that have a derivation
* `X64.Chosen`         : recorded rules match
-/

namespace Codegen

/-- The virtual register that a node mentions. -/
def Node.reg? : Node → Option VirtualReg
  | .vreg r | .mem ⟨.reg r, _⟩ => some r
  | _ => none

namespace Arena

/-- The node is an assignment to something that is no place. -/
def Misplaced (a : Arena) (m : NodeId) : Prop :=
  ∃ target value n, a.get? m = some (.assign target value) ∧ a.get? target = some n ∧
    ¬ n.kind.IsPlace

/-- An assignment to something that is no place is below the node, outside of call arguments. -/
def Blocked (a : Arena) (id : NodeId) : Prop :=
  ∃ m, a.Below Node.children id m ∧ a.Misplaced m

/-- The nodes below `root` form a tree without calls, assignments have places as targets, and the
virtual registers mentioned are below `k`. -/
structure Selectable (a : Arena) (k : Nat) (root : NodeId) : Prop where
  tree : a.IsTree Node.children root
  calls : ∀ m n, a.Below Node.children root m → a.get? m = some n → n.kind ≠ .call
  targets : ∀ m target value n, a.Below Node.children root m →
    a.get? m = some (.assign target value) → a.get? target = some n → n.kind.IsPlace
  regs : ∀ m n r, a.Below Node.children root m → a.get? m = some n → n.reg? = some r →
    r.index < k

variable {a : Arena} {id : NodeId} {n : Node}

theorem Selectable.not_blocked {k : Nat} (h : a.Selectable k id) : ¬ a.Blocked id := by
  rintro ⟨m, hm, target, value, n, hassign, hn, hplace⟩
  exact hplace (h.targets m target value n hm hassign hn)

theorem Blocked.of_below {c : NodeId} (h : a.Blocked c) (hc : a.Below Node.children id c) :
    a.Blocked id := by
  rcases h with ⟨m, hm, hmisplaced⟩
  exact ⟨m, hc.trans hm, hmisplaced⟩

/-- What blocks a node is the node itself or blocks a child. -/
theorem not_blocked_of_children (hn : a.get? id = some n) (hid : ¬ a.Misplaced id)
    (hchildren : ∀ c ∈ n.children, ¬ a.Blocked c) : ¬ a.Blocked id := by
  rintro ⟨m, hm, hmisplaced⟩
  rcases (below_iff hn).1 hm with rfl | ⟨slot, c, hc, hm⟩
  · exact hid hmisplaced
  · exact hchildren c (List.mem_of_getElem? hc) ⟨m, hm, hmisplaced⟩

theorem not_blocked_leaf (hn : a.get? id = some n) (hchildren : n.children = []) :
    ¬ a.Blocked id := by
  refine not_blocked_of_children hn ?_ ?_
  · rintro ⟨target, value, n', hassign, -⟩
    cases hn.symm.trans hassign
    cases hchildren
  · intro c hc
    rw [hchildren] at hc
    cases hc

end Arena

namespace X64

variable {a : Arena} {id root : NodeId} {n : Node} {k : Nat}

/-! ## Prices -/

theorem exists_foldedDeref (hdag : a.IsDag Node.children id) :
    ∃ base, Price.foldedDeref a id = .ok base := by
  rcases hdag.exists_get? with ⟨n, hn⟩
  rw [Price.foldedDeref, Arena.child?, Arena.node_eq_ok_iff.2 hn]
  cases hc : n.children[0]? with
  | none => exact ⟨none, by simp [bind, Except.bind, pure, Except.pure, hc]⟩
  | some c =>
      simp only [bind, Except.bind, pure, Except.pure, hc]
      have hchild := hdag.child hn hc
      rcases hchild.exists_get? with ⟨m, hm⟩
      rw [Arena.node_eq_ok_iff.2 hm]
      cases m with
      | binary op lhs rhs =>
          have hright : (Node.binary op lhs rhs).children[1]? = some rhs := rfl
          rcases (hchild.child hm hright).exists_get? with ⟨l, hl⟩
          dsimp only
          rw [Arena.node_eq_ok_iff.2 hl]
          by_cases hop : op = .add ∨ op = .sub
          · cases l <;> exact ⟨_, if_pos hop⟩
          · exact ⟨none, if_neg hop⟩
      | _ => exact ⟨none, rfl⟩

/-- A dereference that is folded has a sum or difference below it, with a literal that can be
encoded. -/
theorem of_foldedDeref {c lhs rhs : NodeId} {op : BinaryOp} {base : Nat}
    (hn : a.get? id = some (.deref c)) (hc : a.get? c = some (.binary op lhs rhs))
    (h : Price.foldedDeref a id = .ok (some base)) :
    (op = .add ∨ op = .sub) ∧
      ∃ value disp, a.get? rhs = some (.literal value) ∧ displacement? op value = some disp := by
  rw [Price.foldedDeref, Arena.child?, Arena.node_eq_ok_iff.2 hn] at h
  simp only [bind, Except.bind, pure, Except.pure, Node.children, List.getElem?_cons_zero,
    Arena.node_eq_ok_iff.2 hc] at h
  by_cases hop : op = .add ∨ op = .sub
  · refine ⟨hop, ?_⟩
    rw [if_pos hop] at h
    cases hr : a.get? rhs with
    | none =>
        rw [Arena.node_eq_error_iff.2 ⟨hr, rfl⟩] at h
        cases h
    | some m =>
        rw [Arena.node_eq_ok_iff.2 hr] at h
        cases m with
        | literal value =>
            cases hdisp : displacement? op value with
            | none => simp [hdisp] at h
            | some disp => exact ⟨value, disp, rfl, hdisp⟩
        | _ => cases h
  · rw [if_neg hop] at h
    cases h

theorem total (hdag : a.IsDag Node.children root) : grammar.Total a root := by
  intro r hr m hm
  rcases (hdag.of_below hm).exists_get? with ⟨n, hn⟩
  have hnode : ∀ f : Node → Except Fault (Option Nat), (∃ base, f n = .ok base) →
      ∃ base, (a.node m >>= f) = .ok base := by
    intro f hf
    rw [Arena.node_eq_ok_iff.2 hn]
    exact hf
  have hoperator : ∀ price, ∃ base, Price.byOperator price a m = .ok base := by
    intro price
    apply hnode
    cases n <;> exact ⟨_, rfl⟩
  rcases r with ⟨name, p, x, cost, emit⟩
  cases form hr with
  | derefFolded => exact exists_foldedDeref (hdag.of_below hm)
  | binary y => cases y <;> exact hoperator _
  | literal | wideLiteral | call =>
      apply hnode
      cases n <;> exact ⟨_, rfl⟩
  | _ => exact ⟨_, rfl⟩

/-! ## Derivations -/

/-- The node can be reduced to `x`. -/
def Reducible (a : Arena) (id : NodeId) (x : Nonterminal) : Prop := ∃ k, grammar.Derives a id x k

/-- A form reduces the nodes it covers, by whichever rule has it. -/
theorem Reducible.of_form {p : Pattern} {x : Nonterminal} {cost : Cost} {emit : Emission}
    (hform : Form p x cost emit) {base : Nat} (hbase : cost.base? a id = .ok (some base))
    (hcovers : ∃ k, grammar.Covers a p id k) : Reducible a id x := by
  rcases form_iff.1 hform with ⟨name, hmem⟩
  rcases hcovers with ⟨k, hk⟩
  exact ⟨_, Grammar.Derives.rule (r := ⟨name, p, x, cost, emit⟩) hmem hbase hk⟩

theorem Reducible.covers {x : Nonterminal} (h : Reducible a id x) :
    ∃ k, grammar.Covers a (.nt x) id k := by
  rcases h with ⟨k, hk⟩
  exact ⟨k, .nt hk⟩

theorem covers_leaf (hn : a.get? id = some n) (hchildren : n.children = []) :
    ∃ k, grammar.Covers a (.leaf n.kind) id k := by
  refine ⟨0, .node hn rfl ?_⟩
  rw [hchildren]
  exact .nil

theorem covers_one {x : Nonterminal} {c : NodeId} (hn : a.get? id = some n)
    (hchildren : n.children = [c]) (hc : Reducible a c x) :
    ∃ k, grammar.Covers a (.node n.kind [.nt x]) id k := by
  rcases hc.covers with ⟨k, hk⟩
  refine ⟨k + 0, .node hn rfl ?_⟩
  rw [hchildren]
  exact .cons hk .nil

theorem covers_two {x y : Nonterminal} {c c' : NodeId} (hn : a.get? id = some n)
    (hchildren : n.children = [c, c']) (hc : Reducible a c x) (hc' : Reducible a c' y) :
    ∃ k, grammar.Covers a (.node n.kind [.nt x, .nt y]) id k := by
  rcases hc.covers with ⟨k, hk⟩
  rcases hc'.covers with ⟨k', hk'⟩
  refine ⟨k + (k' + 0), .node hn rfl ?_⟩
  rw [hchildren]
  exact .cons hk (.cons hk' .nil)

theorem Reducible.load (h : Reducible a id .mem) : Reducible a id .reg :=
  .of_form (.load (by decide)) rfl h.covers

theorem reducible_literal {value : Int} (hn : a.get? id = some (.literal value)) :
    Reducible a id .reg := by
  have hnode := Arena.node_eq_ok_iff.2 hn
  by_cases hfits : fits32 value = true
  · have hprice : Price.literal a id = .ok (some 0) := by
      simp [Price.literal, hnode, hfits, bind, Except.bind, pure, Except.pure]
    have himm : Reducible a id .imm := .of_form .literal hprice (covers_leaf hn rfl)
    exact .of_form (.load (by decide)) rfl himm.covers
  · have hprice : Price.wideLiteral a id = .ok (some 2) := by
      simp [Price.wideLiteral, hnode, hfits, bind, Except.bind, pure, Except.pure]
    exact .of_form .wideLiteral hprice (covers_leaf hn rfl)

theorem reducible_binary {op : BinaryOp} {lhs rhs : NodeId}
    (hn : a.get? id = some (.binary op lhs rhs)) (hl : Reducible a lhs .reg)
    (hr : Reducible a rhs .reg) : Reducible a id .reg := by
  have hprice : ∃ base, Price.binaryReg a id = .ok (some base) := by
    rw [Price.binaryReg, Price.byOperator, Arena.node_eq_ok_iff.2 hn]
    cases op <;> exact ⟨_, rfl⟩
  rcases hprice with ⟨base, hbase⟩
  exact .of_form (.binary .reg) hbase (covers_two hn rfl hl hr)

/-- Every node that is not blocked can be reduced to a register, and to a memory operand if it names
a place. -/
theorem reducible (htree : a.IsTree Node.children root) (h : ¬ a.Blocked root) :
    Reducible a root .reg ∧ ∀ n, a.get? root = some n → n.kind.IsPlace → Reducible a root .mem := by
  refine htree.induction (P := fun id =>
    Reducible a id .reg ∧ ∀ n, a.get? id = some n → n.kind.IsPlace → Reducible a id .mem) ?_
  intro id n hid hn hchildren
  have hplace : n.kind.IsPlace → Reducible a id .mem := by
    intro hkind
    cases n with
    | var v => exact .of_form .slot rfl (covers_leaf hn rfl)
    | mem addr => exact .of_form .mem rfl (covers_leaf hn rfl)
    | deref c => exact .of_form .deref rfl (covers_one hn rfl (hchildren c List.mem_cons_self).1)
    | _ => simp [NodeKind.IsPlace, Node.kind] at hkind
  have hfirst : ∀ {c rest}, n.children = c :: rest → Reducible a c .reg := by
    intro c rest hc
    exact (hchildren c (by simp [hc])).1
  have hsecond : ∀ {c c'}, n.children = [c, c'] → Reducible a c' .reg := by
    intro c c' hc
    exact (hchildren c' (by simp [hc])).1
  refine ⟨?_, fun n' hn' hkind => hplace ?_⟩
  · cases n with
    | literal value => exact reducible_literal hn
    | vreg r => exact .of_form .vreg rfl (covers_leaf hn rfl)
    | framePointer => exact .of_form .framePointer rfl (covers_leaf hn rfl)
    | addrOf v => exact .of_form .addressOf rfl (covers_leaf hn rfl)
    | var v => exact (hplace (.inl rfl)).load
    | mem addr => exact (hplace (.inr (.inl rfl))).load
    | deref c => exact (hplace (.inr (.inr rfl))).load
    | binary op lhs rhs => exact reducible_binary hn (hfirst rfl) (hsecond rfl)
    | unary op c => exact .of_form .unary rfl (covers_one hn rfl (hfirst rfl))
    | grouping c => exact .of_form .grouping rfl (covers_one hn rfl (hfirst rfl))
    | signExtend c => exact .of_form (.signExtend (by decide)) rfl (covers_one hn rfl (hfirst rfl))
    | compare op lhs rhs =>
        exact .of_form (.compare (by decide)) rfl (covers_two hn rfl (hfirst rfl) (hsecond rfl))
    | logical op lhs rhs =>
        exact .of_form .logical rfl (covers_two hn rfl (hfirst rfl) (hsecond rfl))
    | assign target value =>
        -- the target is no value: its place is what the rule asks for
        have htarget := (hchildren target List.mem_cons_self).2
        have hslot : (Node.assign target value).children[0]? = some target := rfl
        rcases (htree.of_below hid).child hn hslot |>.exists_get? with ⟨n, hn'⟩
        have hkind : n.kind.IsPlace := by
          by_contra hkind
          exact h ⟨id, hid, target, value, n, hn, hn', hkind⟩
        exact .of_form .store rfl (covers_two hn rfl (htarget n hn' hkind) (hsecond rfl))
    | call callee args =>
        have hprice : Price.call a id = .ok (some (2 + args.length)) := by
          rw [Price.call, Arena.node_eq_ok_iff.2 hn]
          rfl
        exact .of_form .call hprice (covers_leaf hn rfl)
  · cases hn.symm.trans hn'
    exact hkind

mutual

/-- What has a derivation is not blocked, and if the derivation is to a memory operand then it names
a place. -/
theorem not_blocked_of_derives : {id : NodeId} → {x : Nonterminal} → {k : Nat} →
    grammar.Derives a id x k →
      ¬ a.Blocked id ∧ (x = .mem → ∃ n, a.get? id = some n ∧ n.kind.IsPlace)
  | id, _, _, .rule hr _ hcovers => by
      rcases not_blocked_of_covers hcovers with ⟨hblocked, hstore, hkind, -⟩
      refine ⟨(rule_assign hr).elim hblocked hstore, fun hmem => ?_⟩
      rcases rule_mem hr hmem with ⟨k, subs, hpattern, hk⟩
      rcases hkind k subs hpattern with ⟨n, hn, rfl⟩
      exact ⟨n, hn, hk⟩

theorem not_blocked_of_covers : {p : Pattern} → {id : NodeId} → {k : Nat} →
    grammar.Covers a p id k →
      (p.avoids .assign = true → ¬ a.Blocked id) ∧
      (p = .node .assign [.mem, .reg] → ¬ a.Blocked id) ∧
      (∀ k subs, p = .node k subs → ∃ n, a.get? id = some n ∧ n.kind = k) ∧
      (p = .mem → ∃ n, a.get? id = some n ∧ n.kind.IsPlace)
  | _, _, _, .nt hderives => by
      rcases not_blocked_of_derives hderives with ⟨hblocked, hplace⟩
      refine ⟨fun _ => hblocked, fun _ => hblocked, nofun, ?_⟩
      intro hmem
      cases hmem
      exact hplace rfl
  | _, id, _, @Grammar.Covers.node _ _ kind subs _ n _ hn hkind hall => by
      have hchildren := not_blocked_of_coversAll hall
      refine ⟨fun havoids => ?_, fun hstore => ?_, ?_, nofun⟩
      · -- the node is no assignment, so it is blocked only if a child is
        rw [Pattern.avoids, Bool.and_eq_true, decide_eq_true_eq] at havoids
        refine Arena.not_blocked_of_children hn ?_ ?_
        · rintro ⟨target, value, n', hassign, -⟩
          cases hn.symm.trans hassign
          exact havoids.1 hkind.symm
        · intro c hc
          rcases List.mem_iff_getElem?.1 hc with ⟨slot, hslot⟩
          rcases hchildren slot c hslot with ⟨p, hp, hblocked, -⟩
          exact hblocked (Pattern.avoids_of_avoidsAll havoids.2 (List.mem_of_getElem? hp))
      · cases hstore
        refine Arena.not_blocked_of_children hn ?_ ?_
        · -- the target is reduced to a memory operand
          rintro ⟨target, value, n', hassign, htarget, hplace⟩
          cases hn.symm.trans hassign
          rcases hchildren 0 target rfl with ⟨p, hp, -, hmem⟩
          rcases hmem (Option.some.inj hp).symm with ⟨n'', hn'', hkind'⟩
          cases htarget.symm.trans hn''
          exact hplace hkind'
        · intro c hc
          rcases List.mem_iff_getElem?.1 hc with ⟨slot, hslot⟩
          rcases hchildren slot c hslot with ⟨p, hp, hblocked, -⟩
          have hsubs : Pattern.avoidsAll .assign [.mem, .reg] = true := rfl
          exact hblocked (Pattern.avoids_of_avoidsAll hsubs (List.mem_of_getElem? hp))
      · intro k' subs' hp
        cases hp
        exact ⟨n, hn, hkind⟩

theorem not_blocked_of_coversAll : {ps : List Pattern} → {ids : List NodeId} → {k : Nat} →
    grammar.CoversAll a ps ids k → ∀ (slot : Nat) (id : NodeId), ids[slot]? = some id →
      ∃ p, ps[slot]? = some p ∧ (p.avoids .assign = true → ¬ a.Blocked id) ∧
        (p = .mem → ∃ n, a.get? id = some n ∧ n.kind.IsPlace)
  | _, _, _, .nil, slot, id, hid => by
      simp at hid
  | p :: _, _ :: _, _, .cons hfirst _, 0, _, hid => by
      cases hid
      rcases not_blocked_of_covers hfirst with ⟨hblocked, -, -, hmem⟩
      exact ⟨p, rfl, hblocked, hmem⟩
  | _ :: _, _ :: _, _, .cons _ hrest, slot + 1, id, hid =>
      not_blocked_of_coversAll hrest slot id hid

end

theorem reducible_iff (htree : a.IsTree Node.children root) :
    Reducible a root .reg ↔ ¬ a.Blocked root := by
  constructor
  · rintro ⟨k, hk⟩
    exact (not_blocked_of_derives hk).1
  · intro h
    exact (reducible htree h).1

/-! ## Recorded rules -/

/-- Below `root`, what is recorded for a nonterminal is a rule for it that applies and matches. -/
def Chosen (a : Arena) (table : LabelTable) (root : NodeId) : Prop :=
  ∀ m, a.Below Node.children root m → ∀ x choice, table.best m x = some choice →
    ∃ r base, rules[choice.rule]? = some r ∧ r.result = x ∧
      r.cost.base? a m = .ok (some base) ∧ r.pattern.Matches a table.Records m

/-- Labeling a tree that awaits it records matching rules, and one for the root as a register unless
it is blocked. -/
theorem exists_labeled {settings : Settings} {t : Target} (ht : Target.x64 settings = .ok t)
    (htree : a.IsTree Node.children root) {l : Labeling}
    (hawaits : ∀ w m, a.Path Node.children root w m → t.Awaits a l.table w m) :
    ∃ l', (t.label a root).run l = .ok () l' ∧
      (∀ m, ¬ a.Below Node.children root m → l'.table.label? m = l.table.label? m) ∧
      (∀ w m, a.Path Node.children root w m → t.Labeled a l'.table w m) ∧
      Chosen a l'.table root ∧ (l'.table.Records root .reg ↔ ¬ a.Blocked root) := by
  rcases Target.built_of_build ht with ⟨hgrammar, hbuilt⟩
  have hpriced : t.grammar.Priced a root := by
    rw [hgrammar]
    exact (total htree.isDag).priced
  rcases Target.label_awaited_spec hbuilt htree hpriced hawaits with
    ⟨l', hrun, hsame, hlabeled⟩
  have hstable : ∀ m, a.Below Node.children root m → l'.table.Stable grammar a m := by
    rintro m ⟨w, hw⟩
    rw [← hgrammar]
    exact (hlabeled w m hw).stable
  have hrealized : ∀ m, a.Below Node.children root m → l'.table.Realized grammar a m := by
    rintro m ⟨w, hw⟩
    rw [← hgrammar]
    exact (hlabeled w m hw).realized
  refine ⟨l', hrun, hsame, hlabeled, ?_, ?_⟩
  · intro m hm x choice hchoice
    rcases hrealized m hm x choice hchoice with ⟨r, base, k, hr, hresult, hbase, hcovers, -⟩
    have hmatches := (LabelTable.bindingCost?_le_of_covers hstable hm hcovers).1
    exact ⟨r, base, hr, hresult, hbase, hmatches⟩
  · -- a derivation exists just if its cost, or a lower one, is recorded
    rw [← reducible_iff htree, LabelTable.Records, Option.isSome_iff_exists]
    constructor
    · rintro ⟨choice, hbest⟩
      rcases (hrealized root (.refl root)).derives hbest with ⟨k, hk, -⟩
      exact ⟨k, hk⟩
    · rintro ⟨k, hk⟩
      rcases LabelTable.best_le_of_derives hstable (.refl root) hk with ⟨choice, hbest, -⟩
      exact ⟨choice, hbest⟩

/-- Labeling a selectable tree records matching rules, and one for the root as a register. -/
theorem exists_chosen {settings : Settings} {t : Target} (ht : Target.x64 settings = .ok t)
    (h : a.Selectable k root) (tr : Trace) :
    ∃ l, (t.label a root).run { table := .blank a.size t.grammar.size, trace := tr } = .ok () l ∧
      Chosen a l.table root ∧ l.table.Records root .reg := by
  have hawaits : ∀ w m, a.Path Node.children root w m →
      t.Awaits a (.blank a.size t.grammar.size) w m :=
    fun w m hw => .inl (LabelTable.label?_blank (h.tree.inside m ⟨w, hw⟩))
  rcases exists_labeled ht (l := ⟨.blank a.size t.grammar.size, tr⟩) h.tree hawaits with
    ⟨l, hrun, -, -, hchosen, hrecords⟩
  exact ⟨l, hrun, hchosen, hrecords.2 h.not_blocked⟩

end X64
end Codegen
