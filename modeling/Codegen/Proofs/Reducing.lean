import Codegen.Proofs.Selecting
import Codegen.Proofs.Simulation

/-!
# Reducing — applying one rule

A subtree is reduced in a state that may have grown, and in which subtrees to the left have been
replaced by nodes for their values; but the subtree itself is as it was.  Reducing it touches its
own nodes only, so what the parts deliver stays in place until the instructions that use it are
emitted.

* `X64.Ready`        : the subtree of a node is as it was
* `X64.Delivers`     : a node stands for the value of a subtree, which the emitted code computes
* `X64.Handles`      : reducing a node in any ready state succeeds and delivers
* `X64.Applies.rule` : a rule succeeds if what it binds can be handled
-/

namespace Codegen
namespace X64

/-! ## What a reduction finds and delivers -/

/-- The state has the labels `table`, and the subtree of `id` in it is that of `a`. -/
structure Ready (a : Arena) (k₀ : Nat) (table : LabelTable) (id : NodeId) (s : Selection) :
    Prop where
  table : s.table = table
  intact : ∀ m, a.Below Node.children id m → s.arena.get? m = a.get? m
  size : a.size ≤ s.arena.size
  regs : k₀ ≤ s.nextReg

/-- The node `value` stands for the operand `o`, in which `code` computes what `id` means. -/
structure Delivers (a : Arena) (k₀ : Nat) (id : NodeId) (x : Nonterminal) (k : Nat) (s : Selection)
    (value : NodeId) (code : List Instr) (o : Operand) : Prop where
  operand : s.arena.operand? value = some o
  /-- The node is one of the subtree, or a new one. -/
  origin : a.Below Node.children id value ∨ a.size ≤ value
  fits : Fits a id x o
  usable : o.Usable s.nextReg
  computes : Computes a k₀ id x code k o

/-- Reducing `id` to `x` delivers, and touches the subtree of `id` only. -/
def Succeeds (t : Target) (a : Arena) (k₀ fuel : Nat) (id : NodeId) (x : Nonterminal)
    (s : Selection) : Prop :=
  ∃ value s' code o, (t.reduce fuel id x).run s = .ok value s' ∧
    s.Extends (a.Below Node.children id) s' code ∧
      Delivers a k₀ id x s.nextReg s' value code o

def Handles (t : Target) (a : Arena) (k₀ : Nat) (table : LabelTable) (fuel : Nat) (id : NodeId)
    (x : Nonterminal) : Prop :=
  ∀ s, Ready a k₀ table id s → Succeeds t a k₀ fuel id x s

variable {t : Target} {a : Arena} {k₀ k fuel : Nat} {table : LabelTable} {id c c' : NodeId}
  {x y : Nonterminal} {s s₁ s' : Selection} {touched : NodeId → Prop} {code rest : List Instr}
  {n : Node} {o : Operand} {value : NodeId}

theorem Ready.of_below (h : Ready a k₀ table id s) (hc : a.Below Node.children id c) :
    Ready a k₀ table c s where
  table := h.table
  intact m hm := h.intact m (hc.trans hm)
  size := h.size
  regs := h.regs

/-- A subtree that is not touched stays as it was. -/
theorem Ready.extends (h : Ready a k₀ table id s) (hext : s.Extends touched s' code)
    (htree : a.IsTree Node.children id)
    (hdisjoint : ∀ m, a.Below Node.children id m → ¬ touched m) : Ready a k₀ table id s' where
  table := hext.table.trans h.table
  intact m hm := by
    have hlt := Nat.lt_of_lt_of_le (htree.inside m hm) h.size
    exact (hext.same m hlt (hdisjoint m hm)).trans (h.intact m hm)
  size := Nat.le_trans h.size hext.size
  regs := Nat.le_trans h.regs hext.nextReg

theorem lt_size_of_operand? {arena : Arena} (h : arena.operand? value = some o) :
    value < arena.size := by
  rcases Option.bind_eq_some_iff.1 h with ⟨n, hn, -⟩
  exact Arena.lt_size hn

/-- What is delivered stays there while other nodes are touched. -/
theorem Delivers.extends (h : Delivers a k₀ id x k s value code o)
    (hext : s.Extends touched s' rest) (hvalue : ¬ touched value) :
    Delivers a k₀ id x k s' value code o where
  operand := by
    have hsame := hext.same value (lt_size_of_operand? h.operand) hvalue
    rw [← h.operand, Arena.operand?, Arena.operand?, hsame]
  origin := h.origin
  fits := h.fits
  usable := h.usable.mono hext.nextReg
  computes := h.computes

/-- A delivered node lies outside of any part of the tree that is apart from its subtree. -/
theorem Delivers.apart (h : Delivers a k₀ id x k s value code o) {m : NodeId} (hm : m < a.size)
    (hapart : ¬ a.Below Node.children id m) : value ≠ m := by
  rintro rfl
  rcases h.origin with hbelow | hsize
  · exact hapart hbelow
  · exact Nat.not_lt.2 hsize hm

/-! ## Bound children -/

/-- One child is reduced and replaced by the node for its value. -/
theorem bind_child (rule : String) {slot : Nat} {f : NodeId → Node}
    (hhandles : Handles t a k₀ table fuel c x) (hready : Ready a k₀ table c s)
    (hid : id < a.size) (hapart : ¬ a.Below Node.children c id) (hn : s.arena.get? id = some n)
    (hc : n.children[slot]? = some c) (hset : ∀ v, n.setChild? slot v = some (f v)) :
    ∃ value s' code o,
      (Target.bindSub (t.reduce fuel) rule (.nt x) id slot).run s = .ok () s' ∧
      s'.arena.get? id = some (f value) ∧
      s.Extends (fun m => m = id ∨ a.Below Node.children c m) s' code ∧
      Delivers a k₀ c x s.nextReg s' value code o := by
  rcases hhandles s hready with ⟨value, s₁, code, o, hrun, hext, hdelivers⟩
  have hlt : id < s.arena.size := Nat.lt_of_lt_of_le hid hready.size
  have hn₁ : s₁.arena.get? id = some n := (hext.same id hlt hapart).trans hn
  have hreplaced := Selection.Extends.replaced s₁ id (f value)
  refine ⟨value, _, code, o, Target.run_bindSub_nt hn hc hrun hn₁ (hset value), ?_, ?_, ?_⟩
  · exact Arena.get?_set_self (Nat.lt_of_lt_of_le hlt hext.size) (f value)
  · rw [← List.append_nil code]
    exact (hext.mono fun m hm => .inr hm).trans (hreplaced.mono fun m hm => .inl hm)
  · exact hdelivers.extends hreplaced (hdelivers.apart hid hapart)

theorem below_of_child (hc : a.Below Node.children id c) (m : NodeId) :
    m = id ∨ a.Below Node.children c m → a.Below Node.children id m := by
  rintro (rfl | hm)
  · exact .refl m
  · exact hc.trans hm

/-- The nodes with one child slot, as functions of the child. -/
structure OneSlot (build : NodeId → Node) : Prop where
  children : ∀ u, (build u).children = [u]
  setChild? : ∀ u v, (build u).setChild? 0 v = some (build v)

theorem bind_one (rule : String) {build : NodeId → Node} (hbuild : OneSlot build)
    (htree : a.IsTree Node.children id) (hn : a.get? id = some (build c))
    (hhandles : Handles t a k₀ table fuel c x) (hready : Ready a k₀ table id s) :
    ∃ value s' code o,
      (Target.bindSubs (t.reduce fuel) rule [.nt x] id 0).run s = .ok () s' ∧
      s'.arena.get? id = some (build value) ∧
      s.Extends (a.Below Node.children id) s' code ∧
      Delivers a k₀ c x s.nextReg s' value code o := by
  have hc : (build c).children[0]? = some c := by rw [hbuild.children]; rfl
  have hbelow := Arena.Below.child hn hc
  rcases bind_child rule hhandles (hready.of_below hbelow) (htree.inside id (.refl id))
      (htree.not_below_child hn hc) ((hready.intact id (.refl id)).trans hn) hc
      (hbuild.setChild? c) with
    ⟨value, s', code, o, hrun, hn', hext, hdelivers⟩
  refine ⟨value, s', code, o, ?_, hn', hext.mono (below_of_child hbelow), hdelivers⟩
  rw [Target.bindSubs, run_bind_of_ok hrun]
  rfl

/-- The nodes with two child slots, as functions of the children. -/
structure TwoSlots (build : NodeId → NodeId → Node) : Prop where
  children : ∀ u v, (build u v).children = [u, v]
  setFirst? : ∀ u v w, (build u v).setChild? 0 w = some (build w v)
  setSecond? : ∀ u v w, (build u v).setChild? 1 w = some (build u w)

/-- The first child is reduced before the second one; `k'` is the number of registers issued
between. -/
theorem bind_two (rule : String) {build : NodeId → NodeId → Node} (hbuild : TwoSlots build)
    (htree : a.IsTree Node.children id) (hn : a.get? id = some (build c c'))
    (hfirst : Handles t a k₀ table fuel c x) (hsecond : Handles t a k₀ table fuel c' y)
    (hready : Ready a k₀ table id s) :
    ∃ v v' s' code code' o o' k',
      (Target.bindSubs (t.reduce fuel) rule [.nt x, .nt y] id 0).run s = .ok () s' ∧
      s'.arena.get? id = some (build v v') ∧
      s.Extends (a.Below Node.children id) s' (code ++ code') ∧
      Operands a k₀ c x c' y code code' s.nextReg k' o o' ∧
      Delivers a k₀ c x s.nextReg s' v code o ∧ Delivers a k₀ c' y k' s' v' code' o' := by
  have hchildren := hbuild.children c c'
  have hc : (build c c').children[0]? = some c := by rw [hchildren]; rfl
  have hc' : (build c c').children[1]? = some c' := by rw [hchildren]; rfl
  have hbelow := Arena.Below.child hn hc
  have hbelow' := Arena.Below.child hn hc'
  have hid := htree.inside id (.refl id)
  -- the subtrees of the two children have no node in common
  have hdisjoint : ∀ m, a.Below Node.children c m → ¬ a.Below Node.children c' m := by
    intro m hm hm'
    have := htree.slot_unique hn hc hc' hm hm'
    omega
  rcases bind_child rule hfirst (hready.of_below hbelow) hid (htree.not_below_child hn hc)
      ((hready.intact id (.refl id)).trans hn) hc (hbuild.setFirst? c c') with
    ⟨v, s₁, code, o, hrun, hn₁, hext, hdelivers⟩
  have hready₁ : Ready a k₀ table c' s₁ := by
    refine (hready.of_below hbelow').extends hext (htree.child hn hc') ?_
    rintro m hm (rfl | hm')
    · exact htree.not_below_child hn hc' hm
    · exact hdisjoint m hm' hm
  have hslot : (build v c').children[1]? = some c' := by rw [hbuild.children]; rfl
  rcases bind_child rule hsecond hready₁ hid (htree.not_below_child hn hc') hn₁ hslot
      (hbuild.setSecond? v c') with
    ⟨v', s₂, code', o', hrun', hn₂, hext', hdelivers'⟩
  -- reducing the second child leaves alone the node that the first one was replaced by
  have htouched : ¬ (v = id ∨ a.Below Node.children c' v) := by
    rintro (heq | hv)
    · exact hdelivers.apart hid (htree.not_below_child hn hc) heq
    · have hlt := (htree.child hn hc').inside v hv
      exact hdelivers.apart hlt (fun hm => hdisjoint v hm hv) rfl
  refine ⟨v, v', s₂, code, code', o, o', s₁.nextReg, ?_, hn₂, ?_, ?_,
    hdelivers.extends hext' htouched, hdelivers'⟩
  · rw [Target.bindSubs, run_bind_of_ok hrun, Target.bindSubs, run_bind_of_ok hrun']
    rfl
  · exact (hext.mono (below_of_child hbelow)).trans (hext'.mono (below_of_child hbelow'))
  · exact ⟨hdelivers.computes, hdelivers.fits, hdelivers.usable, hdelivers'.computes,
      hdelivers'.fits, hready.regs, hext.nextReg⟩

/-! ## Results -/

/-- The result of a sequence that is emitted into a fresh register. -/
theorem delivers_leaving (hsize : a.size ≤ s₁.arena.size)
    (hcomputes : Computes a k₀ id .reg code k (.vreg s₁.fresh)) :
    Delivers a k₀ id .reg k (s₁.leaving rest) s₁.arena.size code (.vreg s₁.fresh) where
  operand := s₁.operand?_leaving rest
  origin := .inr hsize
  fits := trivial
  usable := by
    rw [Selection.nextReg_leaving]
    exact Nat.lt_succ_self _
  computes := hcomputes

/-- The result that is a memory operand. -/
theorem delivers_appended {addr : Address} (hsize : a.size ≤ s₁.arena.size)
    (hplace : ∃ n, a.get? id = some n ∧ n.kind.IsPlace)
    (husable : Operand.Usable s₁.nextReg (.mem addr))
    (hcomputes : Computes a k₀ id .mem code k (.mem addr)) :
    Delivers a k₀ id .mem k (s₁.appended (.mem addr)) s₁.arena.size code (.mem addr) where
  operand := s₁.operand?_appended (.mem addr)
  origin := .inr hsize
  fits := hplace
  usable := husable
  computes := hcomputes

/-! ## Rules -/

/-- Rule `r` is recorded for reducing `id` to `x`, and everything that it may bind can be
handled. -/
structure Applies (t : Target) (a : Arena) (k₀ : Nat) (table : LabelTable) (fuel : Nat)
    (id : NodeId) (x : Nonterminal) (r : Rule) (s : Selection) : Prop where
  ready : Ready a k₀ table id s
  tree : a.IsTree Node.children id
  regs : ∀ n reg, a.get? id = some n → n.reg? = some reg → reg.index < k₀
  recorded : ∃ choice, table.best id x = some choice ∧ t.grammar.rules[choice.rule]? = some r
  chained : x = .reg → ∀ y, y ≠ .reg → table.Records id y → Handles t a k₀ table fuel id y
  below : ∀ m, a.Below Node.children id m → m ≠ id → ∀ y, table.Records m y →
    Handles t a k₀ table fuel m y

namespace Applies

variable {r : Rule} {kind : NodeKind} {subs : List Pattern}

theorem child {slot : Nat} (h : Applies t a k₀ table fuel id x r s) (hn : a.get? id = some n)
    (hc : n.children[slot]? = some c) (hy : table.Records c y) :
    Handles t a k₀ table fuel c y := by
  refine h.below c (.child hn hc) ?_ y hy
  rintro rfl
  exact h.tree.not_below_child hn hc (.refl c)

theorem get? (h : Applies t a k₀ table fuel id x r s) (hn : a.get? id = some n) :
    s.arena.get? id = some n :=
  (h.ready.intact id (.refl id)).trans hn

/-- A rule succeeds if its emission procedure does, once the children are bound. -/
theorem succeeds (h : Applies t a k₀ table fuel id x r s) (hpattern : r.pattern = .node kind subs)
    (hbind : (Target.bindSubs (t.reduce fuel) r.name subs id 0).run s = .ok () s₁)
    (hemit : ∀ R, (r.emit R id).run (s₁.applied id x r.name) = .ok value s')
    (hext : s.Extends (a.Below Node.children id) s' code)
    (hdelivers : Delivers a k₀ id x s.nextReg s' value code o) :
    Succeeds t a k₀ (fuel + 1) id x s := by
  rcases h.recorded with ⟨choice, hbest, hr⟩
  rw [← h.ready.table] at hbest
  refine ⟨value, s', code, o, ?_, hext, hdelivers⟩
  rw [Target.run_reduce_node hbest hr hpattern hbind]
  exact hemit _

/-- A leaf that stands for itself. -/
theorem keep (h : Applies t a k₀ table fuel id x r s) (hpattern : r.pattern = .leaf kind)
    (hemit : r.emit = .keep) (hn : a.get? id = some n) (ho : n.operand? = some o)
    (hfits : Fits a id x o) (husable : o.Usable k₀)
    (hcomputes : Computes a k₀ id x [] s.nextReg o) : Succeeds t a k₀ (fuel + 1) id x s := by
  have hdelivers : Delivers a k₀ id x s.nextReg (s.applied id x r.name) id [] o := by
    refine ⟨?_, .inl (.refl id), hfits, husable.mono h.ready.regs, hcomputes⟩
    change s.arena.operand? id = some o
    rw [Arena.operand?, h.get? hn]
    exact ho
  refine h.succeeds hpattern rfl (fun R => ?_) ((Selection.Extends.refl s).applied ..) hdelivers
  rw [hemit]
  rfl

/-- The emission procedure computes into a fresh register. -/
theorem leaving (h : Applies t a k₀ table fuel id .reg r s)
    (hpattern : r.pattern = .node kind subs)
    (hbind : (Target.bindSubs (t.reduce fuel) r.name subs id 0).run s = .ok () s₁)
    (hext : s.Extends (a.Below Node.children id) s₁ code)
    (hemit : ∀ R, (r.emit R id).run (s₁.applied id .reg r.name) =
      .ok s₁.arena.size ((s₁.applied id .reg r.name).leaving rest))
    (hcomputes : Computes a k₀ id .reg (code ++ rest) s.nextReg (.vreg s₁.fresh)) :
    Succeeds t a k₀ (fuel + 1) id .reg s :=
  h.succeeds hpattern hbind hemit ((hext.applied id .reg r.name).trans (.leaving _ rest))
    (delivers_leaving (Nat.le_trans h.ready.size hext.size) hcomputes)

/-- The emission procedure appends a memory operand. -/
theorem appended {addr : Address} (h : Applies t a k₀ table fuel id .mem r s)
    (hpattern : r.pattern = .node kind subs) (hn : a.get? id = some n) (hplace : n.kind.IsPlace)
    (hbind : (Target.bindSubs (t.reduce fuel) r.name subs id 0).run s = .ok () s₁)
    (hext : s.Extends (a.Below Node.children id) s₁ code)
    (hemit : ∀ R, (r.emit R id).run (s₁.applied id .mem r.name) =
      .ok s₁.arena.size ((s₁.applied id .mem r.name).appended (.mem addr)))
    (husable : Operand.Usable s₁.nextReg (.mem addr))
    (hcomputes : Computes a k₀ id .mem code s.nextReg (.mem addr)) :
    Succeeds t a k₀ (fuel + 1) id .mem s :=
  h.succeeds hpattern hbind hemit ((hext.applied id .mem r.name).appended (.mem addr))
    (delivers_appended (Nat.le_trans h.ready.size hext.size) ⟨n, hn, hplace⟩ husable hcomputes)

/-- A chain rule copies the operand into a register. -/
theorem chainCopy (h : Applies t a k₀ table fuel id .reg r s) (hpattern : r.pattern = .nt y)
    (hemit : r.emit = copy) (hy : y ≠ .reg) (hrecords : table.Records id y) :
    Succeeds t a k₀ (fuel + 1) id .reg s := by
  rcases h.recorded with ⟨choice, hbest, hr⟩
  rw [← h.ready.table] at hbest
  rcases h.chained rfl y hy hrecords s h.ready with ⟨value, s₁, code, o, hrun, hext, hdelivers⟩
  refine ⟨_, _, _, _, ?_, (hext.applied id .reg r.name).trans (.leaving _ _),
    delivers_leaving (Nat.le_trans h.ready.size hext.size)
      (hdelivers.computes.copy hdelivers.fits hext.nextReg)⟩
  rw [Target.run_reduce_chain hbest hr hpattern hrun, hemit]
  exact run_copy hdelivers.operand

/-- A leaf is put into a register. -/
theorem leafLeaving {f : VirtualReg → List Instr} (h : Applies t a k₀ table fuel id .reg r s)
    (hpattern : r.pattern = .leaf kind) (hn : a.get? id = some n)
    (hemit : ∀ R s, s.arena.get? id = some n →
      (r.emit R id).run s = .ok s.arena.size (s.leaving (f s.fresh)))
    (hcomputes : ∀ d : VirtualReg, Computes a k₀ id .reg (f d) d.index (.vreg d)) :
    Succeeds t a k₀ (fuel + 1) id .reg s :=
  h.leaving hpattern rfl (.refl s) (fun R => hemit R (s.applied id .reg r.name) (h.get? hn))
    (hcomputes s.fresh)

/-- One operand is combined in a register. -/
theorem oneLeaving {build : NodeId → Node} {f : VirtualReg → Operand → List Instr}
    (h : Applies t a k₀ table fuel id .reg r s) (hpattern : r.pattern = .node kind [.nt x])
    (hbuild : OneSlot build) (hn : a.get? id = some (build c)) (hrecords : table.Records c x)
    (hemit : ∀ R s v o, s.arena.get? id = some (build v) → s.arena.operand? v = some o →
      (r.emit R id).run s = .ok s.arena.size (s.leaving (f s.fresh o)))
    (hcomputes : ∀ code k o (d : VirtualReg), Computes a k₀ c x code k o → Fits a c x o →
      k ≤ d.index → o.Usable d.index → Computes a k₀ id .reg (code ++ f d o) k (.vreg d)) :
    Succeeds t a k₀ (fuel + 1) id .reg s := by
  have hc : (build c).children[0]? = some c := by rw [hbuild.children]; rfl
  rcases bind_one r.name hbuild h.tree hn (h.child hn hc hrecords) h.ready with
    ⟨v, s₁, code, o, hbind, hn₁, hext, hdelivers⟩
  refine h.leaving hpattern hbind hext
    (fun R => hemit R (s₁.applied id .reg r.name) v o hn₁ hdelivers.operand) ?_
  exact hcomputes code s.nextReg o s₁.fresh hdelivers.computes hdelivers.fits hext.nextReg
    hdelivers.usable

/-- Two operands are combined in a register. -/
theorem twoLeaving {build : NodeId → NodeId → Node}
    {f : VirtualReg → Operand → Operand → List Instr}
    (h : Applies t a k₀ table fuel id .reg r s) (hpattern : r.pattern = .node kind [.reg, .nt y])
    (hbuild : TwoSlots build) (hn : a.get? id = some (build c c'))
    (hrecords : table.Records c .reg) (hrecords' : table.Records c' y)
    (hemit : ∀ R s v v' o o', s.arena.get? id = some (build v v') →
      s.arena.operand? v = some o → s.arena.operand? v' = some o' →
        (r.emit R id).run s = .ok s.arena.size (s.leaving (f s.fresh o o')))
    (hcomputes : ∀ code code' k k' o o' (d : VirtualReg),
      Operands a k₀ c .reg c' y code code' k k' o o' → k ≤ d.index → o.Usable d.index →
        o'.Usable d.index → Computes a k₀ id .reg (code ++ code' ++ f d o o') k (.vreg d)) :
    Succeeds t a k₀ (fuel + 1) id .reg s := by
  have hc : (build c c').children[0]? = some c := by rw [hbuild.children]; rfl
  have hc' : (build c c').children[1]? = some c' := by rw [hbuild.children]; rfl
  rcases bind_two r.name hbuild h.tree hn (h.child hn hc hrecords) (h.child hn hc' hrecords')
      h.ready with
    ⟨v, v', s₁, code, code', o, o', k', hbind, hn₁, hext, hoperands, hdelivers, hdelivers'⟩
  refine h.leaving hpattern hbind hext (fun R => hemit R (s₁.applied id .reg r.name) v v' o o' hn₁
    hdelivers.operand hdelivers'.operand) ?_
  exact hcomputes code code' s.nextReg k' o o' s₁.fresh hoperands hext.nextReg hdelivers.usable
    hdelivers'.usable

/-- The truth values of two operands are combined, in three registers. -/
theorem logical {op : LogicalOp} (h : Applies t a k₀ table fuel id .reg r s)
    (hpattern : r.pattern = .node kind [.reg, .reg]) (hemit : r.emit = X64.logical)
    (hn : a.get? id = some (.logical op c c')) (hrecords : table.Records c .reg)
    (hrecords' : table.Records c' .reg) : Succeeds t a k₀ (fuel + 1) id .reg s := by
  have hbuild : TwoSlots (Node.logical op) := ⟨fun _ _ => rfl, fun _ _ _ => rfl, fun _ _ _ => rfl⟩
  have hc : (Node.logical op c c').children[0]? = some c := rfl
  have hc' : (Node.logical op c c').children[1]? = some c' := rfl
  rcases bind_two r.name hbuild h.tree hn (h.child hn hc hrecords) (h.child hn hc' hrecords')
      h.ready with
    ⟨v, v', s₁, code, code', o, o', k', hbind, hn₁, hext, hoperands, hdelivers, hdelivers'⟩
  have hcomputes : Computes a k₀ id .reg
      (code ++ code' ++ junction op s₁.fresh s₁.issued.fresh s₁.issued.issued.fresh o o') s.nextReg
      (.vreg s₁.issued.issued.fresh) :=
    hoperands.logical hn hext.nextReg (Nat.lt_succ_self _) (Nat.lt_succ_self _) hdelivers.usable
      hdelivers'.usable
  refine h.succeeds hpattern hbind (fun R => ?_)
    ((hext.applied id .reg r.name).issued.issued.trans (.leaving _ _))
    (delivers_leaving (Nat.le_trans h.ready.size hext.size) hcomputes)
  rw [hemit]
  exact run_logical hn₁ hdelivers.operand hdelivers'.operand

/-- An operand that fits a register is one. -/
theorem exists_vreg (h : Fits a id .reg o) : ∃ reg, o = .vreg reg := by
  cases o with
  | vreg reg => exact ⟨reg, rfl⟩
  | _ => exact absurd h not_false

/-- A group hands on what its inner node delivers. -/
theorem grouping (h : Applies t a k₀ table fuel id .reg r s)
    (hpattern : r.pattern = .node kind [.reg]) (hemit : r.emit = inner)
    (hn : a.get? id = some (.grouping c)) (hrecords : table.Records c .reg) :
    Succeeds t a k₀ (fuel + 1) id .reg s := by
  have hc : (Node.grouping c).children[0]? = some c := rfl
  rcases bind_one r.name ⟨fun _ => rfl, fun _ _ => rfl⟩ h.tree hn (h.child hn hc hrecords)
      h.ready with
    ⟨v, s₁, code, o, hbind, hn₁, hext, hdelivers⟩
  rcases exists_vreg hdelivers.fits with ⟨reg, rfl⟩
  have hdelivers' : Delivers a k₀ id .reg s.nextReg (s₁.applied id .reg r.name) v code
      (.vreg reg) := by
    refine ⟨hdelivers.operand, ?_, trivial, hdelivers.usable, hdelivers.computes.grouping hn⟩
    exact hdelivers.origin.imp_left (Arena.Below.child hn hc).trans
  refine h.succeeds hpattern hbind (fun R => ?_) (hext.applied id .reg r.name) hdelivers'
  rw [hemit]
  exact run_inner hn₁ rfl

/-- The memory operand at the address in a register. -/
theorem deref (h : Applies t a k₀ table fuel id .mem r s)
    (hpattern : r.pattern = .node kind [.reg]) (hemit : r.emit = X64.deref)
    (hn : a.get? id = some (.deref c)) (hrecords : table.Records c .reg) :
    Succeeds t a k₀ (fuel + 1) id .mem s := by
  have hc : (Node.deref c).children[0]? = some c := rfl
  rcases bind_one r.name ⟨fun _ => rfl, fun _ _ => rfl⟩ h.tree hn (h.child hn hc hrecords)
      h.ready with
    ⟨v, s₁, code, o, hbind, hn₁, hext, hdelivers⟩
  rcases exists_vreg hdelivers.fits with ⟨base, rfl⟩
  have husable : Operand.Usable s₁.nextReg (.mem (.ofReg base 0)) := hdelivers.usable
  refine h.appended hpattern hn (.inr (.inr rfl)) hbind hext (fun R => ?_) husable
    (hdelivers.computes.deref hn)
  rw [hemit]
  exact run_deref hn₁ hdelivers.operand

/-- A sum below a dereference is not reduced itself: its parts are. -/
theorem derefFolded {kind' : NodeKind} {sum : NodeId} {op : BinaryOp} {value disp : Int}
    (h : Applies t a k₀ table fuel id .mem r s)
    (hpattern : r.pattern = .node kind [.node kind' [.nt .reg, .nt .imm]])
    (hemit : r.emit = X64.derefFolded) (hn : a.get? id = some (.deref sum))
    (hsum : a.get? sum = some (.binary op c c')) (hrecords : table.Records c .reg)
    (hrecords' : table.Records c' .imm) (hvalue : a.get? c' = some (.literal value))
    (hop : op = .add ∨ op = .sub) (hdisp : displacement? op value = some disp) :
    Succeeds t a k₀ (fuel + 1) id .mem s := by
  have hslot : (Node.deref sum).children[0]? = some sum := rfl
  have hbelow := Arena.Below.child hn hslot
  have hapart := h.tree.not_below_child hn hslot
  -- the parts hang two levels down, where the reductions are given as well
  have hpart : ∀ (slot : Nat) m, (Node.binary op c c').children[slot]? = some m →
      ∀ y, table.Records m y → Handles t a k₀ table fuel m y := by
    intro slot m hm
    have hm' := Arena.Below.child hsum hm
    exact h.below m (hbelow.trans hm') (h.tree.ne_of_below_child hn hslot hm')
  rcases bind_two r.name ⟨fun _ _ => rfl, fun _ _ _ => rfl, fun _ _ _ => rfl⟩
      (h.tree.of_below hbelow) hsum (hpart 0 c rfl .reg hrecords) (hpart 1 c' rfl .imm hrecords')
      (h.ready.of_below hbelow) with
    ⟨v, v', s₁, code, code', o, o', k', hbind, hsum₁, hext, hoperands, hdelivers, hdelivers'⟩
  have hn₁ : s₁.arena.get? id = some (.deref sum) := by
    have hlt := Nat.lt_of_lt_of_le (h.tree.inside id (.refl id)) h.ready.size
    exact (hext.same id hlt hapart).trans (h.get? hn)
  rcases exists_vreg hdelivers.fits with ⟨base, rfl⟩
  -- an operand for a number is that number, so it is the displacement that was checked
  have himm : o' = .imm value := by
    have hfits := hdelivers'.fits
    cases o' with
    | imm value' =>
        cases hvalue.symm.trans hfits
        rfl
    | _ => exact absurd hfits not_false
  subst himm
  have husable : Operand.Usable s₁.nextReg (.mem (.ofReg base disp)) := hdelivers.usable
  refine h.appended hpattern hn (.inr (.inr rfl))
    (Target.run_bindSubs_node (h.get? hn) hslot hbind) (hext.mono fun m hm => hbelow.trans hm)
    (fun R => ?_) husable (hoperands.derefFolded hn hsum hop hdisp)
  rw [hemit]
  exact run_derefFolded hn₁ hsum₁ hdelivers.operand hdelivers'.operand hdisp

/-- An assignment hands on the register that it has stored. -/
theorem store (h : Applies t a k₀ table fuel id .reg r s)
    (hpattern : r.pattern = .node kind [.mem, .reg]) (hemit : r.emit = X64.store)
    (hn : a.get? id = some (.assign c c')) (hrecords : table.Records c .mem)
    (hrecords' : table.Records c' .reg) : Succeeds t a k₀ (fuel + 1) id .reg s := by
  have hc : (Node.assign c c').children[0]? = some c := rfl
  have hc' : (Node.assign c c').children[1]? = some c' := rfl
  rcases bind_two r.name ⟨fun _ _ => rfl, fun _ _ _ => rfl, fun _ _ _ => rfl⟩ h.tree hn
      (h.child hn hc hrecords) (h.child hn hc' hrecords') h.ready with
    ⟨v, v', s₁, code, code', o, o', k', hbind, hn₁, hext, hoperands, hdelivers, hdelivers'⟩
  rcases exists_vreg hdelivers'.fits with ⟨reg, rfl⟩
  have hmem : ∃ addr, o = .mem addr := by
    have hfits := hdelivers.fits
    cases o with
    | mem addr => exact ⟨addr, rfl⟩
    | _ => exact absurd hfits not_false
  rcases hmem with ⟨addr, rfl⟩
  have hresult : Delivers a k₀ id .reg s.nextReg
      ((s₁.applied id .reg r.name).emitted [.move (.mem addr) (.vreg reg)]) v'
      (code ++ code' ++ [.move (.mem addr) (.vreg reg)]) (.vreg reg) := by
    refine ⟨hdelivers'.operand, ?_, trivial, hdelivers'.usable, hoperands.assign hn⟩
    exact hdelivers'.origin.imp_left (Arena.Below.child hn hc').trans
  refine h.succeeds hpattern hbind (fun R => ?_)
    ((hext.applied id .reg r.name).trans (.emitted _ _)) hresult
  rw [hemit]
  exact run_store hn₁ hdelivers.operand hdelivers'.operand

/-! ## Rules by the nodes they match -/

theorem immLiteral (h : Applies t a k₀ table fuel id .imm r s)
    (hpattern : r.pattern = .leaf .literal) (hemit : r.emit = .keep)
    (hmatches : (Pattern.leaf .literal).Matches a table.Records id) :
    Succeeds t a k₀ (fuel + 1) id .imm s := by
  rcases hmatches with ⟨n, hn, hkind, -⟩
  cases n with
  | literal value => exact h.keep hpattern hemit hn rfl hn trivial (computes_literal hn)
  | _ => cases hkind

theorem wideLiteral (h : Applies t a k₀ table fuel id .reg r s)
    (hpattern : r.pattern = .leaf .literal) (hemit : r.emit = copy)
    (hmatches : (Pattern.leaf .literal).Matches a table.Records id) :
    Succeeds t a k₀ (fuel + 1) id .reg s := by
  rcases hmatches with ⟨n, hn, hkind, -⟩
  cases n with
  | literal value =>
      refine h.leafLeaving (f := fun d => [.move (.vreg d) (.imm value)]) hpattern hn ?_ ?_
      · intro R s hn'
        rw [hemit]
        exact run_copy (by rw [Arena.operand?, hn']; rfl)
      · intro d
        exact (computes_literal hn).copy hn (Nat.le_refl d.index)
  | _ => cases hkind

theorem vreg (h : Applies t a k₀ table fuel id .reg r s) (hpattern : r.pattern = .leaf .vreg)
    (hemit : r.emit = .keep) (hmatches : (Pattern.leaf .vreg).Matches a table.Records id) :
    Succeeds t a k₀ (fuel + 1) id .reg s := by
  rcases hmatches with ⟨n, hn, hkind, -⟩
  cases n with
  | vreg reg =>
      have hreg := h.regs _ reg hn rfl
      exact h.keep hpattern hemit hn rfl trivial hreg (computes_vreg hn hreg)
  | _ => cases hkind

theorem var (h : Applies t a k₀ table fuel id .mem r s) (hpattern : r.pattern = .leaf .var)
    (hemit : r.emit = slot) (hmatches : (Pattern.leaf .var).Matches a table.Records id) :
    Succeeds t a k₀ (fuel + 1) id .mem s := by
  rcases hmatches with ⟨n, hn, hkind, -⟩
  cases n with
  | var v =>
      have husable : Operand.Usable s.nextReg (.mem (.frame v.offset)) := trivial
      refine h.appended hpattern hn (.inl rfl) rfl (.refl s) (fun R => ?_) husable
        (computes_var hn)
      rw [hemit]
      exact run_slot (h.get? hn)
  | _ => cases hkind

theorem mem (h : Applies t a k₀ table fuel id .mem r s) (hpattern : r.pattern = .leaf .mem)
    (hemit : r.emit = .keep) (hmatches : (Pattern.leaf .mem).Matches a table.Records id) :
    Succeeds t a k₀ (fuel + 1) id .mem s := by
  rcases hmatches with ⟨n, hn, hkind, -⟩
  cases n with
  | mem addr =>
      have husable : Operand.Usable k₀ (.mem addr) := by
        rcases addr with ⟨base, disp⟩
        cases base with
        | reg reg => exact h.regs _ reg hn rfl
        | _ => trivial
      exact h.keep hpattern hemit hn rfl ⟨_, hn, .inr (.inl rfl)⟩ husable (computes_mem hn husable)
  | _ => cases hkind

theorem framePointer (h : Applies t a k₀ table fuel id .reg r s)
    (hpattern : r.pattern = .leaf .framePointer) (hemit : r.emit = X64.framePointer)
    (hmatches : (Pattern.leaf .framePointer).Matches a table.Records id) :
    Succeeds t a k₀ (fuel + 1) id .reg s := by
  rcases hmatches with ⟨n, hn, hkind, -⟩
  cases n with
  | framePointer =>
      refine h.leafLeaving hpattern hn (fun R s _ => ?_)
        fun d => computes_framePointer hn (Nat.le_refl d.index)
      rw [hemit]
      exact run_framePointer
  | _ => cases hkind

theorem addrOf (h : Applies t a k₀ table fuel id .reg r s) (hpattern : r.pattern = .leaf .addrOf)
    (hemit : r.emit = addressOf) (hmatches : (Pattern.leaf .addrOf).Matches a table.Records id) :
    Succeeds t a k₀ (fuel + 1) id .reg s := by
  rcases hmatches with ⟨n, hn, hkind, -⟩
  cases n with
  | addrOf v =>
      refine h.leafLeaving hpattern hn (fun R s hn' => ?_)
        fun d => computes_addrOf hn (Nat.le_refl d.index)
      rw [hemit]
      exact run_addressOf hn'
  | _ => cases hkind

theorem unary (h : Applies t a k₀ table fuel id .reg r s)
    (hpattern : r.pattern = .node .unary [.nt x]) (hemit : r.emit = X64.unary)
    (hmatches : (Pattern.node .unary [.nt x]).Matches a table.Records id) :
    Succeeds t a k₀ (fuel + 1) id .reg s := by
  rcases hmatches with ⟨n, hn, hkind, hall⟩
  cases n with
  | unary op c =>
      refine h.oneLeaving hpattern ⟨fun _ => rfl, fun _ _ => rfl⟩ hn hall.1
        (fun R s v o hn' ho => ?_) fun code k o d hx hfits hd ho => hx.unary hfits hn hd ho
      rw [hemit]
      exact run_unary hn' ho
  | _ => cases hkind

theorem signExtend (h : Applies t a k₀ table fuel id .reg r s)
    (hpattern : r.pattern = .node .signExtend [.nt x]) (hemit : r.emit = X64.signExtend)
    (hmatches : (Pattern.node .signExtend [.nt x]).Matches a table.Records id) :
    Succeeds t a k₀ (fuel + 1) id .reg s := by
  rcases hmatches with ⟨n, hn, hkind, hall⟩
  cases n with
  | signExtend c =>
      refine h.oneLeaving hpattern ⟨fun _ => rfl, fun _ _ => rfl⟩ hn hall.1
        (fun R s v o hn' ho => ?_) fun code k o d hx hfits hd _ => hx.signExtend hfits hn hd
      rw [hemit]
      exact run_signExtend hn' ho
  | _ => cases hkind

theorem binary (h : Applies t a k₀ table fuel id .reg r s)
    (hpattern : r.pattern = .node .binary [.reg, .nt y]) (hemit : r.emit = X64.binary)
    (hmatches : (Pattern.node .binary [.reg, .nt y]).Matches a table.Records id) :
    Succeeds t a k₀ (fuel + 1) id .reg s := by
  rcases hmatches with ⟨n, hn, hkind, hall⟩
  cases n with
  | binary op c c' =>
      refine h.twoLeaving hpattern
        ⟨fun _ _ => rfl, fun _ _ _ => rfl, fun _ _ _ => rfl⟩ hn hall.1 hall.2.1
        (fun R s v v' o o' hn' ho ho' => ?_)
        fun code code' k k' o o' d hoperands hd _ ho' => hoperands.binary hn hd ho'
      rw [hemit]
      exact run_binary hn' ho ho'
  | _ => cases hkind

theorem compare (h : Applies t a k₀ table fuel id .reg r s)
    (hpattern : r.pattern = .node .compare [.reg, .nt y]) (hemit : r.emit = X64.compare)
    (hmatches : (Pattern.node .compare [.reg, .nt y]).Matches a table.Records id) :
    Succeeds t a k₀ (fuel + 1) id .reg s := by
  rcases hmatches with ⟨n, hn, hkind, hall⟩
  cases n with
  | compare op c c' =>
      refine h.twoLeaving hpattern
        ⟨fun _ _ => rfl, fun _ _ _ => rfl, fun _ _ _ => rfl⟩ hn hall.1 hall.2.1
        (fun R s v v' o o' hn' ho ho' => ?_)
        fun code code' k k' o o' d hoperands hd ho ho' => hoperands.compare hn hd ho ho'
      rw [hemit]
      exact run_compare hn' ho ho'
  | _ => cases hkind

/-- Whatever rule is recorded, it succeeds. -/
theorem rule {base : Nat} (h : Applies t a k₀ table fuel id r.result r s) (hr : r ∈ rules)
    (hcall : ∀ n, a.get? id = some n → n.kind ≠ .call)
    (hbase : r.cost.base? a id = .ok (some base))
    (hmatches : r.pattern.Matches a table.Records id) :
    Succeeds t a k₀ (fuel + 1) id r.result s := by
  rcases r with ⟨name, p, x, cost, emit⟩
  cases form hr with
  | literal => exact h.immLiteral rfl rfl hmatches
  | wideLiteral => exact h.wideLiteral rfl rfl hmatches
  | load hy => exact h.chainCopy rfl rfl hy hmatches
  | vreg => exact h.vreg rfl rfl hmatches
  | mem => exact h.mem rfl rfl hmatches
  | slot => exact h.var rfl rfl hmatches
  | framePointer => exact h.framePointer rfl rfl hmatches
  | addressOf => exact h.addrOf rfl rfl hmatches
  | unary => exact h.unary rfl rfl hmatches
  | binary => exact h.binary rfl rfl hmatches
  | compare => exact h.compare rfl rfl hmatches
  | logical =>
      rcases hmatches with ⟨n, hn, hkind, hall⟩
      cases n with
      | logical op c c' => exact h.logical rfl rfl hn hall.1 hall.2.1
      | _ => cases hkind
  | signExtend => exact h.signExtend rfl rfl hmatches
  | grouping =>
      rcases hmatches with ⟨n, hn, hkind, hall⟩
      cases n with
      | grouping c => exact h.grouping rfl rfl hn hall.1
      | _ => cases hkind
  | deref =>
      rcases hmatches with ⟨n, hn, hkind, hall⟩
      cases n with
      | deref c => exact h.deref rfl rfl hn hall.1
      | _ => cases hkind
  | derefFolded =>
      rcases hmatches with ⟨n, hn, hkind, hall⟩
      cases n with
      | deref sum =>
          rcases hall.1 with ⟨m, hm, hkind', hall'⟩
          cases m with
          | binary op c c' =>
              rcases of_foldedDeref hn hm hbase with ⟨hop, value, disp, hvalue, hdisp⟩
              exact h.derefFolded rfl rfl hn hm hall'.1 hall'.2.1 hvalue hop hdisp
          | _ => cases hkind'
      | _ => cases hkind
  | store =>
      rcases hmatches with ⟨n, hn, hkind, hall⟩
      cases n with
      | assign c c' => exact h.store rfl rfl hn hall.1 hall.2.1
      | _ => cases hkind
  | call =>
      rcases hmatches with ⟨n, hn, hkind, -⟩
      exact absurd hkind (hcall n hn)

end Applies

end X64
end Codegen
