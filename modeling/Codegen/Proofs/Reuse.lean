import Codegen.Proofs.Completeness
import Codegen.Proofs.Production
import Codegen.Proofs.Splicing

/-!
# Reuse — selecting instructions where nodes are shared

A node that two slots lead to is labeled and reduced twice, the second time with the labels and the
slots that the first time left behind.  Whatever comes of it, a reduction that succeeds has gone
through the whole tree of its node.  A call argument is labeled only when its turn has come, and if
its slots lead to new nodes by then, labeling it fails; so they must not, and they do not if no
inner node of an argument can be reached in two ways.

* `Arena.Lone`          : what may not be shared
* `X64.Consistent`      : what is known of the state at any time
* `X64.Reduced`         : what a successful reduction leaves
* `X64.bindSubs_reuses` : binding the children of a node
* `X64.emit_finishes`   : the procedures of the rules, but for that of calls
-/

namespace Codegen

/-! ## Arenas -/

namespace Arena

variable {a b b' b'' : Arena} {id c c' m : NodeId} {n : Node} {i j : Nat}
  {touched touched' : NodeId → Prop}

/-- From `b` to `b'` nodes may be appended; those that were there and are not touched are the
same. -/
structure Spares (touched : NodeId → Prop) (b b' : Arena) : Prop where
  size : b.size ≤ b'.size
  same : ∀ m < b.size, ¬ touched m → b'.get? m = b.get? m

namespace Spares

theorem refl (b : Arena) : Spares touched b b := ⟨Nat.le_refl _, fun _ _ _ => rfl⟩

theorem trans (h : Spares touched b b') (h' : Spares touched b' b'') : Spares touched b b'' where
  size := h.size.trans h'.size
  same m hm hnot :=
    (h'.same m (Nat.lt_of_lt_of_le hm h.size) hnot).trans (h.same m hm hnot)

theorem mono (hsub : ∀ m, touched m → touched' m) (h : Spares touched b b') :
    Spares touched' b b' :=
  ⟨h.size, fun m hm hnot => h.same m hm fun htouched => hnot (hsub m htouched)⟩

theorem push (b : Arena) (n : Node) : Spares touched b (b.push n) where
  size := by
    rw [size_push]
    exact Nat.le_succ _
  same m hm _ := by
    rw [get?_push, if_neg (Nat.ne_of_lt hm)]

theorem set (b : Arena) (id : NodeId) (n : Node) : Spares (· = id) b (b.set id n) where
  size := by rw [size_set]
  same _ _ hne := get?_set_of_ne b hne n

end Spares

/-- An inner node below `id` that a way through a call leads to is reached in no other way. -/
def Lone (a : Arena) (id : NodeId) : Prop :=
  ∀ v w m n, a.Path Node.links id v m → a.Path Node.links id w m → .kind .call ∈ v →
    a.get? m = some n → n.children ≠ [] → v = w

theorem Lone.of_below (h : a.Lone id) (hc : a.Below Node.links id c) : a.Lone c := by
  rcases hc with ⟨u, hu⟩
  intro v w m n hv hw hcall hn hinner
  exact List.append_cancel_left (h (u ++ v) (u ++ w) m n (hu.append hv) (hu.append hw)
    (List.mem_append_right u hcall) hn hinner)

/-- The nodes in call arguments below `id` are as they were. -/
def Untouched (a b : Arena) (id : NodeId) : Prop :=
  ∀ w m, a.Path Node.links id w m → .kind .call ∈ w → b.get? m = a.get? m

theorem Untouched.of_below (h : a.Untouched b id) (hc : a.Below Node.links id c) :
    a.Untouched b c := by
  rcases hc with ⟨u, hu⟩
  intro w m hw hcall
  exact h (u ++ w) m (hu.append hw) (List.mem_append_right u hcall)

/-- A slot of the node holds an operand. -/
def OperandAt (b : Arena) (id : NodeId) (slot : Nat) : Prop :=
  ∃ n v, b.get? id = some n ∧ n.children[slot]? = some v ∧ (b.operand? v).isSome

theorem Alike.untouched (h : Alike Node.links a b id) : a.Untouched b id :=
  fun w m hw _ => h m ⟨w, hw⟩

end Arena

namespace X64

variable {a b b' : Arena} {id c c' m root : NodeId} {n : Node} {i j : Nat}
  {allowed : Failure → Prop} {s s' : Selection}

/-- While what hangs in one slot is reduced, the inner nodes below another one that are in call
arguments are not touched; and a leaf never is. -/
theorem Spliced.get?_sibling (h : Spliced a b') (hdag : a.IsDag Node.links id)
    (hlone : a.Lone id) (hn : a.get? id = some n) (hc : n.links[i]? = some c)
    (hc' : n.links[j]? = some c') (hne : i ≠ j)
    (hspares : Arena.Spares (fun m => m = id ∨ a.Below Node.links c m) b b')
    (hsize : a.size ≤ b.size) {w : List Symbol} (hw : a.Path Node.links c' w m)
    (hcall : .kind .call ∈ .kind n.kind :: .child j :: w) (hm : b.get? m = a.get? m) :
    b'.get? m = a.get? m := by
  have hbelow : a.Below Node.links id m := ⟨_, .step hn hc' hw⟩
  rcases (hdag.of_below hbelow).exists_get? with ⟨k, hk⟩
  by_cases hinner : k.children = []
  · rw [hk]
    exact h.leaf hk hinner
  · rw [← hm]
    refine hspares.same m (Nat.lt_of_lt_of_le (hdag.inside m hbelow) hsize) ?_
    rintro (rfl | ⟨v, hv⟩)
    · exact hdag.not_below_child hn hc' ⟨w, hw⟩
    · -- there would be a second way to the node, through the first slot
      have hways := hlone _ _ m k (.step hn hc' hw) (.step hn hc hv) hcall hk hinner
      simp only [List.cons.injEq, Symbol.child.injEq, true_and] at hways
      exact hne hways.1.symm

/-! ## States -/

/-- What is known of the state while the tree of `root` is selected, `a` being the arena at the
start. -/
structure Consistent (a : Arena) (root : NodeId) (s : Selection) : Prop where
  arena : Spliced a s.arena
  table : Trusted a root s.table

/-- It is allowed to fail because a node has no label that was appended after the tree was
labeled. -/
def Lenient (allowed : Failure → Prop) (a : Arena) : Prop :=
  ∀ m, a.size ≤ m → allowed (.fault (.outsideTable m))

/-- The failures that are allowed: errors, and missing labels unless inner nodes in call arguments
are not shared. -/
structure Admits (allowed : Failure → Prop) (a : Arena) (root : NodeId) : Prop where
  error : ∀ e, allowed (.error e)
  fault : Lenient allowed a ∨ a.Lone root

/-- Labeling the call arguments below `id` cannot fail, or may. -/
def Safe (allowed : Failure → Prop) (a b : Arena) (id : NodeId) : Prop :=
  Lenient allowed a ∨ a.Untouched b id

/-- Labeling the tree of `id` cannot fail, or may. -/
def Fresh (allowed : Failure → Prop) (a b : Arena) (id : NodeId) : Prop :=
  Lenient allowed a ∨ a.Alike Node.links b id

theorem Safe.of_below (h : Safe allowed a b id) (hc : a.Below Node.links id c) :
    Safe allowed a b c :=
  h.imp_right fun huntouched => huntouched.of_below hc

theorem Fresh.safe (h : Fresh allowed a b id) : Safe allowed a b id :=
  h.imp_right Arena.Alike.untouched

/-! ## Labels -/

variable {t : Target} {fuel : Nat} {x : Nonterminal} {v : NodeId} {slot : Nat}

/-- Labels are only ever changed as a walk does, and a walk over nodes that are as they were comes
to an end without failing. -/
theorem relabel_finishes (hbuilt : t.Built) (hgrammar : t.grammar = grammar)
    (hdag : a.IsDag Node.links root) (hid : a.Below Node.links root id)
    (h : Consistent a root s) (hfresh : Fresh allowed a s.arena id) :
    Finishes allowed (fun _ s' => s'.arena = s.arena ∧ Consistent a root s')
      ((t.relabel id).run s) := by
  cases hrun : (t.label s.arena id).run ⟨s.table, s.trace⟩ with
  | ok _ l =>
      rw [Target.run_relabel_of_ok hrun]
      have hmoves := Target.moves_of_labelAt hrun
      exact ⟨rfl, h.arena, Trusted.moves hbuilt hgrammar hdag h.arena hmoves h.table⟩
  | error f l =>
      rw [Target.run_relabel_of_error hrun]
      have hdag' := h.arena.isDag (hdag.of_below hid)
      have htotal : t.grammar.Total s.arena id := by
        rw [hgrammar]
        exact total hdag'
      -- a walk over spliced nodes may come to one without a label, but not over the nodes of `a`
      rcases hfresh with hlenient | halike
      · have hends := Target.label_ends hdag' htotal ⟨s.table, s.trace⟩
        rw [hrun] at hends
        rcases hends with ⟨m, rfl, hnone⟩
        refine hlenient m (Nat.not_lt.1 fun hm => ?_)
        have hsome := (h.table.label m).2 hm
        rw [hnone] at hsome
        cases hsome
      · have hcovered : Target.Covered (s.arena.Below Node.children id) s.table := by
          intro m hm
          have hm := halike.below_iff.1 hm.toLinks
          exact Option.isSome_iff_exists.1
            ((h.table.label m).2 (hdag.inside m (hid.trans hm)))
        rcases Target.label_moves hdag' htotal (l := ⟨s.table, s.trace⟩) hcovered with
          ⟨l', hrun', -⟩
        cases hrun.symm.trans hrun'

/-- Nothing is recorded for a node that was appended. -/
theorem Trusted.best_new {table : LabelTable} (h : Trusted a root table) (hv : a.size ≤ v) :
    table.best v x = none := by
  have hlabel : table.label? v = none := by
    rw [← Option.not_isSome_iff_eq_none]
    exact fun hsome => Nat.not_lt.2 hv ((h.label v).1 hsome)
  rw [LabelTable.best, hlabel]
  rfl

/-! ## Values -/

/-- The node `v` stands for the value of `id`, and nothing but `touched` nodes was changed. -/
structure Valued (a : Arena) (root : NodeId) (touched : NodeId → Prop) (s : Selection)
    (id v : NodeId) (s' : Selection) : Prop where
  consistent : Consistent a root s'
  spares : s.arena.Spares touched s'.arena
  operand : (s'.arena.operand? v).isSome
  owns : Owns a id v

/-- Moreover the tree of `id` has been gone through. -/
structure Reduced (a : Arena) (root : NodeId) (s : Selection) (id : NodeId) (x : Nonterminal)
    (v : NodeId) (s' : Selection) : Prop
    extends Valued a root (a.Below Node.links id) s id v s' where
  clear : a.Clear id
  place : x = .mem → ∃ n, a.get? id = some n ∧ n.kind.IsPlace

/-- Reducing `id` to any nonterminal ends so, or in an allowed failure. -/
def Reuses (t : Target) (allowed : Failure → Prop) (a : Arena) (root : NodeId) (fuel : Nat)
    (id : NodeId) : Prop :=
  ∀ x s, Consistent a root s → Safe allowed a s.arena id →
    Finishes allowed (Reduced a root s id x) ((t.reduce fuel id x).run s)

/-- What a slot holds is reduced, be it the child that was there from the beginning or a node for
its value. -/
theorem reduceSlot_finishes (herror : ∀ e, allowed (.error e)) (hfuel : 0 < fuel)
    (hreuses : ∀ m, a.Below Node.links c m → Reuses t allowed a root fuel m)
    (htarget : n.kind = .assign → slot = 0 → x = .mem) (h : Consistent a root s)
    (hsafe : Safe allowed a s.arena c) (hfills : Fills a s.arena n slot c v) :
    Finishes allowed (fun u s' => Valued a root (a.Below Node.links c) s c u s' ∧ Done a n slot c)
      ((t.reduce fuel v x).run s) := by
  cases hfills with
  | child =>
      refine (hreuses c (.refl c) x s h hsafe).mono ?_
      intro u s' hreduced
      exact ⟨hreduced.toValued, hreduced.clear,
        fun hassign hslot => hreduced.place (htarget hassign hslot)⟩
  | value hoperand howns hdone =>
      -- a value that is a node of `a` is reduced again; one that was appended has no label
      rcases howns with hbelow | hnew
      · refine (hreuses v hbelow x s h (hsafe.of_below hbelow)).mono ?_
        intro u s' hreduced
        exact ⟨⟨hreduced.consistent, hreduced.spares.mono fun m hm => hbelow.trans hm,
          hreduced.operand, hreduced.owns.of_below hbelow⟩, hdone⟩
      · rcases Option.isSome_iff_exists.1 hoperand with ⟨o, ho⟩
        rcases Option.bind_eq_some_iff.1 ho with ⟨n', hn', -⟩
        rcases Nat.exists_eq_succ_of_ne_zero (Nat.ne_of_gt hfuel) with ⟨fuel, rfl⟩
        rw [Target.run_reduce_none (h.table.best_new hnew) hn']
        exact herror _

/-- The slot is pointed to the node that stands for the value. -/
theorem setChild_finishes (hn : a.get? id = some n) (hc : n.children[slot]? = some c)
    (hvalued : Valued a root (a.Below Node.links c) s c v s') (hdone : Done a n slot c) :
    Finishes allowed
      (fun _ s'' => Consistent a root s'' ∧
        s.arena.Spares (fun m => m = id ∨ a.Below Node.links c m) s''.arena ∧
        s''.arena.OperandAt id slot)
      ((SelectM.setChild id slot v).run s') := by
  -- other slots of the node may have been pointed elsewhere, but their number is the same
  have hspliced := hvalued.consistent.arena
  rcases hspliced.exists_node hn with ⟨n₁, hn₁, hkind, -⟩
  have hlen : slot < n₁.children.length := by
    rw [Node.children_of_kind hkind]
    exact (List.getElem?_eq_some_iff.1 hc).1
  have hset : ∃ n₂, n₁.setChild? slot v = some n₂ := by
    rw [← Option.isSome_iff_exists, Node.isSome_setChild?]
    exact decide_eq_true hlen
  rcases hset with ⟨n₂, hset⟩
  have hspliced' := hspliced.splice hn hn₁ hset hc hvalued.operand hvalued.owns hdone
  have hid := Arena.lt_size hn
  rw [SelectM.run_setChild hn₁ hset]
  refine ⟨⟨hspliced', hvalued.consistent.table⟩, ?_, n₂, v,
    Arena.get?_set_self (Nat.lt_of_lt_of_le hid hspliced.size) n₂, ?_, ?_⟩
  · exact (hvalued.spares.mono fun m hm => .inr hm).trans
      ((Arena.Spares.set s'.arena id n₂).mono fun m hm => .inl hm)
  · rw [Node.children_setChild? hset, List.getElem?_set_self hlen]
  · rcases Option.isSome_iff_exists.1 hvalued.operand with ⟨o, ho⟩
    refine Option.isSome_of_eq_some (hspliced.operand?_mono hspliced' ?_ ho)
    intro m hm _
    exact Arena.get?_set_of_ne _ (Nat.ne_of_gt (Nat.lt_of_lt_of_le hid hm)) n₂

/-! ## Bound children -/

/-- Nothing is bound below a node without children. -/
theorem bindSubs_leaf (herror : ∀ e, allowed (.error e))
    (reduce : NodeId → Nonterminal → SelectM NodeId) (rule : String) (ps : List Pattern)
    (hn : s.arena.get? v = some n) (hchildren : n.children = []) :
    Finishes allowed (fun _ s' => s' = s) ((Target.bindSubs reduce rule ps v 0).run s) := by
  cases ps with
  | nil =>
      rw [Target.bindSubs]
      exact rfl
  | cons p ps =>
      have hbound := Target.boundChild_finishes herror rule 0 hn
      rw [hchildren] at hbound
      rw [Target.bindSubs]
      -- either way the first step is to look for a child
      cases p <;>
      · rw [Target.bindSub, bind_assoc]
        refine hbound.bind ?_
        rintro child _ ⟨-, hchild⟩
        cases hchild

/-- The children in the slots of `id` from `slot` on have been reduced. -/
structure Rebound (a : Arena) (root : NodeId) (n : Node) (id : NodeId) (slot : Nat)
    (cs : List NodeId) (s s' : Selection) : Prop where
  consistent : Consistent a root s'
  spares : s.arena.Spares (fun m => m = id ∨ ∃ c ∈ cs, a.Below Node.links c m) s'.arena
  done : ∀ i c, cs[i]? = some c → Done a n (slot + i) c

theorem Rebound.single (h : Consistent a root s')
    (hspares : s.arena.Spares (fun m => m = id ∨ a.Below Node.links c m) s'.arena)
    (hdone : Done a n slot c) : Rebound a root n id slot [c] s s' where
  consistent := h
  spares := hspares.mono fun _ => Or.imp_right fun hm => ⟨c, List.mem_singleton_self c, hm⟩
  done i c' hc' := by
    cases i with
    | zero =>
        cases hc'
        exact hdone
    | succ i => cases hc'

/-- One child, then the others. -/
theorem Rebound.cons {cs : List NodeId} {s'' : Selection}
    (h : Rebound a root n id slot [c] s s') (h' : Rebound a root n id (slot + 1) cs s' s'') :
    Rebound a root n id slot (c :: cs) s s'' where
  consistent := h'.consistent
  spares := by
    refine (h.spares.mono ?_).trans (h'.spares.mono ?_)
    · rintro m (hm | ⟨c', hc', hm⟩)
      · exact .inl hm
      · rw [List.mem_singleton] at hc'
        exact .inr ⟨c, List.mem_cons_self, hc' ▸ hm⟩
    · rintro m (hm | ⟨c', hc', hm⟩)
      · exact .inl hm
      · exact .inr ⟨c', List.mem_cons_of_mem c hc', hm⟩
  done i c' hc' := by
    cases i with
    | zero => exact h.done 0 c' hc'
    | succ i =>
        rw [← Nat.add_assoc, Nat.add_right_comm]
        exact h'.done i c' hc'

theorem Rebound.clear (h : Rebound a root n id 0 n.children s s') (hn : a.get? id = some n)
    (hcall : n.kind ≠ .call) : a.Clear id := by
  refine clear_of_done hn hcall fun i c hc => ?_
  have hdone := h.done i c hc
  rwa [Nat.zero_add] at hdone

/-- Other children stay safe while one is reduced. -/
theorem Safe.sibling (h : Safe allowed a b c') (hspliced : Spliced a b')
    (hdag : a.IsDag Node.links id) (hlone : Lenient allowed a ∨ a.Lone id)
    (hn : a.get? id = some n) (hc : n.links[i]? = some c) (hc' : n.links[j]? = some c')
    (hne : i ≠ j) (hsize : a.size ≤ b.size)
    (hspares : Arena.Spares (fun m => m = id ∨ a.Below Node.links c m) b b') :
    Safe allowed a b' c' := by
  rcases h with hlenient | huntouched
  · exact .inl hlenient
  · refine hlone.imp_right fun hlone => ?_
    intro w m hw hcall
    exact hspliced.get?_sibling hdag hlone hn hc hc' hne hspares hsize hw
      (List.mem_cons_of_mem _ (List.mem_cons_of_mem _ hcall)) (huntouched w m hw hcall)

mutual

/-- What a sub-pattern binds in one slot of a node is reduced. -/
theorem bindSub_reuses {top : NodeId} (herror : ∀ e, allowed (.error e)) (hfuel : 0 < fuel)
    (hdag : a.IsDag Node.links top) (hlone : Lenient allowed a ∨ a.Lone top)
    (hreuses : ∀ w m, a.Path Node.links top w m → w ≠ [] → Reuses t allowed a root fuel m)
    (rule : String) : (p : Pattern) → p.avoids .assign = true → p.avoids .call = true →
    {id c : NodeId} → {n : Node} → {slot : Nat} → {s : Selection} → a.Below Node.links top id →
    a.get? id = some n → n.children[slot]? = some c →
    (n.kind = .assign → slot = 0 → p = .mem) → p.Matches a (fun _ _ => True) c →
    Consistent a root s → Safe allowed a s.arena c →
    Finishes allowed
      (fun _ s' => Rebound a root n id slot [c] s s' ∧
        ∀ y, p = .nt y → s'.arena.OperandAt id slot)
      ((Target.bindSub (t.reduce fuel) rule p id slot).run s)
  | .nt x, _, _, id, c, n, slot, s, ⟨u, hu⟩, hn, hc, htarget, _, h, hsafe => by
      rcases h.arena.exists_slot hn hc with ⟨n', v, hn', hv, hfills⟩
      have hbelow : ∀ m, a.Below Node.links c m → Reuses t allowed a root fuel m := by
        rintro m ⟨w, hw⟩
        exact hreuses _ m (hu.append (.step hn (Node.links_of_children hc) hw)) (by simp)
      have hmem : n.kind = .assign → slot = 0 → x = .mem := by
        intro hassign hslot
        cases htarget hassign hslot
        rfl
      rw [Target.bindSub, run_bind_of_ok (Target.run_boundChild hn' hv)]
      refine (reduceSlot_finishes herror hfuel hbelow hmem h hsafe hfills).bind ?_
      rintro u s₁ ⟨hvalued, hdone⟩
      refine (setChild_finishes hn hc hvalued hdone).mono ?_
      rintro _ s' ⟨hconsistent, hspares, hoperand⟩
      exact ⟨.single hconsistent hspares hdone, fun _ _ => hoperand⟩
  | .node kind subs, hassign, hcall, id, c, n, slot, s, hid, hn, hc, htarget, ⟨m, hm, hkind, hall⟩,
      h, hsafe => by
      rw [Pattern.avoids, Bool.and_eq_true, decide_eq_true_eq] at hassign hcall
      rcases h.arena.exists_slot hn hc with ⟨n', v, hn', hv, hfills⟩
      rw [Target.bindSub, run_bind_of_ok (Target.run_boundChild hn' hv)]
      cases hfills with
      | child =>
          have hchild : a.Below Node.links id c := .child hn (Node.links_of_children hc)
          have hbelow : ∀ c' ∈ m.children, a.Below Node.links c c' :=
            fun c' hc' => (Arena.Below.of_mem hm hc').toLinks
          have hnone : m.kind = .assign → 0 = 0 → subs.head? = some .mem :=
            fun heq => absurd (hkind.symm.trans heq) hassign.1
          refine (bindSubs_reuses herror hfuel hdag hlone hreuses rule subs hassign.2 hcall.2
            (hid.trans hchild) hm (List.nil_append _).symm List.length_nil hnone hall h
            fun c' hc' => hsafe.of_below (hbelow c' hc')).mono ?_
          rintro _ s' ⟨hrebound, -⟩
          refine ⟨.single hrebound.consistent (hrebound.spares.mono ?_) ⟨?_, ?_⟩, nofun⟩
          · rintro k (rfl | ⟨c', hc', hk⟩)
            · exact .inr (.refl k)
            · exact .inr ((hbelow c' hc').trans hk)
          · exact hrebound.clear hm (by rw [hkind]; exact hcall.1)
          · intro heq hslot
            cases htarget heq hslot
      | value hoperand howns hdone =>
          -- the slot led to another node when its rule was recorded; now there is nothing to bind
          rcases Option.isSome_iff_exists.1 hoperand with ⟨o, ho⟩
          rcases Option.bind_eq_some_iff.1 ho with ⟨k, hk, hk'⟩
          refine (bindSubs_leaf herror _ rule subs hk (Node.children_of_operand? hk')).mono ?_
          rintro _ _ rfl
          exact ⟨.single h (.refl _) hdone, nofun⟩

/-- What the sub-patterns bind from a slot on is reduced. -/
theorem bindSubs_reuses {top : NodeId} (herror : ∀ e, allowed (.error e)) (hfuel : 0 < fuel)
    (hdag : a.IsDag Node.links top) (hlone : Lenient allowed a ∨ a.Lone top)
    (hreuses : ∀ w m, a.Path Node.links top w m → w ≠ [] → Reuses t allowed a root fuel m)
    (rule : String) : (ps : List Pattern) → Pattern.avoidsAll .assign ps = true →
    Pattern.avoidsAll .call ps = true → {id : NodeId} → {n : Node} → {slot : Nat} →
    {before rest : List NodeId} → {s : Selection} → a.Below Node.links top id →
    a.get? id = some n → n.children = before ++ rest → before.length = slot →
    (n.kind = .assign → slot = 0 → ps.head? = some .mem) →
    Pattern.MatchesAll a (fun _ _ => True) ps rest → Consistent a root s →
    (∀ c ∈ rest, Safe allowed a s.arena c) →
    Finishes allowed
      (fun _ s' => Rebound a root n id slot rest s s' ∧ (ps = [] → s' = s) ∧
        ∀ y, ps = [.nt y] → s'.arena.OperandAt id slot)
      ((Target.bindSubs (t.reduce fuel) rule ps id slot).run s)
  | [], _, _, id, n, slot, before, [], s, _, _, _, _, _, _, h, _ => by
      rw [Target.bindSubs]
      exact ⟨⟨h, .refl _, nofun⟩, fun _ => rfl, nofun⟩
  | p :: ps, hassign, hcall, id, n, slot, before, c :: rest, s, hid, hn, hchildren, hslot, htarget,
      ⟨hfirst, hrest⟩, h, hsafe => by
      rw [Pattern.avoidsAll, Bool.and_eq_true] at hassign hcall
      have hslots : ∀ (i : Nat) (c' : NodeId), (c :: rest)[i]? = some c' →
          n.children[slot + i]? = some c' := by
        intro i c' hc'
        rw [hchildren, ← hslot, List.getElem?_append_right (Nat.le_add_right _ _),
          Nat.add_sub_cancel_left]
        exact hc'
      have hmem : n.kind = .assign → slot = 0 → p = .mem :=
        fun heq hzero => Option.some.inj (htarget heq hzero)
      rw [Target.bindSubs]
      refine (bindSub_reuses herror hfuel hdag hlone hreuses rule p hassign.1 hcall.1 hid hn
        (hslots 0 c rfl) hmem hfirst h (hsafe c List.mem_cons_self)).bind ?_
      rintro _ s₁ ⟨hrebound, hoperand⟩
      -- the nodes touched so far are `id` and those below the first child
      have hsafe₁ : ∀ c' ∈ rest, Safe allowed a s₁.arena c' := by
        intro c' hc'
        rcases List.mem_iff_getElem?.1 hc' with ⟨i, hi⟩
        refine (hsafe c' (List.mem_cons_of_mem c hc')).sibling hrebound.consistent.arena
          (hdag.of_below hid) (hlone.imp_right fun hlone => hlone.of_below hid) hn
          (Node.links_of_children (hslots 0 c rfl))
          (Node.links_of_children (hslots (i + 1) c' hi)) (by omega) h.arena.size
          (hrebound.spares.mono ?_)
        rintro m (hm | ⟨c'', hc'', hm⟩)
        · exact .inl hm
        · rw [List.mem_singleton] at hc''
          exact .inr (hc'' ▸ hm)
      have hchildren₁ : n.children = (before ++ [c]) ++ rest := by
        rw [hchildren, List.append_assoc, List.singleton_append]
      refine (bindSubs_reuses herror hfuel hdag hlone hreuses rule ps hassign.2 hcall.2 hid hn
        hchildren₁ (by simp [hslot]) (fun _ hzero => absurd hzero (Nat.succ_ne_zero slot)) hrest
        hrebound.consistent hsafe₁).mono ?_
      rintro _ s' ⟨hrebound', hnone, -⟩
      refine ⟨hrebound.cons hrebound', nofun, ?_⟩
      -- after the only sub-pattern nothing more happens to its slot
      rintro y hy
      cases hy
      cases hnone rfl
      exact hoperand y rfl

end

/-! ## Procedures -/

/-- A location that is appended stands for any node. -/
theorem valued_of_produces (h : s.Produces v s') (hs : Consistent a root s)
    (touched : NodeId → Prop) (id : NodeId) : Valued a root touched s id v s' := by
  rcases h.arena with ⟨n, hlocation, harena⟩
  have hspares : s.arena.Spares touched s'.arena := by
    rw [harena]
    exact .push _ n
  refine ⟨⟨hs.arena.appended hspares.size ?_, ?_⟩, hspares, ?_, ?_⟩
  · intro m hm
    rw [harena, Arena.get?_push, if_neg (Nat.ne_of_lt hm)]
  · rw [h.table]
    exact hs.table
  · rw [Arena.operand?, harena, h.value, Arena.get?_push, if_pos rfl]
    exact Node.isSome_operand? hlocation
  · rw [h.value]
    exact .inr hs.arena.size

section Values

open SelectM

variable (R : Reducer) {touched : NodeId → Prop} (h : Consistent a root s)
  (hn : a.get? id = some n)
include h hn

/-- A node that is an operand stands for itself. -/
theorem keep_finishes (ho : n.operand?.isSome) :
    Finishes allowed (Valued a root touched s id) ((Emission.keep R id).run s) := by
  rcases Option.isSome_iff_exists.1 ho with ⟨o, ho'⟩
  refine ⟨h, .refl _, ?_, .inl (.refl id)⟩
  rw [Arena.operand?, h.arena.leaf hn (Node.children_of_operand? ho')]
  exact ho

theorem inner_finishes (hoperand : s.arena.OperandAt id 0) :
    Finishes allowed (Valued a root touched s id) ((inner R id).run s) := by
  rcases hoperand with ⟨n', v, hn', hv, ho⟩
  rw [run_inner hn' hv]
  exact ⟨h, .refl _, ho, h.arena.owns_slot hn hn' hv⟩

theorem store_finishes (herror : ∀ e, allowed (.error e)) (hid : s.arena.Inside id) :
    Finishes allowed (Valued a root touched s id) ((store R id).run s) := by
  refine ((store_attempts R).finishes herror hid).mono ?_
  rintro v _ ⟨i, n', rfl, hn', hv, ho⟩
  exact ⟨⟨h.arena, h.table⟩, .refl _, ho, h.arena.owns_slot hn hn' hv⟩

end Values

/-- Every procedure but that for calls leaves a node for the value of the matched one. -/
theorem emit_finishes (herror : ∀ e, allowed (.error e)) (touched : NodeId → Prop) {r : Rule}
    (hr : r ∈ rules) {k : NodeKind} {subs : List Pattern} (hpattern : r.pattern = .node k subs)
    (hcall : k ≠ .call) (h : Consistent a root s) (hid : s.arena.Inside id)
    (hn : a.get? id = some n) (hkind : n.kind = k)
    (hoperand : ∀ y, subs = [.nt y] → s.arena.OperandAt id 0) (R : Reducer) :
    Finishes allowed (Valued a root touched s id) ((r.emit R id).run s) := by
  cases works hr with
  | keep hleaf =>
      cases hpattern
      refine keep_finishes R h hn ?_
      cases n <;> first
        | rfl
        | simp [← hkind, Node.kind] at hleaf
  | inner =>
      cases hpattern
      exact inner_finishes R h hn (hoperand _ rfl)
  | store => exact store_finishes R h hn herror hid
  | call =>
      cases hpattern
      exact absurd rfl hcall
  | produce hattempts =>
      refine ((hattempts R id s).finishes herror hid).mono fun v s' hproduces => ?_
      exact valued_of_produces hproduces h touched id

end X64
end Codegen
