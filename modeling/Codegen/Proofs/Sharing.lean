import Codegen.Proofs.Reuse

/-!
# Sharing — what can be selected where nodes are shared

Parts of a tree that are equal can be one node with several parents.  Where selecting succeeds then,
it does so for the tree without shared nodes as well.  The converse fails, for two reasons: a symbol
is fed to the automaton only when a cost falls, so that a second parent may not see what was
recorded for the first; and once a shared node has been reduced, its slots lead to nodes that have
no labels.  The second may even lead to a fault, but only in call arguments.  Neither matters where
only leaves are shared that have the same place in the arguments they are shared by.

* `X64.reduces_of_chain`       : reductions in arenas with shared nodes
* `Arena.Unshares`             : one node for each way
* `Target.selectRoot_shared`   : what is left of a selection if nodes are shared
-/

namespace Codegen
namespace X64

variable {a b b' : Arena} {id c c' root : NodeId} {n : Node} {i j : Nat} {t : Target}
  {fuel : Nat} {x : Nonterminal} {allowed : Failure → Prop} {s s' : Selection} {v : NodeId}

/-! ## Calls -/

/-- While one argument of a call is reduced, the others are not touched. -/
theorem Fresh.sibling (h : Fresh allowed a b c') (hspliced : Spliced a b')
    (hdag : a.IsDag Node.links id) (hlone : Lenient allowed a ∨ a.Lone id)
    (hn : a.get? id = some n) (hcall : n.kind = .call) (hc : n.links[i]? = some c)
    (hc' : n.links[j]? = some c') (hne : i ≠ j) (hsize : a.size ≤ b.size)
    (hspares : Arena.Spares (a.Below Node.links c) b b') : Fresh allowed a b' c' := by
  rcases h with hlenient | halike
  · exact .inl hlenient
  · refine hlone.imp_right fun hlone => ?_
    rintro m ⟨w, hw⟩
    refine hspliced.get?_sibling hdag hlone hn hc hc' hne (hspares.mono fun _ => .inr) hsize hw ?_
      (halike m ⟨w, hw⟩)
    rw [hcall]
    exact List.mem_cons_self

/-- An argument is labeled and reduced. -/
theorem select_finishes (hbuilt : t.Built) (hgrammar : t.grammar = grammar)
    (hdag : a.IsDag Node.links root) (hc : a.Below Node.links root c)
    (hreuses : Reuses t allowed a root fuel c) (h : Consistent a root s)
    (hfresh : Fresh allowed a s.arena c) :
    Finishes allowed (Reduced a root s c x) ((t.selectWith (t.reduce fuel) c x).run s) := by
  rcases Option.isSome_iff_exists.1 ((h.table.label c).2 (hdag.inside c hc)) with ⟨l, hl⟩
  rw [Target.selectWith, run_bind_of_ok (EStateM.run_get s)]
  simp only [LabelTable.covers_of_label? hl, if_true]
  refine (relabel_finishes hbuilt hgrammar hdag hc h hfresh).bind ?_
  rintro _ s₁ ⟨harena, h₁⟩
  have hsafe := hfresh.safe
  rw [← harena] at hsafe
  refine (hreuses x s₁ h₁ hsafe).mono ?_
  intro v s' hreduced
  have hspares := hreduced.spares
  rw [harena] at hspares
  exact { hreduced with spares := hspares }

/-- Its value can be read. -/
theorem argument_finishes (hbuilt : t.Built) (hgrammar : t.grammar = grammar)
    (hdag : a.IsDag Node.links root) (hc : a.Below Node.links root c)
    (hreuses : Reuses t allowed a root fuel c) (h : Consistent a root s)
    (hfresh : Fresh allowed a s.arena c) :
    Finishes allowed (fun _ s' => ∃ v, Reduced a root s c x v s')
      ((do SelectM.operand (← t.selectWith (t.reduce fuel) c x)).run s) := by
  refine (select_finishes hbuilt hgrammar hdag hc hreuses h hfresh).bind ?_
  intro v s' hreduced
  rcases Option.isSome_iff_exists.1 hreduced.operand with ⟨o, ho⟩
  rw [SelectM.run_operand ho]
  exact ⟨v, hreduced⟩

section

variable (hbuilt : t.Built) (hgrammar : t.grammar = grammar) (hdag : a.IsDag Node.links root)
  (hadmits : Admits allowed a root) (hid : a.Below Node.links root id)
include hbuilt hgrammar hdag hadmits hid

/-- Arguments are selected one after the other. -/
theorem selectAll_finishes {callee : String} {before rest : List NodeId}
    (hn : a.get? id = some (.call callee (before ++ rest)))
    (hreuses : ∀ c ∈ rest, Reuses t allowed a root fuel c) (h : Consistent a root s)
    (hfresh : ∀ c ∈ rest, Fresh allowed a s.arena c) :
    Finishes allowed
      (fun _ s' => Consistent a root s' ∧
        s.arena.Spares (fun m => ∃ c ∈ rest, a.Below Node.links c m) s'.arena ∧
        ∀ c ∈ rest, a.Clear c)
      ((rest.mapM fun arg => do
        SelectM.operand (← t.selectWith (t.reduce fuel) arg .reg)).run s) := by
  induction rest generalizing before s with
  | nil => exact ⟨h, .refl _, nofun⟩
  | cons c rest ih =>
      have hothers : ∀ c' ∈ rest, c' ∈ c :: rest := fun c' => List.mem_cons_of_mem c
      have hslots : ∀ (i : Nat) (c' : NodeId), (c :: rest)[i]? = some c' →
          (Node.call callee (before ++ c :: rest)).links[before.length + i]? = some c' := by
        intro i c' hc'
        rw [Node.links, List.getElem?_append_right (Nat.le_add_right _ _), Nat.add_sub_cancel_left]
        exact hc'
      have hc := hid.trans (.child hn (hslots 0 c rfl))
      rw [List.mapM_cons]
      refine (argument_finishes hbuilt hgrammar hdag hc (hreuses c List.mem_cons_self) h
        (hfresh c List.mem_cons_self)).bind ?_
      rintro o s₁ ⟨v, hreduced⟩
      have hn₁ : a.get? id = some (.call callee ((before ++ [c]) ++ rest)) := by
        rw [List.append_assoc, List.singleton_append]
        exact hn
      -- the other arguments have their turn later, and nothing has been spliced in them by then
      have hfresh₁ : ∀ c' ∈ rest, Fresh allowed a s₁.arena c' := by
        intro c' hc'
        rcases List.mem_iff_getElem?.1 hc' with ⟨i, hi⟩
        exact (hfresh c' (hothers c' hc')).sibling hreduced.consistent.arena (hdag.of_below hid)
          (hadmits.fault.imp_right fun hlone => hlone.of_below hid) hn rfl (hslots 0 c rfl)
          (hslots (i + 1) c' hi) (by omega) h.arena.size hreduced.spares
      refine (ih hn₁ (fun c' hc' => hreuses c' (hothers c' hc')) hreduced.consistent
        hfresh₁).bind ?_
      rintro os s₂ ⟨h₂, hspares, hclear⟩
      refine ⟨h₂, (hreduced.spares.mono fun m hm => ⟨c, List.mem_cons_self, hm⟩).trans
        (hspares.mono ?_), List.forall_mem_cons.2 ⟨hreduced.clear, hclear⟩⟩
      rintro m ⟨c', hc', hm⟩
      exact ⟨c', hothers c' hc', hm⟩

/-- A call goes through all its arguments. -/
theorem call_finishes {callee : String} {args : List NodeId}
    (hn : a.get? id = some (.call callee args))
    (hreuses : ∀ c ∈ args, Reuses t allowed a root fuel c) (h : Consistent a root s)
    (hsafe : Safe allowed a s.arena id) {R : Reducer}
    (hselect : R.select = t.selectWith (t.reduce fuel)) :
    Finishes allowed (Reduced a root s id .reg) ((call R id).run s) := by
  have hbelow : ∀ c ∈ args, a.Below Node.links id c :=
    fun c hc => .of_mem (n := .call callee args) hn hc
  -- all of an argument is inside a call
  have hfresh : ∀ c ∈ args, Fresh allowed a s.arena c := by
    intro c hc
    rcases List.mem_iff_getElem?.1 hc with ⟨slot, hslot⟩
    refine hsafe.imp_right ?_
    rintro huntouched m ⟨w, hw⟩
    exact huntouched _ m (.step (n := .call callee args) hn hslot hw) List.mem_cons_self
  have hargs : a.get? id = some (.call callee ([] ++ args)) := hn
  rw [call, run_bind_of_ok (SelectM.run_node (h.arena.leaf hn rfl))]
  dsimp only
  rw [hselect]
  refine (selectAll_finishes hbuilt hgrammar hdag hadmits hid hargs hreuses h hfresh).bind ?_
  rintro values s₁ ⟨h₁, hspares, hclear⟩
  rw [SelectM.run_leaving fun dst => callSequence callee values dst]
  have hproduces := Selection.Produces.leaving s₁ (callSequence callee values s₁.fresh)
  have hvalued := valued_of_produces hproduces h₁ (a.Below Node.links id) id
  refine { hvalued with
    spares := (hspares.mono ?_).trans hvalued.spares
    clear := ?_
    place := fun hmem => by cases hmem }
  · rintro m ⟨c, hc, hm⟩
    exact (hbelow c hc).trans hm
  · exact Arena.clear_of_links hn (fun hmisplaced => by cases hmisplaced.kind hn) hclear

end

/-! ## Reductions -/

variable {r : Rule}

/-- A chain rule copies the value that the node was reduced to before. -/
theorem copy_reduced (herror : ∀ e, allowed (.error e)) {y : Nonterminal}
    (hreduced : Reduced a root s id y v s') (hx : x ≠ .mem) (R : Reducer) (rule : String) :
    Finishes allowed (Reduced a root s id x) ((copy R v).run (s'.applied id x rule)) := by
  have hinside : (s'.applied id x rule).arena.Inside v :=
    Arena.inside_of_operand hreduced.operand
  have h : Consistent a root (s'.applied id x rule) :=
    ⟨hreduced.consistent.arena, hreduced.consistent.table⟩
  refine ((copy_attempts R).finishes herror hinside).mono ?_
  intro u s'' hproduces
  have hvalued := valued_of_produces hproduces h (a.Below Node.links id) id
  exact { hvalued with
    spares := hreduced.spares.trans hvalued.spares
    clear := hreduced.clear
    place := fun hmem => absurd hmem hx }

section

variable (hdag : a.IsDag Node.links root) (hadmits : Admits allowed a root)
  (hid : a.Below Node.links root id)
include hdag hadmits hid

/-- A rule for a node that is no call: its children are reduced, and then its procedure runs. -/
theorem node_reduced (hr : r ∈ rules) {k : NodeKind} {subs : List Pattern}
    (hpattern : r.pattern = .node k subs) (hcall : k ≠ .call)
    (hmatches : r.pattern.Matches a (fun _ _ => True) id) (hfuel : 0 < fuel)
    (hreuses : ∀ w m, a.Path Node.links id w m → w ≠ [] → Reuses t allowed a root fuel m)
    (h : Consistent a root s) (hsafe : Safe allowed a s.arena id) (R : Reducer) :
    Finishes allowed (Reduced a root s id r.result)
      ((do
        Target.bindSubs (t.reduce fuel) r.name subs id 0
        SelectM.log (.reduced id r.result r.name)
        SelectM.tally r.name
        r.emit R id).run s) := by
  rw [hpattern] at hmatches
  rcases hmatches with ⟨n, hn, hkind, hall⟩
  have havoids := rule_subs hr hpattern
  have hbelow : ∀ c ∈ n.children, a.Below Node.links id c :=
    fun c hc => (Arena.Below.of_mem hn hc).toLinks
  have htarget : n.kind = .assign → 0 = 0 → subs.head? = some .mem := by
    intro heq _
    cases hkind.symm.trans heq
    rcases rule_assign hr with hassign | hassign
    · rw [hpattern] at hassign
      cases hassign
    · cases hpattern.symm.trans hassign
      rfl
  refine (bindSubs_reuses hadmits.error hfuel (hdag.of_below hid)
    (hadmits.fault.imp_right fun hlone => hlone.of_below hid) hreuses r.name subs
    (havoids .assign (by decide)) (havoids .call (by decide)) (.refl id) hn
    (List.nil_append _).symm List.length_nil htarget hall h
    fun c hc => hsafe.of_below (hbelow c hc)).bind ?_
  rintro _ s₁ ⟨hrebound, -, hoperand⟩
  have h₁ : Consistent a root (s₁.applied id r.result r.name) :=
    ⟨hrebound.consistent.arena, hrebound.consistent.table⟩
  have hspares : s.arena.Spares (a.Below Node.links id) s₁.arena := by
    refine hrebound.spares.mono ?_
    rintro m (rfl | ⟨c, hc, hm⟩)
    · exact .refl m
    · exact (hbelow c hc).trans hm
  -- every child has been gone through, so the tree is clear before the procedure runs
  have hclear := hrebound.clear hn (by rw [hkind]; exact hcall)
  refine (emit_finishes hadmits.error (a.Below Node.links id) hr hpattern hcall h₁
    (h₁.arena.isDag (hdag.of_below hid)).inside hn hkind hoperand R).mono ?_
  intro v s' hvalued
  refine { hvalued with spares := hspares.trans hvalued.spares, clear := hclear, place := ?_ }
  intro hmem
  rcases rule_mem hr hmem with ⟨k', subs', hpattern', hplace⟩
  cases hpattern.symm.trans hpattern'
  exact ⟨n, hn, by rw [hkind]; exact hplace⟩

/-- Where nothing is recorded, a reduction is refused at once. -/
theorem reuses_of_chains (hfuel : 0 < fuel)
    (hchains : ∀ x xs s, Consistent a root s → Safe allowed a s.arena id →
      s.table.Chain grammar id x xs → xs.length ≤ 3 →
      Finishes allowed (Reduced a root s id x) ((t.reduce fuel id x).run s)) :
    Reuses t allowed a root fuel id := by
  intro x s h hsafe
  cases hbest : s.table.best id x with
  | none =>
      rcases (hdag.of_below hid).exists_get? with ⟨n, hn⟩
      rcases h.arena.exists_node hn with ⟨n', hn', -⟩
      rcases Nat.exists_eq_succ_of_ne_zero (Nat.ne_of_gt hfuel) with ⟨fuel, rfl⟩
      rw [Target.run_reduce_none hbest hn']
      exact hadmits.error _
  | some choice =>
      rcases h.table.founded.exists_chain hbest with ⟨xs, hchain, hnodup⟩
      exact hchains x xs s h hsafe hchain (Nonterminal.length_le_of_nodup hnodup)

end

section

variable (hbuilt : t.Built) (hgrammar : t.grammar = grammar) (hdag : a.IsDag Node.links root)
  (hadmits : Admits allowed a root) (hid : a.Below Node.links root id)
include hbuilt hgrammar hdag hadmits hid

/-- The rule for calls binds nothing; its procedure selects the arguments. -/
theorem call_reduced (hr : r ∈ rules) {subs : List Pattern}
    (hpattern : r.pattern = .node .call subs)
    (hmatches : r.pattern.Matches a (fun _ _ => True) id)
    (hreuses : ∀ w m, a.Path Node.links id w m → w ≠ [] → Reuses t allowed a root fuel m)
    (h : Consistent a root s) (hsafe : Safe allowed a s.arena id) {R : Reducer}
    (hselect : R.select = t.selectWith (t.reduce fuel)) :
    Finishes allowed (Reduced a root s id r.result)
      ((do
        Target.bindSubs (t.reduce fuel) r.name subs id 0
        SelectM.log (.reduced id r.result r.name)
        SelectM.tally r.name
        r.emit R id).run s) := by
  rcases rule_call hr with havoids | ⟨hleaf, hresult, hemit⟩
  · rw [hpattern] at havoids
    cases havoids
  · cases hpattern.symm.trans hleaf
    rw [hpattern] at hmatches
    rcases hmatches with ⟨n, hn, hkind, -⟩
    have h₁ : Consistent a root (s.applied id r.result r.name) := ⟨h.arena, h.table⟩
    rw [Target.bindSubs, pure_bind, hemit]
    cases n with
    | call callee args =>
        have hargs : ∀ c ∈ args, Reuses t allowed a root fuel c := by
          intro c hc
          rcases List.mem_iff_getElem?.1 hc with ⟨slot, hslot⟩
          exact hreuses _ c (.step (n := .call callee args) hn hslot (.root c)) nofun
        refine (call_finishes hbuilt hgrammar hdag hadmits hid hn hargs h₁ hsafe hselect).mono ?_
        intro v s' hreduced
        rw [hresult]
        exact ⟨⟨hreduced.consistent, hreduced.spares, hreduced.operand, hreduced.owns⟩,
          hreduced.clear, nofun⟩
    | _ => cases hkind

/-- A recorded reduction goes through the whole tree of its node: a chain rule shortens the chain,
and any other rule leads to nodes from which all ways were shorter in the beginning. -/
theorem reduces_of_chain (height : Nat) {xs : List Nonterminal} (h : Consistent a root s)
    (hsafe : Safe allowed a s.arena id) (hchain : s.table.Chain grammar id x xs)
    (hheight : ∀ w m, a.Path Node.links id w m → w.length < 2 * height)
    (hfuel : 3 * height + xs.length ≤ fuel + 2) :
    Finishes allowed (Reduced a root s id x) ((t.reduce fuel id x).run s) := by
  induction fuel generalizing height id x xs s with
  | zero =>
      have hroot := hheight [] id (.root id)
      cases hchain <;> simp only [List.length_cons] at hroot hfuel <;> omega
  | succ fuel ih =>
      have hroot := hheight [] id (.root id)
      cases hchain with
      | @chain _ y ys choice r hbest hr hpattern hchain =>
          simp only [List.length_cons] at hfuel
          have hmem := List.mem_of_getElem? hr
          rcases rule_chain hmem hpattern with ⟨-, hresult, hemit⟩
          rcases h.table.founded.rule id x choice hbest with ⟨-, r', hr', hx⟩
          cases hr.symm.trans hr'
          rw [Target.run_reduce_some hbest (hgrammar ▸ hr), Target.bound, hpattern,
            hemit]
          refine (ih hid height h hsafe hchain hheight (by omega)).bind ?_
          intro v s₁ hreduced
          have hne : x ≠ .mem := by
            rw [← hx, hresult]
            decide
          exact copy_reduced hadmits.error hreduced hne
            { select := t.selectWith (t.reduce fuel), reduce := t.reduce fuel } r.name
      | @rule _ choice r k subs hbest hr hpattern =>
          simp only [List.length_cons, List.length_nil] at hfuel hroot
          have hmem := List.mem_of_getElem? hr
          -- the rule may have been recorded for the spliced node, but it matches the first one too
          have hmatches := h.table.fits id x choice r hid hbest hr
          rcases h.table.founded.rule id x choice hbest with ⟨-, r', hr', rfl⟩
          cases hr.symm.trans hr'
          -- ways are measured in `a`, where no slot ever leads elsewhere
          have hreuses : ∀ w m, a.Path Node.links id w m → w ≠ [] →
              Reuses t allowed a root fuel m := by
            intro w m hw hne
            refine reuses_of_chains hdag hadmits (hid.trans ⟨w, hw⟩) (by omega) ?_
            intro y ys s₁ h₁ hsafe₁ hchain hlen
            exact ih (hid.trans ⟨w, hw⟩) (height - 1) h₁ hsafe₁ hchain (hw.shorter hne hheight)
              (by omega)
          rw [Target.run_reduce_some hbest (hgrammar ▸ hr), Target.bound, hpattern, bind_assoc]
          by_cases hcall : k = .call
          · subst hcall
            exact call_reduced hbuilt hgrammar hdag hadmits hid hmem hpattern hmatches hreuses h
              hsafe rfl
          · exact node_reduced hdag hadmits hid hmem hpattern hcall hmatches (by omega) hreuses h
              hsafe _

end

/-- Selecting instructions for `root` goes through its whole tree, or fails in an allowed way. -/
theorem selectRoot_finishes {settings : Settings} (ht : Target.x64 settings = .ok t)
    (hdag : s.arena.IsDag Node.links root) (hadmits : Admits allowed s.arena root) :
    Finishes allowed (fun _ _ => s.arena.Clear root) ((t.selectRoot root).run s) := by
  rcases Target.built_of_build ht with ⟨hgrammar, hbuilt⟩
  have h : Consistent s.arena root { s with table := .blank s.arena.size t.grammar.size } := by
    refine ⟨.refl _, ?_⟩
    rw [hgrammar]
    exact trusted_blank _ _
  have hfuel := t.lt_nesting_size s.arena
  have hreuses : Reuses t allowed s.arena root (t.nesting s.arena) root := by
    refine reuses_of_chains hdag hadmits (.refl root) (by omega) ?_
    intro x xs s₁ h₁ hsafe hchain hlen
    exact reduces_of_chain hbuilt hgrammar hdag hadmits (.refl root) s.arena.size h₁ hsafe hchain
      (fun w m hw => hdag.length_lt hw) (by omega)
  rw [Target.selectRoot]
  refine (relabel_finishes hbuilt hgrammar hdag (.refl root) h (.inr fun _ _ => rfl)).bind ?_
  rintro _ s₁ ⟨harena, h₁⟩
  rw [run_bind_of_ok (EStateM.run_get s₁), harena]
  refine (hreuses t.grammar.start s₁ h₁ (.inr fun w m _ _ => by rw [harena])).bind ?_
  intro v s₂ hreduced
  exact hreduced.clear

end X64

/-! ## Copies without shared nodes -/

/-- The node with other links. -/
def Node.relink (f : NodeId → NodeId) : Node → Node
  | .binary op lhs rhs => .binary op (f lhs) (f rhs)
  | .call callee args => .call callee (args.map f)
  | .unary op operand => .unary op (f operand)
  | .grouping inner => .grouping (f inner)
  | .deref inner => .deref (f inner)
  | .compare op lhs rhs => .compare op (f lhs) (f rhs)
  | .logical op lhs rhs => .logical op (f lhs) (f rhs)
  | .assign target value => .assign (f target) (f value)
  | .signExtend inner => .signExtend (f inner)
  | n => n

theorem Node.kind_relink (f : NodeId → NodeId) (n : Node) : (n.relink f).kind = n.kind := by
  cases n <;> rfl

theorem Node.links_relink (f : NodeId → NodeId) (n : Node) :
    (n.relink f).links = n.links.map f := by
  cases n <;> rfl

namespace Arena

/-- The arena `a'` has, from `root'` on, one copy of each node of `a` for each way that leads to it
from `root`; the node `m` is a copy of `f m`. -/
structure Unshares (a : Arena) (root : NodeId) (a' : Arena) (root' : NodeId)
    (f : NodeId → NodeId) : Prop where
  tree : a'.IsTree Node.links root'
  root : f root' = root
  node : ∀ m, a'.Below Node.links root' m →
    ∃ n, a'.get? m = some n ∧ a.get? (f m) = some (n.relink f)

namespace Unshares

variable {a a' : Arena} {root root' m k : NodeId} {f : NodeId → NodeId} {w : List Symbol}

theorem of_nodes (htree : a'.IsTree Node.links root') (hroot : f root' = root)
    (hnodes : ∀ m < a'.size, (a'.get? m).map (Node.relink f) = a.get? (f m)) :
    a.Unshares root a' root' f where
  tree := htree
  root := hroot
  node m hm := by
    rcases (htree.of_below hm).exists_get? with ⟨n, hn⟩
    refine ⟨n, hn, ?_⟩
    rw [← hnodes m (htree.inside m hm), hn]
    rfl

/-- Ways between copies are ways between the nodes themselves. -/
theorem path (h : a.Unshares root a' root' f) (hm : a'.Below Node.links root' m)
    (hw : a'.Path Node.links m w k) : a.Path Node.links (f m) w (f k) := by
  induction hw with
  | root m => exact .root (f m)
  | @step m c k n slot w hn hc hw ih =>
      rcases h.node m hm with ⟨n', hn', hn''⟩
      cases hn.symm.trans hn'
      have hc' : (n.relink f).links[slot]? = some (f c) := by
        rw [Node.links_relink, List.getElem?_map, hc]
        rfl
      rw [← Node.kind_relink f n]
      exact .step hn'' hc' (ih (hm.trans (.child hn hc)))

/-- Every way has a copy. -/
theorem exists_path (h : a.Unshares root a' root' f) {id : NodeId}
    (hw : a.Path Node.links id w k) (hm : a'.Below Node.links root' m) (hid : f m = id) :
    ∃ k', a'.Path Node.links m w k' ∧ f k' = k := by
  induction hw generalizing m with
  | root id => exact ⟨m, .root m, hid⟩
  | @step id c k n slot w hn hc hw ih =>
      subst hid
      rcases h.node m hm with ⟨n', hn', hn''⟩
      cases hn.symm.trans hn''
      rw [Node.links_relink, List.getElem?_map, Option.map_eq_some_iff] at hc
      rcases hc with ⟨c', hc', hc''⟩
      rcases ih (hm.trans (.child hn' hc')) hc'' with ⟨k', hk', hk''⟩
      rw [Node.kind_relink]
      exact ⟨k', .step hn' hc' hk', hk''⟩

/-- An assignment is misplaced if its copies are. -/
theorem misplaced_iff (h : a.Unshares root a' root' f) (hm : a'.Below Node.links root' m) :
    a.Misplaced (f m) ↔ a'.Misplaced m := by
  rcases h.node m hm with ⟨n, hn, hn'⟩
  cases n with
  | assign target value =>
      have htarget : a'.Below Node.links root' target :=
        hm.trans (.of_mem (n := .assign target value) hn List.mem_cons_self)
      rcases h.node target htarget with ⟨n, htarget, htarget'⟩
      constructor
      · rintro ⟨_, _, _, hassign, hget, hplace⟩
        cases hn'.symm.trans hassign
        cases htarget'.symm.trans hget
        rw [Node.kind_relink] at hplace
        exact ⟨target, value, n, hn, htarget, hplace⟩
      · rintro ⟨_, _, _, hassign, hget, hplace⟩
        cases hn.symm.trans hassign
        cases htarget.symm.trans hget
        rw [← Node.kind_relink f] at hplace
        exact ⟨f target, f value, _, hn', htarget', hplace⟩
  | _ =>
      refine ⟨fun hmisplaced => ?_, fun hmisplaced => ?_⟩
      · cases hmisplaced.kind hn'
      · cases hmisplaced.kind hn

theorem clear_iff (h : a.Unshares root a' root' f) : a.Clear root ↔ a'.Clear root' := by
  constructor
  · rintro hclear m ⟨w, hw⟩ hmisplaced
    have hpath := h.path (.refl root') hw
    rw [h.root] at hpath
    exact hclear (f m) ⟨w, hpath⟩ ((h.misplaced_iff ⟨w, hw⟩).2 hmisplaced)
  · rintro hclear m ⟨w, hw⟩ hmisplaced
    rcases h.exists_path hw (.refl root') h.root with ⟨m', hw', rfl⟩
    exact hclear m' ⟨w, hw'⟩ ((h.misplaced_iff ⟨w, hw'⟩).1 hmisplaced)

end Unshares
end Arena

/-! ## Selecting with and without shared nodes -/

namespace X64

variable {settings : Settings} {t : Target} {s : Selection} {root : NodeId}

theorem selectRoot_of_clear (ht : Target.x64 settings = .ok t)
    (hnear : s.arena.NearTree root) (hclear : s.arena.Clear root) :
    ∃ v s', (t.selectRoot root).run s = .ok v s' := by
  have hnone : ¬ (s.arena.Blocked root ∨ ∃ w arg, s.arena.BlockedAt root w arg) := by
    rw [← Arena.exists_misplaced_iff]
    rintro ⟨m, hm, hmisplaced⟩
    exact hclear m hm hmisplaced
  rw [not_or] at hnone
  rcases (selectRoot_ends ht hnear hnone.1).exists_ok
      (fun w arg harg => hnone.2 ⟨w, arg, harg⟩) with
    ⟨v, s', hrun, -⟩
  exact ⟨v, s', hrun⟩

theorem clear_of_selectRoot (ht : Target.x64 settings = .ok t)
    (hdag : s.arena.IsDag Node.links root) {v : NodeId} {s' : Selection}
    (hrun : (t.selectRoot root).run s = .ok v s') : s.arena.Clear root := by
  have hadmits : Admits (fun _ => True) s.arena root := ⟨fun _ => trivial, .inl fun _ _ => trivial⟩
  have hfinishes := selectRoot_finishes ht hdag hadmits
  rw [hrun] at hfinishes
  exact hfinishes

end X64

namespace Target

/-- In an arena without cycles, whatever nodes are shared,

* selecting a tree ends with a node, an error, or the fault of a missing label, and then it is that
  of a node that was appended after the tree was labeled;
* there is no fault if inner nodes in call arguments are reached in one way only;
* it succeeds only if it does for every copy of the tree without shared nodes; and it does if a
  copy does and only leaves are shared, which labeling comes to by the same word each time. -/
theorem selectRoot_shared {settings : Settings} {t : Target} (ht : Target.x64 settings = .ok t)
    {s : Selection} {root : NodeId} (hdag : s.arena.IsDag Node.links root) :
    ((∃ v s', (t.selectRoot root).run s = .ok v s') ∨
      (∃ e s', (t.selectRoot root).run s = .error (.error e) s') ∨
      ∃ m s', s.arena.size ≤ m ∧
        (t.selectRoot root).run s = .error (.fault (.outsideTable m)) s') ∧
    (s.arena.Lone root → ∀ f s', (t.selectRoot root).run s ≠ .error (.fault f) s') ∧
    ∀ (copy : Selection) (root' : NodeId) (f : NodeId → NodeId),
      s.arena.Unshares root copy.arena root' f →
      ((∃ v s', (t.selectRoot root).run s = .ok v s') →
        ∃ v s', (t.selectRoot root').run copy = .ok v s') ∧
      (s.arena.NearTree root → (∃ v s', (t.selectRoot root').run copy = .ok v s') →
        ∃ v s', (t.selectRoot root).run s = .ok v s') := by
  -- one run lemma, used with a different set of allowed failures for each part
  refine ⟨?_, ?_, ?_⟩
  · have hadmits : X64.Admits (fun f => (∃ e, f = .error e) ∨
        ∃ m, s.arena.size ≤ m ∧ f = .fault (.outsideTable m)) s.arena root :=
      ⟨fun e => .inl ⟨e, rfl⟩, .inl fun m hm => .inr ⟨m, hm, rfl⟩⟩
    have hfinishes := X64.selectRoot_finishes ht hdag hadmits
    cases hrun : (t.selectRoot root).run s with
    | ok v s' => exact .inl ⟨v, s', rfl⟩
    | error f s' =>
        rw [hrun] at hfinishes
        rcases hfinishes with ⟨e, rfl⟩ | ⟨m, hm, rfl⟩
        · exact .inr (.inl ⟨e, s', rfl⟩)
        · exact .inr (.inr ⟨m, s', hm, rfl⟩)
  · intro hlone f s' hrun
    have hadmits : X64.Admits (fun f => ∃ e, f = .error e) s.arena root :=
      ⟨fun e => ⟨e, rfl⟩, .inr hlone⟩
    have hfinishes := X64.selectRoot_finishes ht hdag hadmits
    rw [hrun] at hfinishes
    rcases hfinishes with ⟨e, he⟩
    cases he
  · intro copy root' f hcopy
    constructor
    · rintro ⟨v, s', hrun⟩
      have hclear := X64.clear_of_selectRoot ht hdag hrun
      exact X64.selectRoot_of_clear ht hcopy.tree.nearTree (hcopy.clear_iff.1 hclear)
    · rintro hnear ⟨v, s', hrun⟩
      have hclear := X64.clear_of_selectRoot ht hcopy.tree.isDag hrun
      exact X64.selectRoot_of_clear ht hnear (hcopy.clear_iff.2 hclear)

/-- How selecting a tree fails, if it does. -/
def failure? (t : Target) (arena : Arena) (root : NodeId) : Option Failure :=
  match (t.selectRoot root).run { arena } with
  | .ok _ _ => none
  | .error f _ => some f

theorem failure?_eq_none_iff {t : Target} {arena : Arena} {root : NodeId} :
    t.failure? arena root = none ↔ ∃ v s', (t.selectRoot root).run { arena } = .ok v s' := by
  rw [failure?]
  cases (t.selectRoot root).run { arena } with
  | ok v s' => exact ⟨fun _ => ⟨v, s', rfl⟩, fun _ => rfl⟩
  | error f s' => exact ⟨nofun, nofun⟩

/-- The call `f(-5, -5)` with one node for both numbers, and with two. -/
def sharedNumber : Arena := ⟨#[.literal 5, .unary .neg 0, .unary .neg 0, .call "f" [1, 2]]⟩

def twoNumbers : Arena :=
  ⟨#[.literal 5, .unary .neg 0, .unary .neg 4, .call "f" [1, 2], .literal 5]⟩

theorem selectRoot_shared_sharedNumber :
    sharedNumber.IsDag Node.links 3 ∧ ¬ sharedNumber.IsTree Node.links 3 ∧ sharedNumber.Lone 3 ∧
      sharedNumber.NearTree 3 ∧
      sharedNumber.Unshares 3 twoNumbers 3 ([0, 1, 2, 3, 0].getD · 0) ∧
      ∃ t, Target.x64 {} = .ok t ∧
        (∃ v s', (t.selectRoot 3).run { arena := sharedNumber } = .ok v s') ∧
        (∀ f s', (t.selectRoot 3).run { arena := sharedNumber } ≠ .error (.fault f) s') ∧
        ∃ v s', (t.selectRoot 3).run { arena := twoNumbers } = .ok v s' := by
  have hdag : sharedNumber.IsDag Node.links 3 := by decide
  -- the number is reached in two ways, but it is a leaf
  have hways : ∀ p ∈ sharedNumber.ways Node.links 4 3, ∀ q ∈ sharedNumber.ways Node.links 4 3,
      p.2 = q.2 → p.1 = q.1 ∨ p.2 = 0 := by decide
  have hshared : ∀ v w m, sharedNumber.Path Node.links 3 v m → sharedNumber.Path Node.links 3 w m →
      v = w ∨ m = 0 := by
    intro v w m hv hw
    exact hways _ (Arena.mem_ways_iff.2 ⟨hv, hdag.length_lt hv⟩) _
      (Arena.mem_ways_iff.2 ⟨hw, hdag.length_lt hw⟩) rfl
  have hlone : sharedNumber.Lone 3 := by
    intro v w m n hv hw _ hn hinner
    rcases hshared v w m hv hw with heq | rfl
    · exact heq
    · cases hn
      exact absurd rfl hinner
  -- below both negations labeling comes to it by the same word
  have hnear : sharedNumber.NearTree 3 := by
    refine ⟨([[.kind .unary, .child 0]].getD · []), rfl, hdag.inside, ?_, ?_, ?_⟩
    · intro v w m hv hw
      refine (hshared v w m hv hw).imp_right ?_
      rintro rfl
      exact ⟨.literal 5, rfl, rfl⟩
    · have hchild : ∀ m < 4, ∀ n ∈ sharedNumber.get? m, ∀ p ∈ n.children.zipIdx,
          [[.kind .unary, .child 0]].getD p.1 [] = [[.kind .unary, .child 0]].getD m [] ++
            [Symbol.kind n.kind, .child p.2] := by decide
      intro m n slot c hm hn hc
      exact hchild m (hdag.inside m hm) n hn (c, slot) (List.mem_zipIdx_iff_getElem?.2 hc)
    · have hargument : ∀ m < 4, ∀ n ∈ sharedNumber.get? m, n.kind = .call →
          ∀ c ∈ n.links, [[Symbol.kind .unary, .child 0]].getD c [] = [] := by decide
      intro m callee args c hm hn hc
      exact hargument m (hdag.inside m hm) _ hn rfl c hc
  have hcopy : sharedNumber.Unshares 3 twoNumbers 3 ([0, 1, 2, 3, 0].getD · 0) :=
    .of_nodes (by decide) rfl (by decide)
  have hsome : ∃ t, Target.x64 {} = .ok t ∧ t.failure? twoNumbers 3 = none :=
    ⟨_, rfl, by decide +kernel⟩
  rcases hsome with ⟨t, ht, hnone⟩
  rcases @selectRoot_shared {} t ht { arena := sharedNumber } 3 hdag with ⟨-, hfault, hcopies⟩
  have hok := (hcopies { arena := twoNumbers } 3 _ hcopy).2 hnear (failure?_eq_none_iff.1 hnone)
  exact ⟨hdag, by decide, hlone, hnear, hcopy, t, ht, hok, hfault hlone,
    (hcopies { arena := twoNumbers } 3 _ hcopy).1 hok⟩

/-- The sum of a negation and a group with one node for the pointer in both, and with two. -/
def sharedPointer : Arena := ⟨#[.framePointer, .unary .neg 0, .grouping 0, .binary .add 1 2]⟩

def twoPointers : Arena :=
  ⟨#[.framePointer, .unary .neg 0, .grouping 4, .binary .add 1 2, .framePointer]⟩

/-- The call `f(-5, -5)` with one node for both arguments, and with two. -/
def sharedArgument : Arena := ⟨#[.literal 5, .unary .neg 0, .call "f" [1, 1]]⟩

def twoArguments : Arena :=
  ⟨#[.literal 5, .unary .neg 0, .call "f" [1, 4], .literal 5, .unary .neg 3]⟩

/-- Without shared nodes both can be selected.  With them the group does not see that its pointer
can be in a register, and the second time the argument is labeled its slot leads to a new node. -/
theorem selectRoot_second_way :
    sharedPointer.Unshares 3 twoPointers 3 ([0, 1, 2, 3, 0].getD · 0) ∧
      sharedArgument.Unshares 2 twoArguments 2 ([0, 1, 2, 0, 1].getD · 0) ∧
      ∃ t, Target.x64 {} = .ok t ∧ t.failure? twoPointers 3 = none ∧
        t.failure? sharedPointer 3 = some (.error (.noRule 3 .binary .reg)) ∧
        t.failure? twoArguments 2 = none ∧
        t.failure? sharedArgument 2 = some (.fault (.outsideTable 3)) :=
  ⟨.of_nodes (by decide) rfl (by decide), .of_nodes (by decide) rfl (by decide), _, rfl,
    by decide +kernel⟩

end Target
end Codegen
