import Codegen.Proofs.Narrowing
import Codegen.Proofs.Outcome

/-!
# Splicing — arenas with shared nodes while instructions are selected

A slot is pointed to a node for a value once what hung there has been reduced.  If that child is
shared then the other slots still lead to it, and its own slots lead to values from then on; but
whatever has been spliced, a slot holds the child it had in the beginning or an operand, and in the
second case the tree of the child has been reduced.

* `Arena.Clear`        : no assignment in a tree is misplaced
* `X64.Spliced`        : the arena after any number of splices
* `X64.Spliced.splice` : one more splice
* `X64.Trusted`        : the table after any number of walks over such arenas
-/

namespace Codegen

/-! ## Trees without misplaced assignments -/

namespace Arena

variable {a : Arena} {id c : NodeId} {n : Node}

/-- No assignment in the tree of the node, call arguments included, is to something that is no
place. -/
def Clear (a : Arena) (id : NodeId) : Prop := ∀ m, a.Below Node.links id m → ¬ a.Misplaced m

theorem Clear.of_below (h : a.Clear id) (hc : a.Below Node.links id c) : a.Clear c :=
  fun m hm => h m (hc.trans hm)

theorem clear_of_links (hn : a.get? id = some n) (hid : ¬ a.Misplaced id)
    (hlinks : ∀ c ∈ n.links, a.Clear c) : a.Clear id := by
  intro m hm
  rcases (below_iff hn).1 hm with rfl | ⟨slot, c, hc, hm⟩
  · exact hid
  · exact hlinks c (List.mem_of_getElem? hc) m hm

theorem Misplaced.kind (h : a.Misplaced id) (hn : a.get? id = some n) : n.kind = .assign := by
  rcases h with ⟨target, value, n', hassign, -⟩
  cases hn.symm.trans hassign
  rfl

end Arena

theorem Node.children_of_operand? {n : Node} {o : Operand} (h : n.operand? = some o) :
    n.children = [] := by
  cases n <;> first
    | rfl
    | cases h

theorem Node.children_of_kind {n n' : Node} (h : n'.kind = n.kind) :
    n'.children.length = n.children.length := by
  rw [Node.length_children, Node.length_children, h]

/-- An operand leads nowhere. -/
theorem Arena.Path.of_operand {b : Arena} {id m : NodeId} {w : List Symbol}
    (h : b.Path Node.children id w m) (hid : (b.operand? id).isSome) : w = [] ∧ m = id := by
  rcases Option.isSome_iff_exists.1 hid with ⟨o, ho⟩
  rcases Option.bind_eq_some_iff.1 ho with ⟨n, hn, hn'⟩
  exact h.of_leaf hn (Node.children_of_operand? hn')

theorem Arena.inside_of_operand {b : Arena} {v : NodeId} (h : (b.operand? v).isSome) :
    b.Inside v := by
  rintro k ⟨w, hw⟩
  rcases Option.isSome_iff_exists.1 h with ⟨o, ho⟩
  rw [(hw.of_operand h).2]
  exact X64.lt_size_of_operand? ho

namespace X64

variable {a b b' : Arena} {id c v : NodeId} {n n' : Node} {slot : Nat}

/-! ## Slots -/

/-- The tree of the child `c` in a slot of `n` has been reduced, to a place if it is the target of
an assignment. -/
structure Done (a : Arena) (n : Node) (slot : Nat) (c : NodeId) : Prop where
  clear : a.Clear c
  place : n.kind = .assign → slot = 0 → ∃ n', a.get? c = some n' ∧ n'.kind.IsPlace

/-- What a slot of `n` holds in which `c` hung: the child itself, or an operand for its value. -/
inductive Fills (a b : Arena) (n : Node) (slot : Nat) (c : NodeId) : NodeId → Prop
  | child : Fills a b n slot c c
  | value {v : NodeId} : (b.operand? v).isSome → Owns a c v → Done a n slot c →
      Fills a b n slot c v

/-- The nodes of `a` are in `b`, with operands in some of their slots. -/
structure Spliced (a b : Arena) : Prop where
  size : a.size ≤ b.size
  node : ∀ m n, a.get? m = some n → ∃ n', b.get? m = some n' ∧ n'.shape = n.shape ∧
    ∀ slot c v, n.children[slot]? = some c → n'.children[slot]? = some v → Fills a b n slot c v

theorem Fills.owns (h : Fills a b n slot c v) : Owns a c v := by
  cases h with
  | child => exact .inl (.refl c)
  | value _ howns _ => exact howns

theorem Fills.mono (h : Fills a b n slot c v)
    (hoperand : ∀ u o, b.operand? u = some o → b'.operand? u = some o) : Fills a b' n slot c v := by
  cases h with
  | child => exact .child
  | value hsome howns hdone =>
      rcases Option.isSome_iff_exists.1 hsome with ⟨o, ho⟩
      exact .value (Option.isSome_of_eq_some (hoperand v o ho)) howns hdone

/-- A node has been gone through once all its slots have been. -/
theorem clear_of_done (hn : a.get? id = some n) (hcall : n.kind ≠ .call)
    (hdone : ∀ i c, n.children[i]? = some c → Done a n i c) : a.Clear id := by
  refine Arena.clear_of_links hn ?_ ?_
  · rintro ⟨target, value, n', hassign, htarget, hplace⟩
    cases hn.symm.trans hassign
    rcases (hdone 0 target rfl).place rfl rfl with ⟨k, hk, hk'⟩
    cases htarget.symm.trans hk
    exact hplace hk'
  · intro c hc
    rw [Node.links_of_ne_call hcall] at hc
    rcases List.mem_iff_getElem?.1 hc with ⟨i, hi⟩
    exact (hdone i c hi).clear

namespace Spliced

theorem refl (a : Arena) : Spliced a a where
  size := Nat.le_refl _
  node m n hn := by
    refine ⟨n, hn, rfl, ?_⟩
    intro slot c v hc hv
    cases hc.symm.trans hv
    exact .child

/-- A node of the arena as it is now, slot by slot. -/
theorem exists_node (h : Spliced a b) (hn : a.get? id = some n) :
    ∃ n', b.get? id = some n' ∧ n'.kind = n.kind ∧
      ∀ slot v, n'.children[slot]? = some v →
        ∃ c, n.children[slot]? = some c ∧ Fills a b n slot c v := by
  rcases h.node id n hn with ⟨n', hn', hshape, hslots⟩
  have hkind : n'.kind = n.kind := by rw [← Node.kind_shape, hshape, Node.kind_shape]
  refine ⟨n', hn', hkind, ?_⟩
  intro slot v hv
  have hlt : slot < n.children.length := by
    rw [← Node.children_of_kind hkind]
    exact (List.getElem?_eq_some_iff.1 hv).1
  exact ⟨_, List.getElem?_eq_getElem hlt, hslots slot _ v (List.getElem?_eq_getElem hlt) hv⟩

theorem exists_slot (h : Spliced a b) (hn : a.get? id = some n) (hc : n.children[slot]? = some c) :
    ∃ n' v, b.get? id = some n' ∧ n'.children[slot]? = some v ∧ Fills a b n slot c v := by
  rcases h.exists_node hn with ⟨n', hn', hkind, hslots⟩
  have hlt : slot < n'.children.length := by
    rw [Node.children_of_kind hkind]
    exact (List.getElem?_eq_some_iff.1 hc).1
  rcases hslots slot _ (List.getElem?_eq_getElem hlt) with ⟨c', hc', hfills⟩
  cases hc.symm.trans hc'
  exact ⟨n', _, hn', List.getElem?_eq_getElem hlt, hfills⟩

/-- A node without children is as it was. -/
theorem leaf (h : Spliced a b) (hn : a.get? id = some n) (hchildren : n.children = []) :
    b.get? id = some n := by
  rcases h.node id n hn with ⟨n', hn', hshape, -⟩
  have hkind : n'.kind = n.kind := by rw [← Node.kind_shape, hshape, Node.kind_shape]
  have hchildren' : n'.children = [] := by
    rw [← List.length_eq_zero_iff, Node.children_of_kind hkind, hchildren]
    rfl
  rw [Node.shape_of_children hchildren, Node.shape_of_children hchildren'] at hshape
  rw [hn', hshape]

/-- What a slot holds belongs to the node. -/
theorem owns_slot (h : Spliced a b) (hn : a.get? id = some n) (hn' : b.get? id = some n')
    (hv : n'.children[slot]? = some v) : Owns a id v := by
  rcases h.exists_node hn with ⟨n'', hn'', -, hslots⟩
  cases hn'.symm.trans hn''
  rcases hslots slot v hv with ⟨c, hc, hfills⟩
  exact hfills.owns.of_below (.child hn (Node.links_of_children hc))

/-- A way from a node of `a` is one that there was in the beginning, or ends at an operand. -/
theorem path_cases (h : Spliced a b) (hdag : a.IsDag Node.links id) {w : List Symbol} {m : NodeId}
    (hw : b.Path Node.children id w m) :
    a.Path Node.links id w m ∨ (b.operand? m).isSome := by
  induction hw with
  | root m => exact .inl (.root m)
  | @step id v m n' slot w hn' hv hw ih =>
      rcases hdag.exists_get? with ⟨n, hn⟩
      rcases h.exists_node hn with ⟨n'', hn'', hkind, hslots⟩
      cases hn'.symm.trans hn''
      rcases hslots slot v hv with ⟨c, hc, hfills⟩
      have hlink := Node.links_of_children hc
      cases hfills with
      | child =>
          rw [hkind]
          exact (ih (hdag.child hn hlink)).imp_left (.step hn hlink)
      | value hoperand _ _ =>
          rw [(hw.of_operand hoperand).2]
          exact .inr hoperand

/-- No splice leads out of the arena or closes a cycle. -/
theorem isDag (h : Spliced a b) (hdag : a.IsDag Node.links id) : b.IsDag Node.children id where
  inside m := by
    rintro ⟨w, hw⟩
    rcases h.path_cases hdag hw with hold | hoperand
    · exact Nat.lt_of_lt_of_le (hdag.inside m ⟨w, hold⟩) h.size
    · rcases Option.isSome_iff_exists.1 hoperand with ⟨o, ho⟩
      exact lt_size_of_operand? ho
  acyclic m w := by
    rintro ⟨u, hu⟩ hw
    rcases h.path_cases hdag hu with hold | hoperand
    · rcases h.path_cases (hdag.of_below ⟨u, hold⟩) hw with hcycle | hoperand
      · exact hdag.acyclic m w ⟨u, hold⟩ hcycle
      · exact (hw.of_operand hoperand).1
    · exact (hw.of_operand hoperand).1

/-- An operand that is a node of `a` was that operand from the beginning. -/
theorem operand?_eq (h : Spliced a b) (hv : v < a.size) {o : Operand}
    (ho : b.operand? v = some o) : a.operand? v = some o := by
  rcases Option.bind_eq_some_iff.1 ho with ⟨n', hn', ho'⟩
  have hn : a.get? v = some _ := Array.getElem?_eq_getElem hv
  rcases h.exists_node hn with ⟨n'', hn'', hkind, -⟩
  cases hn'.symm.trans hn''
  have hchildren : (a.nodes[v]).children = [] := by
    rw [← List.length_eq_zero_iff, ← Node.children_of_kind hkind, Node.children_of_operand? ho']
    rfl
  rw [h.leaf hn hchildren] at hn'
  cases hn'
  rw [Arena.operand?, hn]
  exact ho'

/-- Operands stay while nodes of `a` are spliced and others are appended. -/
theorem operand?_mono (h : Spliced a b) (h' : Spliced a b')
    (hsame : ∀ m, a.size ≤ m → m < b.size → b'.get? m = b.get? m) {o : Operand}
    (ho : b.operand? v = some o) : b'.operand? v = some o := by
  rcases Nat.lt_or_ge v a.size with hv | hv
  · have hold := h.operand?_eq hv ho
    rcases Option.bind_eq_some_iff.1 hold with ⟨n, hn, ho'⟩
    rw [Arena.operand?, h'.leaf hn (Node.children_of_operand? ho')]
    exact ho'
  · rw [Arena.operand?, hsame v hv (lt_size_of_operand? ho)]
    exact ho

/-- Nodes are appended. -/
theorem appended (h : Spliced a b) (hsize : b.size ≤ b'.size)
    (hsame : ∀ m < b.size, b'.get? m = b.get? m) : Spliced a b' where
  size := h.size.trans hsize
  node m n hn := by
    rcases h.node m n hn with ⟨n', hn', hshape, hslots⟩
    refine ⟨n', (hsame m (Arena.lt_size hn')).trans hn', hshape, ?_⟩
    intro slot c v hc hv
    refine (hslots slot c v hc hv).mono ?_
    intro u o ho
    rw [Arena.operand?, hsame u (lt_size_of_operand? ho)]
    exact ho

/-- A slot is pointed to an operand for the value of the child. -/
theorem splice (h : Spliced a b) (hn : a.get? id = some n) (hn' : b.get? id = some n')
    {n'' : Node} (hset : n'.setChild? slot v = some n'') (hc : n.children[slot]? = some c)
    (hv : (b.operand? v).isSome) (howns : Owns a c v) (hdone : Done a n slot c) :
    Spliced a (b.set id n'') where
  size := by
    rw [Arena.size_set]
    exact h.size
  node m q hq := by
    -- the node that is set has slots, so it is no operand
    have hlen : slot < n'.children.length := by
      have := Node.isSome_setChild? n' slot v
      rw [hset] at this
      exact of_decide_eq_true this.symm
    have hoperand : ∀ u o, b.operand? u = some o → (b.set id n'').operand? u = some o := by
      intro u o ho
      rcases Option.bind_eq_some_iff.1 ho with ⟨p, hp, ho'⟩
      have hne : u ≠ id := by
        rintro rfl
        cases hp.symm.trans hn'
        rw [Node.children_of_operand? ho'] at hlen
        exact Nat.not_lt_zero _ hlen
      rw [Arena.operand?, Arena.get?_set_of_ne b hne]
      exact ho
    rcases h.node m q hq with ⟨q', hq', hshape, hslots⟩
    by_cases hm : m = id
    · subst hm
      cases hn.symm.trans hq
      cases hn'.symm.trans hq'
      refine ⟨n'', Arena.get?_set_self (Arena.lt_size hn') n'',
        (Node.shape_setChild? hset).trans hshape, ?_⟩
      intro slot' c' v' hc' hv'
      rw [Node.children_setChild? hset] at hv'
      by_cases hslot : slot = slot'
      · subst hslot
        rw [List.getElem?_set_self hlen] at hv'
        cases hv'
        cases hc.symm.trans hc'
        rcases Option.isSome_iff_exists.1 hv with ⟨o, ho⟩
        exact .value (Option.isSome_of_eq_some (hoperand v o ho)) howns hdone
      · rw [List.getElem?_set_ne hslot] at hv'
        exact (hslots slot' c' v' hc' hv').mono hoperand
    · refine ⟨q', (Arena.get?_set_of_ne b hm n'').trans hq', hshape, ?_⟩
      intro slot' c' v' hc' hv'
      exact (hslots slot' c' v' hc' hv').mono hoperand

end Spliced

/-! ## Labels -/

/-- A pattern does not look for the nodes that stand for values. -/
structure Discreet (p : Pattern) : Prop where
  literal : p.avoids .literal = true
  vreg : p.avoids .vreg = true
  mem : p.avoids .mem = true

theorem discreet_of_subs {r : Rule} (hr : r ∈ rules) {k : NodeKind} {subs : List Pattern}
    (hpattern : r.pattern = .node k subs) {p : Pattern} (hp : p ∈ subs) : Discreet p where
  literal := Pattern.avoids_of_avoidsAll (rule_subs hr hpattern .literal (by decide)) hp
  vreg := Pattern.avoids_of_avoidsAll (rule_subs hr hpattern .vreg (by decide)) hp
  mem := Pattern.avoids_of_avoidsAll (rule_subs hr hpattern .mem (by decide)) hp

theorem Discreet.of_sub {k : NodeKind} {subs : List Pattern} (h : Discreet (.node k subs))
    {p : Pattern} (hp : p ∈ subs) : Discreet p := by
  have hsub : ∀ kind, (Pattern.node k subs).avoids kind = true → p.avoids kind = true := by
    intro kind hkind
    rw [Pattern.avoids, Bool.and_eq_true] at hkind
    exact Pattern.avoids_of_avoidsAll hkind.2 hp
  exact ⟨hsub _ h.literal, hsub _ h.vreg, hsub _ h.mem⟩

/-- Such a pattern matches an operand only if it is a nonterminal. -/
theorem Discreet.not_operand {k : NodeKind} {subs : List Pattern} (h : Discreet (.node k subs))
    (hn : b.get? v = some n) (hkind : n.kind = k) : (b.operand? v).isSome = false := by
  have havoids : ∀ kind, (Pattern.node k subs).avoids kind = true → k ≠ kind := by
    intro kind hkind
    rw [Pattern.avoids, Bool.and_eq_true, decide_eq_true_eq] at hkind
    exact hkind.1
  rw [Arena.operand?, hn]
  cases n <;> first
    | rfl
    | exact absurd hkind.symm (havoids _ h.literal)
    | exact absurd hkind.symm (havoids _ h.vreg)
    | exact absurd hkind.symm (havoids _ h.mem)

mutual

/-- What matches after some splices matched before: it looks into no slot that was spliced. -/
theorem matches_of_spliced {root : NodeId} (hdag : a.IsDag Node.links root) (h : Spliced a b) :
    (p : Pattern) → {m : NodeId} → a.Below Node.links root m →
    (∀ k subs, p = .node k subs → ∀ q ∈ subs, Discreet q) →
    p.Matches b (fun _ _ => True) m → p.Matches a (fun _ _ => True) m
  | .nt _, _, _, _, _ => trivial
  | .node k subs, m, hm, hsubs, ⟨n', hn', hkind, hall⟩ => by
      rcases (hdag.of_below hm).exists_get? with ⟨n, hn⟩
      rcases h.exists_node hn with ⟨n'', hn'', hkind', hslots⟩
      cases hn'.symm.trans hn''
      refine ⟨n, hn, hkind'.symm.trans hkind, ?_⟩
      refine matchesAll_of_spliced hdag h subs ?_ (hsubs k subs rfl)
        (Node.children_of_kind hkind') ?_ hall
      · intro c hc
        exact hm.trans (Arena.Below.of_mem hn hc).toLinks
      · intro slot c v hc hv
        rcases hslots slot v hv with ⟨c', hc', hfills⟩
        cases hc.symm.trans hc'
        cases hfills with
        | child => exact .inl rfl
        | value hoperand _ _ => exact .inr hoperand

theorem matchesAll_of_spliced {root : NodeId} (hdag : a.IsDag Node.links root)
    (h : Spliced a b) : (ps : List Pattern) → {cs vs : List NodeId} →
    (∀ c ∈ cs, a.Below Node.links root c) → (∀ q ∈ ps, Discreet q) → vs.length = cs.length →
    (∀ (slot : Nat) (c v : NodeId), cs[slot]? = some c → vs[slot]? = some v →
      v = c ∨ (b.operand? v).isSome) →
    Pattern.MatchesAll b (fun _ _ => True) ps vs → Pattern.MatchesAll a (fun _ _ => True) ps cs
  | [], [], [], _, _, _, _, _ => trivial
  | [], _ :: _, [], _, _, hlen, _, _ => by cases hlen
  | _ :: _, [], _ :: _, _, _, hlen, _, _ => by cases hlen
  | p :: ps, c :: cs, v :: vs, hcs, hps, hlen, hslots, ⟨hfirst, hrest⟩ => by
      refine ⟨?_, matchesAll_of_spliced hdag h ps
        (fun c' hc' => hcs c' (List.mem_cons_of_mem c hc'))
        (fun q hq => hps q (List.mem_cons_of_mem p hq)) (Nat.succ.inj hlen)
        (fun slot c' v' hc' hv' => hslots (slot + 1) c' v' hc' hv') hrest⟩
      have hp := hps p List.mem_cons_self
      rcases hslots 0 c v rfl rfl with rfl | hoperand
      · refine matches_of_spliced hdag h p (hcs v List.mem_cons_self) ?_ hfirst
        rintro k subs rfl q hq
        exact hp.of_sub hq
      · cases p with
        | nt x => exact trivial
        | node k subs =>
            rcases hfirst with ⟨n', hn', hkind, -⟩
            rw [hp.not_operand hn' hkind] at hoperand
            cases hoperand

end

/-- The table covers the nodes of `a` and no others; recorded chain rules come to an end, and below
`root` recorded rules match in `a`. -/
structure Trusted (a : Arena) (root : NodeId) (table : LabelTable) : Prop where
  label : ∀ m, (table.label? m).isSome = true ↔ m < a.size
  founded : table.Founded grammar
  fits : ∀ m x choice r, a.Below Node.links root m → table.best m x = some choice →
    rules[choice.rule]? = some r → r.pattern.Matches a (fun _ _ => True) m

theorem trusted_blank (a : Arena) (root : NodeId) :
    Trusted a root (.blank a.size grammar.size) where
  label m := by
    rw [LabelTable.label?, LabelTable.blank, Array.getElem?_replicate]
    split <;> simp_all
  founded := LabelTable.founded_of_blank (LabelTable.best_blank _ _)
  fits m x choice r _ hbest := by
    rw [LabelTable.best_blank] at hbest
    cases hbest

/-- Walks over a spliced arena leave a table that can be trusted. -/
theorem Trusted.moves {t : Target} (hbuilt : t.Built) (hgrammar : t.grammar = grammar)
    {root : NodeId} (hdag : a.IsDag Node.links root) (hspliced : Spliced a b)
    {within : NodeId → Prop} {l l' : Labeling} (hmoves : t.Moves b within l l')
    (h : Trusted a root l.table) : Trusted a root l'.table where
  label m := by
    rw [hmoves.isSome_label?]
    exact h.label m
  founded := by
    have hfounded := h.founded
    rw [← hgrammar] at hfounded ⊢
    exact hmoves.founded hfounded
  fits := by
    have hrecorded := hmoves.recorded hbuilt
      (P := fun m _ r => a.Below Node.links root m → r.pattern.Matches a (fun _ _ => True) m)
    rw [hgrammar] at hrecorded
    intro m x choice r hm hbest hr
    refine hrecorded ?_ ?_ m x choice r hbest hr hm
    · -- a rule that matches the spliced node matches the one that was there before
      intro m r _ hr hmatches hm
      refine matches_of_spliced hdag hspliced r.pattern hm ?_ hmatches
      intro k subs hpattern p hp
      exact discreet_of_subs hr hpattern hp
    · intro m x c r hc hr hm
      exact h.fits m x c r hm hc hr

end X64
end Codegen
