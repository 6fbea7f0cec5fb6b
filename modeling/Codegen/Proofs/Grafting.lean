import Codegen.Proofs.Splicing

/-!
# Grafting — trees with operands in place of what was reduced

While a tree is reduced, its slots are pointed to operands, some of them nodes of the tree and some
new.  Every operand belongs to a node below the child that it replaces, its owner.  So no operand
can be met on two ways: what was a tree is one still, although smaller, and where assignments had
places as targets they have them now.

* `Arena.Keeps`           : operands stay operands
* `Arena.Grafted`         : an arena in which operands replace children
* `Arena.Grafted.splice`  : one more operand
* `Arena.Grafted.isTree`  : trees remain trees
* `Arena.Grafted.clear`   : trees without misplaced assignments remain such
-/

namespace Codegen

theorem Node.links_of_operand? {n : Node} {o : Operand} (h : n.operand? = some o) :
    n.links = [] := by
  cases n <;> first
    | rfl
    | cases h

/-- A node with a slot is no operand. -/
theorem Node.operand?_of_setChild? {n n' : Node} {slot : Nat} {v : NodeId}
    (h : n.setChild? slot v = some n') : n.operand? = none := by
  unfold setChild? at h
  split at h <;> first
    | rfl
    | cases h

namespace Arena

variable {a b b' b'' : Arena} {id c v m k : NodeId} {n n' : Node} {slot : Nat} {o : Operand}
  {w : List Symbol} {owner : NodeId → NodeId}

/-! ## Operands -/

/-- Whatever is an operand in `b` is the same operand in `b'`. -/
def Keeps (b b' : Arena) : Prop := ∀ v o, b.operand? v = some o → b'.operand? v = some o

theorem Keeps.refl (b : Arena) : Keeps b b := fun _ _ ho => ho

theorem Keeps.trans (h : Keeps b b') (h' : Keeps b' b'') : Keeps b b'' :=
  fun v o ho => h' v o (h v o ho)

theorem Keeps.push (b : Arena) (n : Node) : Keeps b (b.push n) := by
  intro v o ho
  rw [operand?, get?_push, if_neg (Nat.ne_of_lt (X64.lt_size_of_operand? ho))]
  exact ho

theorem Keeps.set (hn : b.get? id = some n) (hset : n.setChild? slot v = some n') :
    Keeps b (b.set id n') := by
  intro u o ho
  have hne : u ≠ id := by
    rintro rfl
    rw [operand?, hn, Option.bind_some, Node.operand?_of_setChild? hset] at ho
    cases ho
  rw [operand?, get?_set_of_ne b hne]
  exact ho

/-- No way leads on from an operand. -/
theorem Path.eq_of_operand (h : b.Path Node.links id w m) (hid : (b.operand? id).isSome) :
    w = [] ∧ m = id := by
  rcases Option.isSome_iff_exists.1 hid with ⟨o, ho⟩
  rcases Option.bind_eq_some_iff.1 ho with ⟨n, hn, hn'⟩
  exact h.of_leaf hn (Node.links_of_operand? hn')

/-! ## Grafts -/

/-- The operand `v` replaces the child `c` in a slot of `n`: it belongs to a node below `c`, and if
`c` was the target of an assignment then it is a memory cell. -/
structure Graft (a : Arena) (owner : NodeId → NodeId) (b : Arena) (n : Node) (slot : Nat)
    (c v : NodeId) : Prop where
  operand : (b.operand? v).isSome
  owned : a.Below Node.links c (owner v)
  place : n.kind = .assign → slot = 0 → ∃ addr, b.operand? v = some (.mem addr)

/-- The nodes of `a` are in `b`, some of their children replaced by operands. -/
structure Grafted (a : Arena) (owner : NodeId → NodeId) (b : Arena) : Prop where
  size : a.size ≤ b.size
  old : ∀ m < a.size, owner m = m
  node : ∀ m n, a.get? m = some n → ∃ n', b.get? m = some n' ∧ n'.shape = n.shape ∧
    ∀ slot c v, n.children[slot]? = some c → n'.children[slot]? = some v →
      v = c ∨ Graft a owner b n slot c v

theorem Graft.mono {owner' : NodeId → NodeId} (h : Graft a owner b n slot c v)
    (hkeeps : Keeps b b') (howner : owner' v = owner v) : Graft a owner' b' n slot c v where
  operand := by
    rcases Option.isSome_iff_exists.1 h.operand with ⟨o, ho⟩
    exact Option.isSome_of_eq_some (hkeeps v o ho)
  owned := by
    rw [howner]
    exact h.owned
  place hassign hslot := by
    rcases h.place hassign hslot with ⟨addr, haddr⟩
    exact ⟨addr, hkeeps v _ haddr⟩

namespace Grafted

theorem refl (a : Arena) : Grafted a (fun m => m) a where
  size := Nat.le_refl _
  old _ _ := rfl
  node m n hn := by
    refine ⟨n, hn, rfl, ?_⟩
    intro slot c v hc hv
    cases hc.symm.trans hv
    exact .inl rfl

/-- A node is appended, and belongs to any node one likes. -/
theorem push (h : Grafted a owner b) (n : Node) (id : NodeId) :
    Grafted a (Function.update owner b.size id) (b.push n) where
  size := by
    rw [size_push]
    exact h.size.trans (Nat.le_succ _)
  old m hm := by
    rw [Function.update_of_ne (Nat.ne_of_lt (Nat.lt_of_lt_of_le hm h.size))]
    exact h.old m hm
  node m q hq := by
    rcases h.node m q hq with ⟨q', hq', hshape, hslots⟩
    refine ⟨q', ?_, hshape, ?_⟩
    · rw [get?_push, if_neg (Nat.ne_of_lt (lt_size hq'))]
      exact hq'
    · intro slot c v hc hv
      refine (hslots slot c v hc hv).imp_right fun hgraft => ?_
      rcases Option.isSome_iff_exists.1 hgraft.operand with ⟨o, ho⟩
      exact hgraft.mono (.push b n)
        (Function.update_of_ne (Nat.ne_of_lt (X64.lt_size_of_operand? ho)) _ _)

/-- A child is replaced by an operand. -/
theorem splice (h : Grafted a owner b) (hn : a.get? id = some n) (hn' : b.get? id = some n')
    {n'' : Node} (hset : n'.setChild? slot v = some n'') (hc : n.children[slot]? = some c)
    (hgraft : Graft a owner b n slot c v) : Grafted a owner (b.set id n'') where
  size := by
    rw [size_set]
    exact h.size
  old := h.old
  node m q hq := by
    have hkeeps := Keeps.set hn' hset
    have hlen : slot < n'.children.length := by
      have hsome := Node.isSome_setChild? n' slot v
      rw [hset] at hsome
      exact of_decide_eq_true hsome.symm
    rcases h.node m q hq with ⟨q', hq', hshape, hslots⟩
    by_cases hm : m = id
    · subst hm
      cases hn.symm.trans hq
      cases hn'.symm.trans hq'
      refine ⟨n'', get?_set_self (lt_size hn') n'', (Node.shape_setChild? hset).trans hshape, ?_⟩
      intro slot' c' v' hc' hv'
      rw [Node.children_setChild? hset] at hv'
      by_cases hslot : slot = slot'
      · subst hslot
        rw [List.getElem?_set_self hlen] at hv'
        cases hv'
        cases hc.symm.trans hc'
        exact .inr (hgraft.mono hkeeps rfl)
      · rw [List.getElem?_set_ne hslot] at hv'
        exact (hslots slot' c' v' hc' hv').imp_right fun hgraft' => hgraft'.mono hkeeps rfl
    · refine ⟨q', (get?_set_of_ne b hm n'').trans hq', hshape, ?_⟩
      intro slot' c' v' hc' hv'
      exact (hslots slot' c' v' hc' hv').imp_right fun hgraft' => hgraft'.mono hkeeps rfl

/-! ## Ways -/

/-- What a node leads on to in a slot: what it led to, or an operand. -/
theorem exists_link (h : Grafted a owner b) (hn : a.get? id = some n) (hn' : b.get? id = some n')
    (hv : n'.links[slot]? = some v) :
    ∃ c, n.links[slot]? = some c ∧ (v = c ∨ Graft a owner b n slot c v) := by
  rcases h.node id n hn with ⟨n'', hn'', hshape, hslots⟩
  cases hn'.symm.trans hn''
  have hkind : n'.kind = n.kind := by rw [← Node.kind_shape, hshape, Node.kind_shape]
  by_cases hcall : n.kind = .call
  · -- the arguments of a call are not children
    cases n with
    | call callee args =>
        cases n' with
        | call callee' args' =>
            cases hshape
            exact ⟨v, hv, .inl rfl⟩
        | _ => cases hkind
    | _ => cases hcall
  · rw [Node.links_of_ne_call (hkind ▸ hcall)] at hv
    have hlt : slot < n.children.length := by
      rw [← Node.children_of_kind hkind]
      exact (List.getElem?_eq_some_iff.1 hv).1
    have hc := List.getElem?_eq_getElem hlt
    exact ⟨_, Node.links_of_children hc, hslots slot _ v hc hv⟩

/-- Whatever a way leads to belongs to a node below where it began. -/
theorem owner_below (h : Grafted a owner b) (htree : a.IsTree Node.links id)
    (hw : b.Path Node.links id w k) : a.Below Node.links id (owner k) := by
  induction hw with
  | root id =>
      rw [h.old id (htree.inside id (.refl id))]
      exact .refl id
  | step hn' hv hw ih =>
      rcases htree.exists_get? with ⟨n, hn⟩
      rcases h.exists_link hn hn' hv with ⟨c, hc, rfl | hgraft⟩
      · exact (Below.child hn hc).trans (ih (htree.child hn hc))
      · rw [(hw.eq_of_operand hgraft.operand).2]
        exact (Below.child hn hc).trans hgraft.owned

/-- The same for what a slot leads to, with the child that was there before. -/
theorem owner_below_slot (h : Grafted a owner b) (htree : a.IsTree Node.links id)
    (hn : a.get? id = some n) (hn' : b.get? id = some n') (hv : n'.links[slot]? = some v)
    (hw : b.Path Node.links v w k) :
    ∃ c, n.links[slot]? = some c ∧ a.Below Node.links c (owner k) ∧
      (v = c ∨ (b.operand? v).isSome) := by
  rcases h.exists_link hn hn' hv with ⟨c, hc, rfl | hgraft⟩
  · exact ⟨v, hc, h.owner_below (htree.child hn hc) hw, .inl rfl⟩
  · refine ⟨c, hc, ?_, .inr hgraft.operand⟩
    rw [(hw.eq_of_operand hgraft.operand).2]
    exact hgraft.owned

/-- No way leads back to where it began. -/
theorem not_back (h : Grafted a owner b) (htree : a.IsTree Node.links id)
    (hn' : b.get? id = some n') (hv : n'.links[slot]? = some v)
    (hw : b.Path Node.links v w id) : False := by
  rcases htree.exists_get? with ⟨n, hn⟩
  rcases h.owner_below_slot htree hn hn' hv hw with ⟨c, hc, hbelow, -⟩
  rw [h.old id (htree.inside id (.refl id))] at hbelow
  exact htree.not_below_child hn hc hbelow

/-- A tree stays a tree. -/
theorem isTree (h : Grafted a owner b) (htree : a.IsTree Node.links id) :
    b.IsTree Node.links id where
  inside k := by
    rintro ⟨w, hw⟩
    induction hw with
    | root id => exact Nat.lt_of_lt_of_le (htree.inside id (.refl id)) h.size
    | step hn' hv hw ih =>
        rcases htree.exists_get? with ⟨n, hn⟩
        rcases h.exists_link hn hn' hv with ⟨c, hc, rfl | hgraft⟩
        · exact ih (htree.child hn hc)
        · rw [(hw.eq_of_operand hgraft.operand).2]
          rcases Option.isSome_iff_exists.1 hgraft.operand with ⟨o, ho⟩
          exact X64.lt_size_of_operand? ho
  unique w₁ w₂ k hw₁ hw₂ := by
    induction hw₁ generalizing w₂ with
    | root id =>
        cases hw₂ with
        | root => rfl
        | step hn' hv hw => exact (h.not_back htree hn' hv hw).elim
    | @step id v k n' slot w hn' hv hw ih =>
        cases hw₂ with
        | root => exact (h.not_back htree hn' hv hw).elim
        | step hn'' hv₂ hw₂ =>
            cases hn'.symm.trans hn''
            rcases htree.exists_get? with ⟨n, hn⟩
            rcases h.owner_below_slot htree hn hn' hv hw with ⟨c, hc, hbelow, hcase⟩
            rcases h.owner_below_slot htree hn hn' hv₂ hw₂ with ⟨c₂, hc₂, hbelow₂, -⟩
            -- what is met belongs to one node, and that is below one child only
            cases htree.slot_unique hn hc hc₂ hbelow hbelow₂
            cases hv.symm.trans hv₂
            rcases hcase with rfl | hoperand
            · rw [ih (htree.child hn hc) _ hw₂]
            · rw [(hw.eq_of_operand hoperand).1, (hw₂.eq_of_operand hoperand).1]

/-! ## Assignments -/

theorem not_misplaced (h : Grafted a owner b) (htree : a.IsTree Node.links id)
    (hplaced : ¬ a.Misplaced id) : ¬ b.Misplaced id := by
  rintro ⟨target', value', q', hassign', hq', hplace⟩
  rcases htree.exists_get? with ⟨n, hn⟩
  rcases h.node id n hn with ⟨n', hn', hshape, hslots⟩
  cases hn'.symm.trans hassign'
  cases n with
  | assign target value =>
      have hslot : (Node.assign target value).links[0]? = some target := rfl
      rcases hslots 0 target target' rfl rfl with rfl | hgraft
      · -- the target is the one it was
        rcases (htree.child hn hslot).exists_get? with ⟨q, hq⟩
        rcases h.node target' q hq with ⟨q'', hq'', hshape', -⟩
        cases hq'.symm.trans hq''
        have hkind : q'.kind = q.kind := by rw [← Node.kind_shape, hshape', Node.kind_shape]
        exact hplaced ⟨target', value, q, hn, hq, hkind ▸ hplace⟩
      · rcases hgraft.place rfl rfl with ⟨addr, haddr⟩
        rcases Option.bind_eq_some_iff.1 haddr with ⟨q'', hq'', ho⟩
        cases hq'.symm.trans hq''
        cases q' with
        | mem => exact hplace (.inr (.inl rfl))
        | _ => cases ho
  | _ => cases hshape

/-- Where all assignments were to places, they still are. -/
theorem clear (h : Grafted a owner b) (htree : a.IsTree Node.links id) (hclear : a.Clear id) :
    b.Clear id := by
  rintro k ⟨w, hw⟩
  induction hw with
  | root id => exact h.not_misplaced htree (hclear id (.refl id))
  | @step id v k n' slot w hn' hv hw ih =>
      rcases htree.exists_get? with ⟨n, hn⟩
      rcases h.exists_link hn hn' hv with ⟨c, hc, rfl | hgraft⟩
      · exact ih (htree.child hn hc) (hclear.of_below (.child hn hc))
      · rw [(hw.eq_of_operand hgraft.operand).2]
        rcases Option.isSome_iff_exists.1 hgraft.operand with ⟨o, ho⟩
        rintro ⟨target, value, -, hassign, -⟩
        rw [operand?, hassign] at ho
        cases ho

end Grafted

end Arena

end Codegen
