import Codegen.Expr.Arena
import Mathlib.Data.List.Nodup
import Mathlib.Data.List.Perm.Subperm

/-!
# Tree — ways through an arena

Which slots of a node lead on is a parameter, `links`.

* `Arena.Path`   : a word of kinds and slots that leads from one node down to another
* `Arena.Below`  : the nodes that some word leads to
* `Arena.IsDag`  : all of them are in the arena, and no word leads back to where it began
* `Arena.IsTree` : moreover each is reached by one word only
* `Arena.Unshared` : no node of the arena hangs in two slots
* `Arena.ways`   : the paths up to a length, so that both can be decided

The subtrees of a tree are trees, those of different children are disjoint, and a way that does not
come back is shorter than the arena is large.
-/

namespace Codegen
namespace Arena

/-- `w` spells a way from `id` down to `m`: the kind of each node it leaves, and the slot it leaves
by. -/
inductive Path (links : Node → List NodeId) (a : Arena) : NodeId → List Symbol → NodeId → Prop
  | root (id : NodeId) : Path links a id [] id
  | step {id child m : NodeId} {n : Node} {slot : Nat} {w : List Symbol} :
      a.get? id = some n → (links n)[slot]? = some child → Path links a child w m →
        Path links a id (.kind n.kind :: .child slot :: w) m

/-- Some way leads from `id` down to `m`. -/
def Below (links : Node → List NodeId) (a : Arena) (id m : NodeId) : Prop :=
  ∃ w, Path links a id w m

/-- The nodes below `root` are in the arena, and no way leads from one of them back to it; but a
node may be reached in several ways. -/
structure IsDag (links : Node → List NodeId) (a : Arena) (root : NodeId) : Prop where
  inside : ∀ m, Below links a root m → m < a.size
  acyclic : ∀ m w, Below links a root m → Path links a m w m → w = []

/-- The nodes below `root` are in the arena, and each is reached in one way. -/
structure IsTree (links : Node → List NodeId) (a : Arena) (root : NodeId) : Prop where
  inside : ∀ m, Below links a root m → m < a.size
  unique : ∀ v w m, Path links a root v m → Path links a root w m → v = w

variable {links : Node → List NodeId} {a : Arena}

/-! ## Paths -/

namespace Path

variable {id m k : NodeId} {v w : List Symbol}

/-- From a node without links only the empty way leads on. -/
theorem of_leaf {n : Node} (h : Path links a id w m) (hn : a.get? id = some n)
    (hleaf : links n = []) : w = [] ∧ m = id := by
  cases h with
  | root => exact ⟨rfl, rfl⟩
  | step hn' hchild _ =>
      cases hn.symm.trans hn'
      rw [hleaf] at hchild
      cases hchild

theorem append (h : Path links a id v m) (h' : Path links a m w k) :
    Path links a id (v ++ w) k := by
  induction h with
  | root => exact h'
  | step hn hchild _ ih => exact .step hn hchild (ih h')

theorem two_dvd_length (h : Path links a id w m) : 2 ∣ w.length := by
  induction h with
  | root => exact Nat.dvd_zero 2
  | step _ _ _ ih =>
      simp only [List.length_cons]
      omega

/-- A way to another node passes a kind and a slot. -/
theorem two_le_length (h : Path links a id w m) (hne : m ≠ id) : 2 ≤ w.length := by
  cases h with
  | root => exact absurd rfl hne
  | step => simp

/-- All ways from a node further down are shorter. -/
theorem shorter {height : Nat} (h : Path links a id w m) (hw : w ≠ [])
    (hheight : ∀ v k, Path links a id v k → v.length < 2 * height) :
    ∀ v k, Path links a m v k → v.length < 2 * (height - 1) := by
  intro v k hv
  have hlong := List.length_pos_iff.2 hw
  have heven := h.two_dvd_length
  have hshort := hheight (w ++ v) k (h.append hv)
  rw [List.length_append] at hshort
  omega

/-- A way can be left off at every node that it passes. -/
theorem split_suffix (h : Path links a id w m) (hv : v <:+ w) (heven : 2 ∣ v.length) :
    ∃ k, Below links a id k ∧ Path links a k v m := by
  induction h with
  | root id =>
      rw [List.suffix_nil.1 hv]
      exact ⟨id, ⟨[], .root id⟩, .root id⟩
  | @step id child m n slot w hn hchild hrest ih =>
      rcases List.suffix_cons_iff.1 hv with rfl | hv'
      · exact ⟨id, ⟨[], .root id⟩, .step hn hchild hrest⟩
      · rcases List.suffix_cons_iff.1 hv' with rfl | hv''
        · -- the word from the slot on has odd length
          have hw := hrest.two_dvd_length
          rw [List.length_cons] at heven
          omega
        · rcases ih hv'' with ⟨k, ⟨u, hu⟩, hk⟩
          exact ⟨k, ⟨_, .step hn hchild hu⟩, hk⟩

/-- The last slot that a way passes. -/
theorem exists_last (h : Path links a id w m) (hne : w ≠ []) :
    ∃ u k n slot, w = u ++ [.kind n.kind, .child slot] ∧ Path links a id u k ∧
      a.get? k = some n ∧ (links n)[slot]? = some m := by
  induction h with
  | root => exact absurd rfl hne
  | @step id child m n slot w hn hchild hrest ih =>
      by_cases hw : w = []
      · subst hw
        cases hrest
        exact ⟨[], id, n, slot, rfl, .root id, hn, hchild⟩
      · rcases ih hw with ⟨u, k, q, slot', rfl, hu, hq, hlast⟩
        exact ⟨_, k, q, slot', rfl, .step hn hchild hu, hq, hlast⟩

end Path

theorem Below.refl (id : NodeId) : Below links a id id := ⟨[], .root id⟩

theorem Below.eq_of_leaf {id m : NodeId} {n : Node} (h : Below links a id m)
    (hn : a.get? id = some n) (hleaf : links n = []) : m = id := by
  rcases h with ⟨w, hw⟩
  exact (hw.of_leaf hn hleaf).2

theorem Below.trans {id m k : NodeId} (h : Below links a id m) (h' : Below links a m k) :
    Below links a id k := by
  rcases h with ⟨v, hv⟩
  rcases h' with ⟨w, hw⟩
  exact ⟨v ++ w, hv.append hw⟩

theorem Below.child {id child : NodeId} {n : Node} {slot : Nat} (hn : a.get? id = some n)
    (hchild : (links n)[slot]? = some child) : Below links a id child :=
  ⟨_, .step hn hchild (.root child)⟩

theorem Below.of_mem {id child : NodeId} {n : Node} (hn : a.get? id = some n)
    (hchild : child ∈ links n) : Below links a id child := by
  rcases List.mem_iff_getElem?.1 hchild with ⟨slot, hslot⟩
  exact .child hn hslot

/-- What is below a node is the node itself or below one of its children. -/
theorem below_iff {id m : NodeId} {n : Node} (hn : a.get? id = some n) :
    Below links a id m ↔
      m = id ∨
        ∃ (slot : Nat) (child : NodeId), (links n)[slot]? = some child ∧ Below links a child m := by
  constructor
  · rintro ⟨w, hw⟩
    cases hw with
    | root => exact .inl rfl
    | step hn' hchild hrest =>
        cases hn.symm.trans hn'
        exact .inr ⟨_, _, hchild, _, hrest⟩
  · rintro (rfl | ⟨slot, child, hchild, hm⟩)
    · exact .refl m
    · exact (Below.child hn hchild).trans hm

/-! ## Arenas without cycles -/

namespace IsDag

variable {id c : NodeId} {n : Node} {slot : Nat}

theorem exists_get? (h : IsDag links a id) : ∃ n, a.get? id = some n :=
  ⟨_, Array.getElem?_eq_getElem (h.inside id (.refl id))⟩

theorem of_below (h : IsDag links a id) {m : NodeId} (hm : Below links a id m) :
    IsDag links a m where
  inside k hk := h.inside k (hm.trans hk)
  acyclic k w hk hw := h.acyclic k w (hm.trans hk) hw

theorem child (h : IsDag links a id) (hn : a.get? id = some n)
    (hchild : (links n)[slot]? = some c) : IsDag links a c :=
  h.of_below (.child hn hchild)

theorem not_below_child (h : IsDag links a id) (hn : a.get? id = some n)
    (hchild : (links n)[slot]? = some c) : ¬ Below links a c id := by
  rintro ⟨w, hw⟩
  have := h.acyclic id _ (.refl id) (.step hn hchild hw)
  cases this

/-- A way passes different nodes, one more than it has slots. -/
theorem exists_nodup (h : IsDag links a id) {w : List Symbol} {m : NodeId}
    (hw : Path links a id w m) :
    ∃ ids : List NodeId, ids.Nodup ∧ (∀ k ∈ ids, Below links a id k) ∧
      w.length + 2 = 2 * ids.length := by
  induction hw with
  | root id =>
      refine ⟨[id], List.pairwise_singleton _ _, ?_, rfl⟩
      intro k hk
      rw [List.mem_singleton.1 hk]
      exact .refl id
  | @step id child m n slot w hn hchild _ ih =>
      rcases ih (h.child hn hchild) with ⟨ids, hnodup, hbelow, hlen⟩
      refine ⟨id :: ids, List.nodup_cons.2 ⟨?_, hnodup⟩, ?_, ?_⟩
      · intro hid
        exact h.not_below_child hn hchild (hbelow id hid)
      · intro k hk
        rcases List.mem_cons.1 hk with rfl | hk
        · exact .refl k
        · exact (Below.child hn hchild).trans (hbelow k hk)
      · simp only [List.length_cons]
        omega

theorem length_lt (h : IsDag links a id) {w : List Symbol} {m : NodeId}
    (hw : Path links a id w m) : w.length < 2 * a.size := by
  rcases h.exists_nodup hw with ⟨ids, hnodup, hbelow, hlen⟩
  have hsub : ids ⊆ List.range a.size := by
    intro k hk
    exact List.mem_range.2 (h.inside k (hbelow k hk))
  have hle := (List.subperm_of_subset hnodup hsub).length_le
  rw [List.length_range] at hle
  omega

/-- What holds at a node once it holds at the node's children holds at every node. -/
theorem induction {root : NodeId} {P : NodeId → Prop} (h : IsDag links a root)
    (hstep : ∀ id n, Below links a root id → a.get? id = some n → (∀ c ∈ links n, P c) → P id) :
    P root := by
  have hbounded : ∀ fuel id, Below links a root id →
      (∀ w m, Path links a id w m → w.length < 2 * fuel) → P id := by
    intro fuel
    induction fuel with
    | zero =>
        intro id _ hlen
        exact absurd (hlen [] id (.root id)) (Nat.not_lt_zero _)
    | succ fuel ih =>
        intro id hid hlen
        rcases (h.of_below hid).exists_get? with ⟨n, hn⟩
        refine hstep id n hid hn fun c hc => ?_
        rcases List.mem_iff_getElem?.1 hc with ⟨slot, hslot⟩
        refine ih c (hid.trans (.child hn hslot)) fun w m hw => ?_
        have := hlen _ m (.step hn hslot hw)
        simp only [List.length_cons] at this
        omega
  exact hbounded a.size root (.refl root) fun _ _ hw => h.length_lt hw

end IsDag

/-! ## Trees -/

namespace IsTree

variable {id c : NodeId} {n : Node} {slot : Nat}

/-- A way that came back could be taken once more, and would then be a second one. -/
theorem isDag (h : IsTree links a id) : IsDag links a id where
  inside := h.inside
  acyclic m w hm hw := by
    rcases hm with ⟨u, hu⟩
    exact List.self_eq_append_right.1 (h.unique u (u ++ w) m hu (hu.append hw))

theorem exists_get? (h : IsTree links a id) : ∃ n, a.get? id = some n :=
  h.isDag.exists_get?

theorem of_below (h : IsTree links a id) {m : NodeId} (hm : Below links a id m) :
    IsTree links a m where
  inside k hk := h.inside k (hm.trans hk)
  unique v w k hv hw := by
    rcases hm with ⟨u, hu⟩
    exact List.append_cancel_left (h.unique _ _ k (hu.append hv) (hu.append hw))

theorem child (h : IsTree links a id) (hn : a.get? id = some n)
    (hchild : (links n)[slot]? = some c) : IsTree links a c :=
  h.of_below (.child hn hchild)

theorem not_below_child (h : IsTree links a id) (hn : a.get? id = some n)
    (hchild : (links n)[slot]? = some c) : ¬ Below links a c id :=
  h.isDag.not_below_child hn hchild

theorem ne_of_below_child (h : IsTree links a id) (hn : a.get? id = some n)
    (hchild : (links n)[slot]? = some c) {m : NodeId} (hm : Below links a c m) : m ≠ id := by
  rintro rfl
  exact h.not_below_child hn hchild hm

/-- No node is below two children. -/
theorem slot_unique (h : IsTree links a id) (hn : a.get? id = some n) {slot' : Nat}
    {c' m : NodeId} (hchild : (links n)[slot]? = some c)
    (hchild' : (links n)[slot']? = some c') (hm : Below links a c m)
    (hm' : Below links a c' m) : slot = slot' := by
  rcases hm with ⟨v, hv⟩
  rcases hm' with ⟨w, hw⟩
  have := h.unique _ _ m (.step hn hchild hv) (.step hn hchild' hw)
  cases this
  rfl

theorem length_lt (h : IsTree links a id) {w : List Symbol} {m : NodeId}
    (hw : Path links a id w m) : w.length < 2 * a.size :=
  h.isDag.length_lt hw

theorem induction {root : NodeId} {P : NodeId → Prop} (h : IsTree links a root)
    (hstep : ∀ id n, Below links a root id → a.get? id = some n → (∀ c ∈ links n, P c) → P id) :
    P root :=
  h.isDag.induction hstep

end IsTree

/-! ## Arenas without sharing -/

/-- No node occurs twice among the children of all nodes. -/
def Unshared (links : Node → List NodeId) (a : Arena) : Prop :=
  (a.nodes.toList.flatMap links).Nodup

instance : Decidable (Unshared links a) :=
  inferInstanceAs (Decidable (List.Nodup _))

namespace Unshared

variable {id id' m k : NodeId} {n n' : Node} {slot slot' : Nat} {v w : List Symbol}

/-- A node hangs in one slot only. -/
theorem unique_slot (h : Unshared links a) (hn : a.get? id = some n)
    (hslot : (links n)[slot]? = some m) (hn' : a.get? id' = some n')
    (hslot' : (links n')[slot']? = some m) : id = id' ∧ slot = slot' := by
  rcases List.nodup_flatMap.1 h with ⟨hinner, hapart⟩
  rcases Array.getElem?_eq_some_iff.1 hn with ⟨hid, rfl⟩
  rcases Array.getElem?_eq_some_iff.1 hn' with ⟨hid', rfl⟩
  have hshared : ∀ i j (hi : i < a.nodes.size) (hj : j < a.nodes.size), i < j →
      m ∈ links a.nodes[i] → m ∉ links a.nodes[j] := by
    intro i j hi hj hlt hm hm'
    exact List.pairwise_iff_getElem.1 hapart i j hi hj hlt hm hm'
  have hm := List.mem_of_getElem? hslot
  have hm' := List.mem_of_getElem? hslot'
  rcases Nat.lt_trichotomy id id' with hlt | rfl | hlt
  · exact absurd hm' (hshared id id' hid hid' hlt hm)
  · refine ⟨rfl, ?_⟩
    have hnodup := hinner _ (Array.getElem_mem_toList hid)
    exact (List.getElem?_inj (List.getElem?_eq_some_iff.1 hslot).1 hnodup).1
      (hslot.trans hslot'.symm)
  · exact absurd hm (hshared id' id hid' hid hlt hm')

/-- Of two ways to one node the shorter is the end of the longer. -/
theorem split (h : Unshared links a) (hv : Path links a m v k) (hw : Path links a id w k)
    (hle : v.length ≤ w.length) : ∃ u, w = u ++ v ∧ Path links a id u m := by
  induction hv with
  | root m => exact ⟨w, (List.append_nil w).symm, hw⟩
  | @step m child k n slot v hn hchild _ ih =>
      simp only [List.length_cons] at hle
      rcases ih hw (by omega) with ⟨u, rfl, hu⟩
      have hne : u ≠ [] := by
        rintro rfl
        simp only [List.nil_append] at hle
        omega
      rcases hu.exists_last hne with ⟨u', p, q, slot', rfl, hu', hq, hlast⟩
      rcases h.unique_slot hn hchild hq hlast with ⟨rfl, rfl⟩
      cases hn.symm.trans hq
      exact ⟨u', by simp, hu'⟩

/-- Two nodes with a node below both are below one another. -/
theorem comparable (h : Unshared links a) (hid : Below links a id k) (hm : Below links a m k) :
    Below links a id m ∨ Below links a m id := by
  rcases hid with ⟨w, hw⟩
  rcases hm with ⟨v, hv⟩
  rcases Nat.le_total v.length w.length with hle | hle
  · rcases h.split hv hw hle with ⟨u, -, hu⟩
    exact .inl ⟨u, hu⟩
  · rcases h.split hw hv hle with ⟨u, -, hu⟩
    exact .inr ⟨u, hu⟩

theorem isTree (h : Unshared links a) (hdag : IsDag links a id) : IsTree links a id where
  inside := hdag.inside
  unique := by
    -- the rest of the longer way would lead from the root back to it
    have hshorter : ∀ v w m, Path links a id v m → Path links a id w m → v.length ≤ w.length →
        v = w := by
      intro v w m hv hw hle
      rcases h.split hv hw hle with ⟨u, rfl, hu⟩
      rw [hdag.acyclic id u (.refl id) hu, List.nil_append]
    intro v w m hv hw
    rcases Nat.le_total v.length w.length with hle | hle
    · exact hshorter v w m hv hw hle
    · exact (hshorter w v m hw hv hle).symm

end Unshared

/-! ## Listing the paths -/

/-- The paths from a node that pass fewer than `fuel` slots, with the nodes they lead to. -/
def ways (links : Node → List NodeId) (a : Arena) : Nat → NodeId → List (List Symbol × NodeId)
  | 0, _ => []
  | fuel + 1, id =>
      ([], id) ::
        match a.get? id with
        | none => []
        | some n => (links n).zipIdx.flatMap fun (child, slot) =>
            (ways links a fuel child).map fun (w, m) => (.kind n.kind :: .child slot :: w, m)

theorem mem_ways_iff {fuel : Nat} {id m : NodeId} {w : List Symbol} :
    (w, m) ∈ ways links a fuel id ↔ Path links a id w m ∧ w.length < 2 * fuel := by
  induction fuel generalizing id w with
  | zero => simp [ways]
  | succ fuel ih =>
      rw [ways, List.mem_cons]
      constructor
      · rintro (heq | hmem)
        · cases heq
          exact ⟨.root m, by simp⟩
        · cases hn : a.get? id with
          | none =>
              rw [hn] at hmem
              cases hmem
          | some n =>
              rw [hn] at hmem
              rcases List.mem_flatMap.1 hmem with ⟨⟨child, slot⟩, hchild, hw⟩
              rcases List.mem_map.1 hw with ⟨⟨v, k⟩, hv, heq⟩
              cases heq
              rcases ih.1 hv with ⟨hpath, hlen⟩
              refine ⟨.step hn (List.mem_zipIdx_iff_getElem?.1 hchild) hpath, ?_⟩
              simp only [List.length_cons]
              omega
      · rintro ⟨hpath, hlen⟩
        cases hpath with
        | root => exact .inl rfl
        | @step _ child _ n slot v hn hchild hpath =>
            refine .inr ?_
            rw [hn]
            refine List.mem_flatMap.2 ⟨(child, slot), List.mem_zipIdx_iff_getElem?.2 hchild, ?_⟩
            refine List.mem_map.2 ⟨(v, m), ih.2 ⟨hpath, ?_⟩, rfl⟩
            simp only [List.length_cons] at hlen
            omega

/-- A path passes a node after every slot. -/
theorem Path.exists_take {id m : NodeId} {w : List Symbol} (h : Path links a id w m) {k : Nat}
    (hk : 2 * k ≤ w.length) : ∃ v p, Path links a id v p ∧ v.length = 2 * k := by
  induction h generalizing k with
  | root id =>
      refine ⟨[], id, .root id, ?_⟩
      simp only [List.length_nil] at hk ⊢
      omega
  | @step id child m n slot w hn hchild _ ih =>
      cases k with
      | zero => exact ⟨[], id, .root id, rfl⟩
      | succ k =>
          simp only [List.length_cons] at hk
          rcases ih (k := k) (by omega) with ⟨v, p, hv, hlen⟩
          refine ⟨_, p, .step hn hchild hv, ?_⟩
          simp only [List.length_cons, hlen]
          omega

/-- Where no listed path is as long as the arena is large, all paths are listed: a longer one would
pass a node at the length that is excluded. -/
theorem Path.mem_ways {id m : NodeId} {w : List Symbol} (hw : Path links a id w m)
    (hshort : ∀ p ∈ ways links a (a.size + 1) id, p.1.length < 2 * a.size) :
    (w, m) ∈ ways links a (a.size + 1) id := by
  refine mem_ways_iff.2 ⟨hw, ?_⟩
  by_contra hlong
  rcases hw.exists_take (k := a.size) (by omega) with ⟨v, k, hv, hvlen⟩
  have := hshort (v, k) (mem_ways_iff.2 ⟨hv, by omega⟩)
  simp only at this
  omega

theorem isTree_iff_ways {id : NodeId} :
    IsTree links a id ↔ ∀ p ∈ ways links a (a.size + 1) id, p.2 < a.size ∧
      p.1.length < 2 * a.size ∧ ∀ q ∈ ways links a (a.size + 1) id, q.2 = p.2 → q.1 = p.1 := by
  constructor
  · rintro h ⟨w, m⟩ hw
    have hpath := (mem_ways_iff.1 hw).1
    refine ⟨h.inside m ⟨w, hpath⟩, h.length_lt hpath, ?_⟩
    rintro ⟨v, k⟩ hv rfl
    exact h.unique v w k (mem_ways_iff.1 hv).1 hpath
  · intro h
    have hlisted := fun w m (hw : Path links a id w m) => hw.mem_ways fun p hp => (h p hp).2.1
    refine ⟨?_, ?_⟩
    · rintro m ⟨w, hw⟩
      exact (h (w, m) (hlisted w m hw)).1
    · intro v w m hv hw
      exact (h (w, m) (hlisted w m hw)).2.2 (v, m) (hlisted v m hv) rfl

instance (id : NodeId) : Decidable (IsTree links a id) :=
  decidable_of_iff _ isTree_iff_ways.symm

/-- A way that comes back can be taken any number of times. -/
theorem Path.exists_long {m : NodeId} {w : List Symbol} (hw : Path links a m w m) (hne : w ≠ []) :
    ∀ k, ∃ v, Path links a m v m ∧ k ≤ v.length
  | 0 => ⟨[], .root m, Nat.le_refl 0⟩
  | k + 1 => by
      rcases hw.exists_long hne k with ⟨v, hv, hlen⟩
      have := List.length_pos_of_ne_nil hne
      exact ⟨w ++ v, hw.append hv, by rw [List.length_append]; omega⟩

theorem isDag_iff_ways {id : NodeId} :
    IsDag links a id ↔
      ∀ p ∈ ways links a (a.size + 1) id, p.2 < a.size ∧ p.1.length < 2 * a.size := by
  constructor
  · rintro h ⟨w, m⟩ hw
    have hpath := (mem_ways_iff.1 hw).1
    exact ⟨h.inside m ⟨w, hpath⟩, h.length_lt hpath⟩
  · intro h
    have hlisted := fun w m (hw : Path links a id w m) => hw.mem_ways fun p hp => (h p hp).2
    refine ⟨?_, ?_⟩
    · rintro m ⟨w, hw⟩
      exact (h (w, m) (hlisted w m hw)).1
    · rintro m w ⟨u, hu⟩ hw
      by_contra hne
      rcases hw.exists_long hne (2 * a.size) with ⟨v, hv, hlen⟩
      have := (h _ (hlisted _ m (hu.append hv))).2
      simp only [List.length_append] at this
      omega

instance (id : NodeId) : Decidable (IsDag links a id) :=
  decidable_of_iff _ isDag_iff_ways.symm

end Arena
end Codegen
