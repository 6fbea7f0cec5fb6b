import Codegen.Automaton.Trie
import Mathlib.Data.Set.Insert

/-!
# Trie — the states are the beginnings of the spelled paths

* `Pattern.At`, `Pattern.Spells` : the sub-pattern at the end of a path, and the paths to leaves
* `Automaton.Trie`               : states and edges form a tree of words
* `Automaton.Extends`            : what an insertion adds, as a set of words and a set of marks
* `Automaton.extends_insert`     : inserting a pattern adds the beginnings of its spelled paths
-/

namespace Codegen

/-! ## Spelled paths -/

namespace Pattern

/-- `w` spells the way from the root of a pattern down to the sub-pattern `q`. -/
inductive At : Pattern → List Symbol → Pattern → Prop
  | root (p : Pattern) : At p [] p
  | step {k : NodeKind} {subs : List Pattern} {slot : Nat} {sub q : Pattern} {w : List Symbol} :
      subs[slot]? = some sub → At sub w q → At (.node k subs) (.kind k :: .child slot :: w) q

/-- `w` spells the way from the root of `p` to one of its leaves, the leaf included. -/
def Spells (p : Pattern) (w : List Symbol) : Prop :=
  ∃ v q, At p v q ∧ q.subs = [] ∧ w = v ++ [q.symbol]

/-- `w` spells a way to a leaf of one of `subs`, the first of them in slot `slot`. -/
def SpellsBelow (slot : Nat) (subs : List Pattern) (w : List Symbol) : Prop :=
  ∃ j sub v, subs[j]? = some sub ∧ Spells sub v ∧ w = .child (slot + j) :: v

theorem spells_of_subs_eq_nil {p : Pattern} (h : p.subs = []) (w : List Symbol) :
    Spells p w ↔ w = [p.symbol] := by
  constructor
  · rintro ⟨v, q, hat, hleaf, rfl⟩
    cases hat with
    | root => rfl
    | step hsub hat =>
        simp only [subs] at h
        simp [h] at hsub
  · rintro rfl
    exact ⟨[], p, .root p, h, rfl⟩

theorem spells_node_iff {k : NodeKind} {subs : List Pattern} (h : subs ≠ []) (w : List Symbol) :
    Spells (.node k subs) w ↔ ∃ v, SpellsBelow 0 subs v ∧ w = .kind k :: v := by
  constructor
  · rintro ⟨v, q, hat, hleaf, rfl⟩
    cases hat with
    | root => exact absurd hleaf h
    | @step _ _ slot sub _ u hsub hat =>
        exact ⟨.child slot :: (u ++ [q.symbol]),
          ⟨slot, sub, u ++ [q.symbol], hsub, ⟨u, q, hat, hleaf, rfl⟩, by simp⟩, rfl⟩
  · rintro ⟨_, ⟨j, sub, _, hsub, ⟨u, q, hat, hleaf, rfl⟩, rfl⟩, rfl⟩
    rw [Nat.zero_add]
    exact ⟨.kind k :: .child j :: u, q, .step hsub hat, hleaf, rfl⟩

theorem spellsBelow_cons_iff {slot : Nat} {p : Pattern} {ps : List Pattern} {w : List Symbol} :
    SpellsBelow slot (p :: ps) w ↔
      (∃ v, Spells p v ∧ w = .child slot :: v) ∨ SpellsBelow (slot + 1) ps w := by
  constructor
  · rintro ⟨j, sub, v, hsub, hv, rfl⟩
    cases j with
    | zero =>
        cases hsub
        exact .inl ⟨v, hv, rfl⟩
    | succ j =>
        refine .inr ⟨j, sub, v, hsub, hv, ?_⟩
        rw [Nat.add_right_comm, Nat.add_assoc]
  · rintro (⟨v, hv, rfl⟩ | ⟨j, sub, v, hsub, hv, rfl⟩)
    · exact ⟨0, p, v, rfl, hv, rfl⟩
    · refine ⟨j + 1, sub, v, hsub, hv, ?_⟩
      rw [Nat.add_right_comm, Nat.add_assoc]

/-- Every pattern has a leaf. -/
theorem exists_spells : ∀ p : Pattern, ∃ w, Spells p w
  | .nt x => ⟨[.nt x], (spells_of_subs_eq_nil rfl _).2 rfl⟩
  | .node k [] => ⟨[.kind k], (spells_of_subs_eq_nil rfl _).2 rfl⟩
  | .node k (p :: ps) => by
      rcases exists_spells p with ⟨v, hv⟩
      refine ⟨.kind k :: .child 0 :: v, (spells_node_iff (by simp) _).2 ⟨_, ?_, rfl⟩⟩
      exact spellsBelow_cons_iff.2 (.inl ⟨v, hv, rfl⟩)

/-- The words that go on from `w₀` with a nonempty beginning of a spelled path. -/
def beginnings (spells : List Symbol → Prop) (w₀ : List Symbol) : Set (List Symbol) :=
  {w | ∃ l v, spells l ∧ v <+: l ∧ v ≠ [] ∧ w = w₀ ++ v}

/-- The words that go on from `w₀` with a whole spelled path. -/
def ends (spells : List Symbol → Prop) (w₀ : List Symbol) : Set (List Symbol) :=
  {w | ∃ l, spells l ∧ w = w₀ ++ l}

theorem beginnings_cons {spells rest : List Symbol → Prop} {c : Symbol}
    (h : ∀ l, spells l ↔ ∃ v, rest v ∧ l = c :: v) (hrest : ∃ v, rest v) (w₀ : List Symbol) :
    beginnings spells w₀ = {w₀ ++ [c]} ∪ beginnings rest (w₀ ++ [c]) := by
  ext w
  constructor
  · rintro ⟨l, v, hl, hv, hne, rfl⟩
    rcases (h l).1 hl with ⟨u, hu, rfl⟩
    rcases List.prefix_cons_iff.1 hv with rfl | ⟨t, rfl, ht⟩
    · exact absurd rfl hne
    · cases t with
      | nil => exact .inl rfl
      | cons e t => exact .inr ⟨u, e :: t, hu, ht, by simp, by simp⟩
  · rintro (rfl | ⟨l, v, hl, hv, hne, rfl⟩)
    · rcases hrest with ⟨v, hv⟩
      exact ⟨c :: v, [c], (h _).2 ⟨v, hv, rfl⟩, by simp, by simp, rfl⟩
    · exact ⟨c :: l, c :: v, (h _).2 ⟨l, hl, rfl⟩, by simpa using hv, by simp, by simp⟩

theorem ends_cons {spells rest : List Symbol → Prop} {c : Symbol}
    (h : ∀ l, spells l ↔ ∃ v, rest v ∧ l = c :: v) (w₀ : List Symbol) :
    ends spells w₀ = ends rest (w₀ ++ [c]) := by
  ext w
  constructor
  · rintro ⟨l, hl, rfl⟩
    rcases (h l).1 hl with ⟨v, hv, rfl⟩
    exact ⟨v, hv, by simp⟩
  · rintro ⟨v, hv, rfl⟩
    exact ⟨c :: v, (h _).2 ⟨v, hv, rfl⟩, by simp⟩

theorem beginnings_or {spells left right : List Symbol → Prop}
    (h : ∀ l, spells l ↔ left l ∨ right l) (w₀ : List Symbol) :
    beginnings spells w₀ = beginnings left w₀ ∪ beginnings right w₀ := by
  ext w
  constructor
  · rintro ⟨l, v, hl, hv⟩
    exact ((h l).1 hl).imp (fun hl => ⟨l, v, hl, hv⟩) fun hl => ⟨l, v, hl, hv⟩
  · rintro (⟨l, v, hl, hv⟩ | ⟨l, v, hl, hv⟩)
    · exact ⟨l, v, (h l).2 (.inl hl), hv⟩
    · exact ⟨l, v, (h l).2 (.inr hl), hv⟩

theorem ends_or {spells left right : List Symbol → Prop}
    (h : ∀ l, spells l ↔ left l ∨ right l) (w₀ : List Symbol) :
    ends spells w₀ = ends left w₀ ∪ ends right w₀ := by
  ext w
  constructor
  · rintro ⟨l, hl, hw⟩
    exact ((h l).1 hl).imp (fun hl => ⟨l, hl, hw⟩) fun hl => ⟨l, hl, hw⟩
  · rintro (⟨l, hl, hw⟩ | ⟨l, hl, hw⟩)
    · exact ⟨l, (h l).2 (.inl hl), hw⟩
    · exact ⟨l, (h l).2 (.inr hl), hw⟩

theorem beginnings_leaf {p : Pattern} (h : p.subs = []) (w₀ : List Symbol) :
    beginnings (Spells p) w₀ = {w₀ ++ [p.symbol]} := by
  ext w
  constructor
  · rintro ⟨l, v, hl, hv, hne, rfl⟩
    rw [spells_of_subs_eq_nil h] at hl
    subst hl
    rcases List.prefix_cons_iff.1 hv with rfl | ⟨t, rfl, ht⟩
    · exact absurd rfl hne
    · rw [List.prefix_nil.1 ht]
      rfl
  · rintro rfl
    exact ⟨[p.symbol], [p.symbol], (spells_of_subs_eq_nil h _).2 rfl, List.prefix_refl _,
      by simp, rfl⟩

theorem ends_leaf {p : Pattern} (h : p.subs = []) (w₀ : List Symbol) :
    ends (Spells p) w₀ = {w₀ ++ [p.symbol]} := by
  ext w
  constructor
  · rintro ⟨l, hl, rfl⟩
    rw [(spells_of_subs_eq_nil h _).1 hl]
    rfl
  · rintro rfl
    exact ⟨[p.symbol], (spells_of_subs_eq_nil h _).2 rfl, rfl⟩

theorem not_spellsBelow_nil {slot : Nat} {w : List Symbol} : ¬ SpellsBelow slot [] w := by
  rintro ⟨j, sub, v, hsub, -⟩
  simp at hsub

end Pattern

/-! ## Words of an automaton -/

namespace Automaton

/-- The symbols read from the root to a state, in order. -/
def word (a : Automaton) (s : Nat) : List Symbol := (a.path s).reverse

theorem length_word (a : Automaton) (s : Nat) : (a.word s).length = a.length s :=
  List.length_reverse

/-- Some state is reached by exactly `w`. -/
def HasWord (a : Automaton) (w : List Symbol) : Prop := ∃ s < a.size, a.word s = w

/-- The state of `w` has bit `d` for `rule`. -/
def Accepts (a : Automaton) (rule : RuleId) (w : List Symbol) (d : Nat) : Prop :=
  ∃ s < a.size, a.word s = w ∧ (a.mask s rule).getLsbD d = true

/-- The states form a tree of words: each has its own, the root the empty one, and an edge adds a
symbol at the end. -/
structure Trie (a : Automaton) : Prop where
  nonempty : 0 < a.size
  root_word : a.word root = []
  unique : ∀ s t, s < a.size → t < a.size → a.word s = a.word t → s = t
  mem_edges_iff : ∀ (s : Nat) (c : Symbol) (t : Nat), s < a.size →
    ((c, t) ∈ a.edges s ↔ t < a.size ∧ a.word t = a.word s ++ [c])
  nodup_edges : ∀ s < a.size, (a.edges s).Nodup
  closed : ∀ w c, a.HasWord (w ++ [c]) → a.HasWord w
  masks : ∀ s < a.size, (a.accepting s).size = a.width

namespace Trie

variable {a : Automaton} (h : a.Trie)
include h

theorem child?_eq_some_iff {s t : Nat} {c : Symbol} (hs : s < a.size) :
    a.child? s c = some t ↔ t < a.size ∧ a.word t = a.word s ++ [c] := by
  rw [← h.mem_edges_iff s c t hs]
  have hfun : ∀ t', (c, t) ∈ a.edges s → (c, t') ∈ a.edges s → t = t' := by
    intro t' ht ht'
    have ht := (h.mem_edges_iff s c t hs).1 ht
    have ht' := (h.mem_edges_iff s c t' hs).1 ht'
    exact h.unique t t' ht.1 ht'.1 (ht.2.trans ht'.2.symm)
  unfold child?
  constructor
  · intro hlookup
    rcases List.lookup_eq_some_iff.1 hlookup with ⟨l₁, l₂, heq, -⟩
    rw [heq]
    exact List.mem_append_right _ List.mem_cons_self
  · intro hmem
    cases hlookup : (a.edges s).lookup c with
    | none =>
        have := List.lookup_eq_none_iff.1 hlookup _ hmem
        simp at this
    | some t' =>
        rcases List.lookup_eq_some_iff.1 hlookup with ⟨l₁, l₂, heq, -⟩
        have hmem' : (c, t') ∈ a.edges s := by
          rw [heq]
          exact List.mem_append_right _ List.mem_cons_self
        rw [hfun t' hmem hmem']

theorem child?_eq_none_iff {s : Nat} {c : Symbol} (hs : s < a.size) :
    a.child? s c = none ↔ ¬ a.HasWord (a.word s ++ [c]) := by
  constructor
  · rintro hnone ⟨t, ht, hword⟩
    rw [(h.child?_eq_some_iff hs).2 ⟨ht, hword⟩] at hnone
    cases hnone
  · intro hword
    cases hchild : a.child? s c with
    | none => rfl
    | some t => exact absurd ⟨t, (h.child?_eq_some_iff hs).1 hchild⟩ hword

end Trie

/-! ## A new edge -/

/-- The automaton with a new state behind a new edge `c` of `s`. -/
def sprout (a : Automaton) (s : Nat) (c : Symbol) : Automaton :=
  let new : State := { path := c :: a.path s, accepting := Array.replicate a.width 0 }
  let grown := a.modify s fun st => { st with next := st.next ++ [(c, a.size)] }
  { grown with states := grown.states.push new }

theorem grow_of_child? {a : Automaton} {s t : Nat} {c : Symbol} (h : a.child? s c = some t) :
    a.grow s c = (a, t) := by
  simp [grow, h]

theorem grow_of_child?_eq_none {a : Automaton} {s : Nat} {c : Symbol}
    (h : a.child? s c = none) : a.grow s c = (a.sprout s c, a.size) := by
  simp [grow, h, sprout]

section Sprout

variable (a : Automaton) (s : Nat) (c : Symbol)

@[simp] theorem width_sprout : (a.sprout s c).width = a.width := rfl

@[simp] theorem size_sprout : (a.sprout s c).size = a.size + 1 := by
  simp [sprout, size, modify]

theorem getElem?_sprout (u : Nat) :
    (a.sprout s c).states[u]? =
      if u = a.size then some { path := c :: a.path s, accepting := Array.replicate a.width 0 }
      else if s = u then a.states[u]?.map fun st => { st with next := st.next ++ [(c, a.size)] }
      else a.states[u]? := by
  simp only [sprout, modify, Array.getElem?_push, Array.size_modify, Array.getElem?_modify, size]
  rfl

theorem word_sprout (u : Nat) :
    (a.sprout s c).word u = if u = a.size then a.word s ++ [c] else a.word u := by
  unfold word path
  rw [getElem?_sprout]
  split
  · simp [path]
  · split
    · rw [Option.map_map]
      rfl
    · rfl

theorem edges_sprout (hs : s < a.size) (u : Nat) :
    (a.sprout s c).edges u =
      if u = a.size then [] else if u = s then a.edges s ++ [(c, a.size)] else a.edges u := by
  unfold edges
  rw [getElem?_sprout]
  by_cases hu : u = a.size
  · simp [hu]
  · by_cases hus : u = s
    · subst hus
      have hget : a.states[u]? = some a.states[u] := Array.getElem?_eq_getElem hs
      simp [hu, hget]
    · simp [hu, hus, Ne.symm hus]

theorem accepting_sprout (u : Nat) :
    (a.sprout s c).accepting u =
      if u = a.size then Array.replicate a.width 0 else a.accepting u := by
  unfold accepting
  rw [getElem?_sprout]
  split
  · simp
  · split
    · rw [Option.map_map]
      rfl
    · rfl

end Sprout

/-- The words of the states after a sprout: those from before, and one that goes on from `s`. -/
theorem word_sprout_iff {a : Automaton} {s t : Nat} {c : Symbol} {w : List Symbol} :
    t < (a.sprout s c).size ∧ (a.sprout s c).word t = w ↔
      (t < a.size ∧ a.word t = w) ∨ (t = a.size ∧ w = a.word s ++ [c]) := by
  rw [size_sprout, word_sprout]
  by_cases ht : t = a.size
  · subst ht
    simp [eq_comm]
  · have hlt : t < a.size + 1 ↔ t < a.size := by omega
    simp [ht, hlt]

theorem hasWord_sprout {a : Automaton} {s : Nat} {c : Symbol} (w : List Symbol) :
    (a.sprout s c).HasWord w ↔ a.HasWord w ∨ w = a.word s ++ [c] := by
  unfold HasWord
  simp only [word_sprout_iff, exists_or, exists_eq_left]

/-- The edges from a state after a sprout: those from before, and from `s` one to the new state. -/
theorem mem_edges_sprout_iff {a : Automaton} {s u t : Nat} {c e : Symbol} (hs : s < a.size)
    (hu : u < a.size) :
    (e, t) ∈ (a.sprout s c).edges u ↔
      (e, t) ∈ a.edges u ∨ (t = a.size ∧ u = s ∧ e = c) := by
  rw [edges_sprout a s c hs, if_neg (Nat.ne_of_lt hu)]
  by_cases hus : u = s
  · subst hus
    simp [and_comm]
  · simp [hus]

theorem mask_sprout (a : Automaton) (s : Nat) (c : Symbol) (rule : RuleId) (u : Nat) :
    (a.sprout s c).mask u rule = if u = a.size then 0 else a.mask u rule := by
  unfold mask
  rw [accepting_sprout]
  split
  · rw [Array.getD_eq_getD_getElem?, Array.getElem?_replicate]
    split <;> rfl
  · rfl

theorem accepts_sprout {a : Automaton} {s : Nat} {c : Symbol} (rule : RuleId)
    (w : List Symbol) (d : Nat) : (a.sprout s c).Accepts rule w d ↔ a.Accepts rule w d := by
  constructor
  · rintro ⟨u, hu, rfl, hbit⟩
    rw [size_sprout] at hu
    rw [mask_sprout] at hbit
    split at hbit
    · simp at hbit
    · rename_i hne
      rw [word_sprout, if_neg hne]
      exact ⟨u, by omega, rfl, hbit⟩
  · rintro ⟨u, hu, rfl, hbit⟩
    have hne : u ≠ a.size := by omega
    exact ⟨u, by rw [size_sprout]; omega, by rw [word_sprout, if_neg hne],
      by rw [mask_sprout, if_neg hne]; exact hbit⟩

theorem Trie.sprout {a : Automaton} (h : a.Trie) {s : Nat} {c : Symbol} (hs : s < a.size)
    (hnew : ¬ a.HasWord (a.word s ++ [c])) : (a.sprout s c).Trie where
  nonempty := by
    rw [size_sprout]
    omega
  root_word := (word_sprout_iff.2 (.inl ⟨h.nonempty, h.root_word⟩)).2
  unique := by
    intro u t hu ht heq
    rcases word_sprout_iff.1 ⟨hu, heq⟩ with ⟨hu, hword⟩ | ⟨rfl, hword⟩ <;>
      rcases word_sprout_iff.1 ⟨ht, rfl⟩ with ⟨ht, hword'⟩ | ⟨rfl, hword'⟩
    · exact h.unique u t hu ht (hword.trans hword'.symm)
    · exact absurd ⟨u, hu, hword.trans hword'⟩ hnew
    · exact absurd ⟨t, ht, hword'.trans hword⟩ hnew
    · rfl
  mem_edges_iff := by
    intro u e t hu
    rw [word_sprout_iff]
    rcases word_sprout_iff.1 ⟨hu, rfl⟩ with ⟨hu, hword⟩ | ⟨rfl, hword⟩
    · -- the new state is the next one from `u` just if `u` is `s`, whose word no other state has
      rw [mem_edges_sprout_iff hs hu, h.mem_edges_iff u e t hu, ← hword]
      refine or_congr_right (and_congr_right fun _ => ?_)
      constructor
      · rintro ⟨rfl, rfl⟩
        rfl
      · intro heq
        have hlast := List.append_inj' heq rfl
        exact ⟨h.unique u s hu hs hlast.1, List.singleton_inj.1 hlast.2⟩
    · -- the new state has no edge, and no word goes on from its own
      rw [edges_sprout a s c hs, if_pos rfl, hword]
      refine ⟨fun hmem => absurd hmem List.not_mem_nil, ?_⟩
      rintro (⟨ht, heq⟩ | ⟨-, heq⟩)
      · exact absurd (h.closed _ e ⟨t, ht, heq⟩) hnew
      · have := congrArg List.length heq
        simp at this
  nodup_edges := by
    intro u hu
    rw [size_sprout] at hu
    rw [edges_sprout a s c hs]
    split
    · exact .nil
    · split
      · -- the edge that is added leads to a state that no edge led to
        refine List.nodup_append.2 ⟨h.nodup_edges s hs, List.pairwise_singleton _ _, ?_⟩
        rintro ⟨e, t⟩ hmem _ hnew rfl
        have hlt := ((h.mem_edges_iff s e t hs).1 hmem).1
        cases List.mem_singleton.1 hnew
        exact Nat.lt_irrefl _ hlt
      · exact h.nodup_edges u (by omega)
  closed := by
    intro w e hw
    rw [hasWord_sprout] at hw ⊢
    rcases hw with hw | hw
    · exact .inl (h.closed w e hw)
    · have hlast := List.append_inj' hw rfl
      exact .inl ⟨s, hs, hlast.1.symm⟩
  masks := by
    intro u hu
    rw [size_sprout] at hu
    rw [accepting_sprout, width_sprout]
    split
    · exact Array.size_replicate
    · exact h.masks u (by omega)

/-! ## A change inside a state -/

section Modify

variable {a : Automaton} {s : Nat} {f : State → State}

@[simp] theorem size_modify : (a.modify s f).size = a.size := by
  simp [size, modify]

@[simp] theorem width_modify : (a.modify s f).width = a.width := rfl

theorem getElem?_modify (u : Nat) :
    (a.modify s f).states[u]? = if s = u then a.states[u]?.map f else a.states[u]? :=
  Array.getElem?_modify

theorem word_modify (hf : ∀ st, (f st).path = st.path) (u : Nat) :
    (a.modify s f).word u = a.word u := by
  unfold word path
  rw [getElem?_modify]
  split
  · rw [Option.map_map, show State.path ∘ f = State.path from funext hf]
  · rfl

theorem edges_modify (hf : ∀ st, (f st).next = st.next) (u : Nat) :
    (a.modify s f).edges u = a.edges u := by
  unfold edges
  rw [getElem?_modify]
  split
  · rw [Option.map_map, show State.next ∘ f = State.next from funext hf]
  · rfl

theorem accepting_modify_of_ne {u : Nat} (hne : s ≠ u) :
    (a.modify s f).accepting u = a.accepting u := by
  unfold accepting
  rw [getElem?_modify, if_neg hne]

theorem accepting_modify_self (hs : s < a.size) {g : Array DepthMask → Array DepthMask}
    (hf : ∀ st, (f st).accepting = g st.accepting) :
    (a.modify s f).accepting s = g (a.accepting s) := by
  have hget : a.states[s]? = some a.states[s] := Array.getElem?_eq_getElem hs
  unfold accepting
  rw [getElem?_modify, if_pos rfl, hget]
  simp [hf]

theorem hasWord_modify (hf : ∀ st, (f st).path = st.path) (w : List Symbol) :
    (a.modify s f).HasWord w ↔ a.HasWord w := by
  unfold HasWord
  simp only [size_modify, word_modify hf]

theorem Trie.modify (h : a.Trie) (hpath : ∀ st, (f st).path = st.path)
    (hnext : ∀ st, (f st).next = st.next)
    (hmasks : s < a.size → ((a.modify s f).accepting s).size = a.width) :
    (a.modify s f).Trie where
  nonempty := by
    rw [size_modify]
    exact h.nonempty
  root_word := by
    rw [word_modify hpath]
    exact h.root_word
  unique := by
    intro u t
    rw [size_modify, word_modify hpath, word_modify hpath]
    exact h.unique u t
  mem_edges_iff := by
    intro u c t
    rw [size_modify, edges_modify hnext, word_modify hpath, word_modify hpath]
    exact h.mem_edges_iff u c t
  nodup_edges := by
    intro u
    rw [size_modify, edges_modify hnext]
    exact h.nodup_edges u
  closed := by
    intro w c
    rw [hasWord_modify hpath, hasWord_modify hpath]
    exact h.closed w c
  masks := by
    intro u hu
    rw [size_modify] at hu
    rw [width_modify]
    by_cases hsu : s = u
    · subst hsu
      exact hmasks hu
    · rw [accepting_modify_of_ne hsu]
      exact h.masks u hu

end Modify

/-! ## Marking the end of a path -/

theorem accepting_mark_self {a : Automaton} {s : Nat} (hs : s < a.size) (rule : RuleId) :
    (a.mark s rule).accepting s =
      (a.accepting s).modify rule (· ||| BitVec.twoPow 64 ((a.length s - 1) / 2)) :=
  accepting_modify_self hs (g := fun masks => masks.modify rule _) fun _ => rfl

@[simp] theorem size_mark (a : Automaton) (s : Nat) (rule : RuleId) :
    (a.mark s rule).size = a.size :=
  size_modify

@[simp] theorem word_mark (a : Automaton) (s : Nat) (rule : RuleId) (u : Nat) :
    (a.mark s rule).word u = a.word u := by
  refine word_modify ?_ u
  intro st
  rfl

theorem hasWord_mark (a : Automaton) (s : Nat) (rule : RuleId) (w : List Symbol) :
    (a.mark s rule).HasWord w ↔ a.HasWord w := by
  refine hasWord_modify ?_ w
  intro st
  rfl

theorem Trie.mark {a : Automaton} (h : a.Trie) (s : Nat) (rule : RuleId) : (a.mark s rule).Trie :=
  h.modify (fun _ => rfl) (fun _ => rfl) fun hs => by
    refine (congrArg Array.size (accepting_mark_self hs rule)).trans ?_
    rw [Array.size_modify]
    exact h.masks s hs

theorem mask_mark {a : Automaton} (h : a.Trie) {s : Nat} (hs : s < a.size) {rule : RuleId}
    (hrule : rule < a.width) (u : Nat) (r : RuleId) (d : Nat) :
    ((a.mark s rule).mask u r).getLsbD d = true ↔
      (a.mask u r).getLsbD d = true ∨ (u = s ∧ r = rule ∧ d < 64 ∧ d = (a.length s - 1) / 2) := by
  by_cases hu : s = u
  · subst hu
    have hsize : rule < (a.accepting s).size := by
      rw [h.masks s hs]
      exact hrule
    unfold mask
    rw [accepting_mark_self hs, Array.getD_eq_getD_getElem?, Array.getElem?_modify]
    by_cases hr : rule = r
    · subst hr
      have hget := Array.getElem?_eq_getElem hsize
      rw [if_pos rfl, hget, Array.getD_eq_getD_getElem?, hget]
      simp only [Option.map_some, Option.getD_some, BitVec.getLsbD_or, BitVec.getLsbD_twoPow,
        Bool.or_eq_true, Bool.and_eq_true, decide_eq_true_eq, true_and]
      refine or_congr_right ⟨?_, ?_⟩
      · rintro ⟨hlt, rfl⟩
        exact ⟨hlt, rfl⟩
      · rintro ⟨hlt, rfl⟩
        exact ⟨hlt, rfl⟩
    · rw [if_neg hr, Array.getD_eq_getD_getElem?]
      refine ⟨.inl, ?_⟩
      rintro (hbit | ⟨-, heq, -⟩)
      · exact hbit
      · exact absurd heq.symm hr
  · unfold mask
    rw [show (a.mark s rule).accepting u = a.accepting u from accepting_modify_of_ne hu]
    refine ⟨.inl, ?_⟩
    rintro (hbit | ⟨heq, -⟩)
    · exact hbit
    · exact absurd heq.symm hu

/-! ## What an insertion adds -/

/-- `a'` is `a` with the words of `words` and, for `rule`, with the ends of paths in `marks`. -/
structure Extends (a a' : Automaton) (rule : RuleId) (words marks : Set (List Symbol)) :
    Prop where
  trie : a'.Trie
  width : a'.width = a.width
  size_le : a.size ≤ a'.size
  word_eq : ∀ s < a.size, a'.word s = a.word s
  hasWord_iff : ∀ w, a'.HasWord w ↔ a.HasWord w ∨ w ∈ words
  accepts_iff : ∀ r w d, a'.Accepts r w d ↔
    a.Accepts r w d ∨ (r = rule ∧ w ∈ marks ∧ d < 64 ∧ d = (w.length - 1) / 2)

namespace Extends

theorem refl {a : Automaton} (h : a.Trie) (rule : RuleId) : Extends a a rule ∅ ∅ where
  trie := h
  width := rfl
  size_le := Nat.le_refl _
  word_eq := fun _ _ => rfl
  hasWord_iff := by simp
  accepts_iff := by simp

theorem trans {a a' a'' : Automaton} {rule : RuleId} {words words' marks marks' : Set (List Symbol)}
    (h : Extends a a' rule words marks) (h' : Extends a' a'' rule words' marks') :
    Extends a a'' rule (words ∪ words') (marks ∪ marks') where
  trie := h'.trie
  width := h'.width.trans h.width
  size_le := h.size_le.trans h'.size_le
  word_eq := by
    intro s hs
    rw [h'.word_eq s (Nat.lt_of_lt_of_le hs h.size_le), h.word_eq s hs]
  hasWord_iff := by
    intro w
    rw [h'.hasWord_iff, h.hasWord_iff, or_assoc, Set.mem_union]
  accepts_iff := by
    intro r w d
    rw [h'.accepts_iff, h.accepts_iff, or_assoc, Set.mem_union]
    refine or_congr_right ⟨?_, ?_⟩
    · rintro (⟨hr, hw, hd⟩ | ⟨hr, hw, hd⟩)
      · exact ⟨hr, .inl hw, hd⟩
      · exact ⟨hr, .inr hw, hd⟩
    · rintro ⟨hr, hw | hw, hd⟩
      · exact .inl ⟨hr, hw, hd⟩
      · exact .inr ⟨hr, hw, hd⟩

end Extends

theorem extends_grow {a : Automaton} (h : a.Trie) {s : Nat} (hs : s < a.size) (c : Symbol)
    (rule : RuleId) :
    Extends a (a.grow s c).1 rule {a.word s ++ [c]} ∅ ∧ (a.grow s c).2 < (a.grow s c).1.size ∧
      (a.grow s c).1.word (a.grow s c).2 = a.word s ++ [c] := by
  cases hchild : a.child? s c with
  | some t =>
      rcases (h.child?_eq_some_iff hs).1 hchild with ⟨ht, hword⟩
      rw [grow_of_child? hchild]
      refine ⟨{ Extends.refl h rule with hasWord_iff := ?_ }, ht, hword⟩
      intro w
      refine ⟨.inl, ?_⟩
      rintro (hw | rfl)
      · exact hw
      · exact ⟨t, ht, hword⟩
  | none =>
      have hnew := (h.child?_eq_none_iff hs).1 hchild
      rw [grow_of_child?_eq_none hchild]
      refine ⟨⟨h.sprout hs hnew, rfl, ?_, ?_, hasWord_sprout, ?_⟩, ?_, ?_⟩
      · simp
      · intro u hu
        rw [word_sprout, if_neg (Nat.ne_of_lt hu)]
      · simp [accepts_sprout]
      · simp
      · rw [word_sprout, if_pos rfl]

theorem extends_mark {a : Automaton} (h : a.Trie) {s : Nat} (hs : s < a.size) {rule : RuleId}
    (hrule : rule < a.width) : Extends a (a.mark s rule) rule ∅ {a.word s} where
  trie := h.mark s rule
  width := rfl
  size_le := Nat.le_of_eq (size_mark a s rule).symm
  word_eq := fun u _ => word_mark a s rule u
  hasWord_iff := by
    intro w
    rw [hasWord_mark]
    simp
  accepts_iff := by
    intro r w d
    unfold Accepts
    simp only [size_mark, word_mark, mask_mark h hs hrule, Set.mem_singleton_iff]
    constructor
    · rintro ⟨u, hu, rfl, hbit | ⟨rfl, rfl, hd⟩⟩
      · exact .inl ⟨u, hu, rfl, hbit⟩
      · refine .inr ⟨rfl, rfl, ?_⟩
        rw [length_word]
        exact hd
    · rintro (⟨u, hu, rfl, hbit⟩ | ⟨rfl, rfl, hd⟩)
      · exact ⟨u, hu, rfl, .inl hbit⟩
      · rw [length_word] at hd
        exact ⟨s, hs, rfl, .inr ⟨rfl, rfl, hd⟩⟩

/-! ## Inserting a pattern -/

open Pattern

theorem extends_leaf {a : Automaton} (h : a.Trie) {s : Nat} (hs : s < a.size) {rule : RuleId}
    (hrule : rule < a.width) {p : Pattern} (hp : p.subs = []) :
    Extends a ((a.grow s p.symbol).1.mark (a.grow s p.symbol).2 rule) rule
      (beginnings (Spells p) (a.word s)) (ends (Spells p) (a.word s)) := by
  rcases extends_grow h hs p.symbol rule with ⟨hgrow, ht, hword⟩
  have hmark := extends_mark hgrow.trie ht (hgrow.width ▸ hrule)
  have := hgrow.trans hmark
  rw [hword, Set.union_empty, Set.empty_union] at this
  rw [beginnings_leaf hp, ends_leaf hp]
  exact this

mutual

/-- Inserting a pattern below a state adds all beginnings of its spelled paths there, and marks
their ends. -/
theorem extends_insert {a : Automaton} (h : a.Trie) {s : Nat} (hs : s < a.size) {rule : RuleId}
    (hrule : rule < a.width) : (p : Pattern) →
    Extends a (a.insert rule s p) rule (beginnings (Spells p) (a.word s))
      (ends (Spells p) (a.word s))
  | .nt x => extends_leaf h hs hrule (p := .nt x) rfl
  | .node k [] => extends_leaf h hs hrule (p := .node k []) rfl
  | .node k (p :: ps) => by
      rcases extends_grow h hs (.kind k) rule with ⟨hgrow, ht, hword⟩
      have hbelow := extends_insertAll hgrow.trie ht (hgrow.width ▸ hrule) 0 (p :: ps)
      have hspells := spells_node_iff (k := k) (List.cons_ne_nil p ps)
      have hleaf : ∃ v, SpellsBelow 0 (p :: ps) v := by
        rcases exists_spells p with ⟨v, hv⟩
        exact ⟨_, spellsBelow_cons_iff.2 (.inl ⟨v, hv, rfl⟩)⟩
      have := hgrow.trans hbelow
      rw [hword, Set.empty_union, ← beginnings_cons hspells hleaf, ← ends_cons hspells] at this
      exact this

theorem extends_insertAll {a : Automaton} (h : a.Trie) {s : Nat} (hs : s < a.size)
    {rule : RuleId} (hrule : rule < a.width) : (slot : Nat) → (ps : List Pattern) →
    Extends a (a.insertAll rule s slot ps) rule (beginnings (SpellsBelow slot ps) (a.word s))
      (ends (SpellsBelow slot ps) (a.word s))
  | slot, [] => by
      have hnone : ∀ w, ¬ SpellsBelow slot [] w := fun w => not_spellsBelow_nil
      have hbeginnings : beginnings (SpellsBelow slot []) (a.word s) = ∅ := by
        ext w
        simp [beginnings, hnone]
      have hends : ends (SpellsBelow slot []) (a.word s) = ∅ := by
        ext w
        simp [ends, hnone]
      rw [hbeginnings, hends]
      exact .refl h rule
  | slot, p :: ps => by
      rcases extends_grow h hs (.child slot) rule with ⟨hgrow, ht, hword⟩
      have hinsert := extends_insert hgrow.trie ht (hgrow.width ▸ hrule) p
      have hfirst := hgrow.trans hinsert
      have hrest := extends_insertAll hfirst.trie (Nat.lt_of_lt_of_le hs hfirst.size_le)
        (hfirst.width ▸ hrule) (slot + 1) ps
      have := hfirst.trans hrest
      have hcons : ∀ l, (∃ v, Spells p v ∧ l = .child slot :: v) ↔
          ∃ v, Spells p v ∧ l = .child slot :: v := fun _ => Iff.rfl
      rw [hfirst.word_eq s hs, hword, Set.empty_union,
        ← beginnings_cons hcons (exists_spells p), ← ends_cons hcons,
        ← beginnings_or fun _ => spellsBelow_cons_iff, ← ends_or fun _ => spellsBelow_cons_iff]
        at this
      exact this

end

/-! ## The trie of a list of patterns -/

theorem trie_empty (rules : Nat) : (empty rules).Trie where
  nonempty := Nat.one_pos
  root_word := rfl
  unique := by
    intro s t hs ht _
    have hs : s < 1 := hs
    have ht : t < 1 := ht
    omega
  mem_edges_iff := by
    intro s c t hs
    have hs : s = 0 := Nat.lt_one_iff.1 hs
    subst hs
    refine ⟨fun hmem => absurd hmem List.not_mem_nil, ?_⟩
    rintro ⟨ht, hword⟩
    have ht : t = 0 := Nat.lt_one_iff.1 ht
    subst ht
    cases hword
  nodup_edges := by
    intro s hs
    have hs : s = 0 := Nat.lt_one_iff.1 hs
    subst hs
    exact .nil
  closed := by
    rintro w c ⟨s, hs, hword⟩
    have hs : s = 0 := Nat.lt_one_iff.1 hs
    subst hs
    have := congrArg List.length hword
    simp [word, path, empty] at this
  masks := by
    intro s hs
    have hs : s = 0 := Nat.lt_one_iff.1 hs
    subst hs
    exact Array.size_replicate

theorem not_accepts_empty (rules : Nat) (r : RuleId) (w : List Symbol) (d : Nat) :
    ¬ (empty rules).Accepts r w d := by
  rintro ⟨s, hs, -, hbit⟩
  have hs : s = 0 := Nat.lt_one_iff.1 hs
  subst hs
  simp only [mask, accepting, empty, List.size_toArray, List.length_cons, List.length_nil,
    Nat.lt_add_one, getElem?_pos, List.getElem_toArray, List.getElem_cons_zero, Option.map_some,
    Option.getD_some, Array.getD_eq_getD_getElem?, Array.getElem?_replicate] at hbit
  split at hbit <;> simp at hbit

/-- The trie of a list of patterns, one for each rule. -/
def ofPaths (patterns : List Pattern) : Automaton :=
  patterns.zipIdx.foldl (fun a (p, rule) => a.insert rule root p) (empty patterns.length)

/-- Inserting patterns one after the other adds the paths of each for its own rule. -/
theorem foldl_insert_spec (rules : List (Pattern × RuleId)) {a : Automaton} (h : a.Trie)
    (hrules : ∀ p ∈ rules, p.2 < a.width) :
    (rules.foldl (fun a (p, rule) => a.insert rule root p) a).Trie ∧
      (rules.foldl (fun a (p, rule) => a.insert rule root p) a).width = a.width ∧
      (∀ w, (rules.foldl (fun a (p, rule) => a.insert rule root p) a).HasWord w ↔
        a.HasWord w ∨ ∃ p ∈ rules, w ∈ beginnings (Spells p.1) []) ∧
      ∀ r w d, (rules.foldl (fun a (p, rule) => a.insert rule root p) a).Accepts r w d ↔
        a.Accepts r w d ∨ ∃ p ∈ rules, r = p.2 ∧ Spells p.1 w ∧ d < 64 ∧
          d = (w.length - 1) / 2 := by
  induction rules generalizing a with
  | nil => exact ⟨h, rfl, by simp, by simp⟩
  | cons p rest ih =>
      have hinsert := extends_insert h (s := root) h.nonempty (hrules p List.mem_cons_self) p.1
      have hwidth : ∀ q ∈ rest, q.2 < (a.insert p.2 root p.1).width := by
        intro q hq
        rw [hinsert.width]
        exact hrules q (List.mem_cons_of_mem _ hq)
      rcases ih hinsert.trie hwidth with ⟨htrie, hw, hhas, hacc⟩
      have hroot : a.word root = [] := h.root_word
      refine ⟨htrie, hw.trans hinsert.width, ?_, ?_⟩
      · intro w
        refine (hhas w).trans ?_
        rw [hinsert.hasWord_iff, hroot, or_assoc]
        simp only [List.mem_cons, exists_eq_or_imp]
      · intro r w d
        refine (hacc r w d).trans ?_
        rw [hinsert.accepts_iff, hroot, or_assoc]
        simp [ends]

theorem ofPaths_spec (patterns : List Pattern) :
    (ofPaths patterns).Trie ∧ (ofPaths patterns).width = patterns.length ∧
      (∀ w, (ofPaths patterns).HasWord w ↔ (empty patterns.length).HasWord w ∨
        ∃ p ∈ patterns.zipIdx, w ∈ beginnings (Spells p.1) []) ∧
      ∀ r w d, (ofPaths patterns).Accepts r w d ↔ (empty patterns.length).Accepts r w d ∨
        ∃ p ∈ patterns.zipIdx, r = p.2 ∧ Spells p.1 w ∧ d < 64 ∧ d = (w.length - 1) / 2 := by
  refine foldl_insert_spec patterns.zipIdx (trie_empty patterns.length) ?_
  rintro ⟨p, r⟩ hp
  exact (List.getElem?_eq_some_iff.1 (List.mem_zipIdx_iff_getElem?.1 hp)).1

theorem trie_ofPaths (patterns : List Pattern) : (ofPaths patterns).Trie :=
  (ofPaths_spec patterns).1

theorem width_ofPaths (patterns : List Pattern) : (ofPaths patterns).width = patterns.length :=
  (ofPaths_spec patterns).2.1

/-- The states of the trie are the beginnings of the spelled paths. -/
theorem hasWord_ofPaths (patterns : List Pattern) (w : List Symbol) :
    (ofPaths patterns).HasWord w ↔ w = [] ∨ ∃ p ∈ patterns, ∃ l, Spells p l ∧ w <+: l := by
  refine ((ofPaths_spec patterns).2.2.1 w).trans ?_
  constructor
  · rintro (⟨s, hs, rfl⟩ | ⟨⟨p, r⟩, hp, l, v, hl, hv, -, rfl⟩)
    · have hs : s = 0 := Nat.lt_one_iff.1 hs
      subst hs
      exact .inl rfl
    · exact .inr ⟨p, List.mem_of_getElem? (List.mem_zipIdx_iff_getElem?.1 hp), l, hl, hv⟩
  · rintro (rfl | ⟨p, hp, l, hl, hw⟩)
    · exact .inl ⟨root, Nat.one_pos, rfl⟩
    · by_cases hnil : w = []
      · subst hnil
        exact .inl ⟨root, Nat.one_pos, rfl⟩
      · rcases List.mem_iff_getElem?.1 hp with ⟨r, hr⟩
        exact .inr ⟨(p, r), List.mem_zipIdx_iff_getElem?.2 hr, l, w, hl, hw, hnil, rfl⟩

/-- The states of the trie mark the ends of the spelled paths, at half their length. -/
theorem accepts_ofPaths (patterns : List Pattern) (r : RuleId) (w : List Symbol) (d : Nat) :
    (ofPaths patterns).Accepts r w d ↔
      ∃ p, patterns[r]? = some p ∧ Spells p w ∧ d < 64 ∧ d = (w.length - 1) / 2 := by
  refine ((ofPaths_spec patterns).2.2.2 r w d).trans ?_
  constructor
  · rintro (hacc | ⟨⟨p, r'⟩, hp, rfl, hspells⟩)
    · exact absurd hacc (not_accepts_empty _ r w d)
    · exact ⟨p, List.mem_zipIdx_iff_getElem?.1 hp, hspells⟩
  · rintro ⟨p, hp, hspells⟩
    exact .inr ⟨(p, r), List.mem_zipIdx_iff_getElem?.2 hp, rfl, hspells⟩

end Automaton

end Codegen
