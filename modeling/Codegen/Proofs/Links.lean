import Codegen.Automaton.Links
import Codegen.Proofs.Trie
import Mathlib.Data.List.Induction

/-!
# Links — a walk ends in the longest suffix the trie knows

The failure link of a state leads to the longest word of the trie that properly ends its own word.
With such links the transition function keeps a walk at the longest word that ends what was read,
and the masks collected along the links tell which spelled paths end there.

* `Automaton.Longest`             : the state with the longest word that ends a given word
* `Automaton.Linking`             : correct links, and masks collected along them, for some states
* `Automaton.Schedule`            : the orders in which links can be set
* `Automaton.linking_ofPatterns`  : in the automaton of a grammar they are correct for all states
* `Automaton.mask_walk_iff`       : the bits at the end of a walk
-/

namespace Codegen
namespace Automaton

/-! ## Longest suffixes -/

/-- Of the words of the trie that end `w`, the word of `t` is the longest. -/
structure Longest (a : Automaton) (w : List Symbol) (t : Nat) : Prop where
  lt : t < a.size
  suffix : a.word t <:+ w
  max : ∀ u < a.size, a.word u <:+ w → a.word u <:+ a.word t

namespace Trie

variable {a : Automaton} (h : a.Trie)
include h

theorem longest_nil : Longest a [] root where
  lt := h.nonempty
  suffix := by simp [h.root_word]
  max := by
    intro u _ hu
    rw [h.root_word]
    exact hu

/-- The longest suffix is found from the longest suffix of the word without its last symbol. -/
theorem longest_append {w : List Symbol} {c : Symbol} {f t : Nat} (hf : Longest a w f)
    (ht : Longest a (a.word f ++ [c]) t) : Longest a (w ++ [c]) t where
  lt := ht.lt
  suffix := by
    rcases hf.suffix with ⟨v, hv⟩
    refine ht.suffix.trans ⟨v, ?_⟩
    rw [← List.append_assoc, hv]
  max := by
    intro u hu hsuffix
    rcases List.suffix_concat_iff.1 hsuffix with hnil | ⟨q, hq, hqw⟩
    · rw [hnil]
      exact List.nil_suffix
    · -- the word without its last symbol is in the trie too
      rcases h.closed q c ⟨u, hu, hq⟩ with ⟨v, hv, rfl⟩
      refine ht.max u hu ?_
      rw [hq]
      exact List.suffix_concat_iff.2 (.inr ⟨a.word v, rfl, hf.max v hv hqw⟩)

end Trie

/-- A link found for the proper suffixes serves for all of them if the whole word is unknown. -/
theorem Longest.of_tail {a : Automaton} {w : List Symbol} {t : Nat} (ht : Longest a w.tail t)
    (hw : ¬ a.HasWord w) : Longest a w t where
  lt := ht.lt
  suffix := ht.suffix.trans (List.tail_suffix w)
  max := by
    intro u hu hsuffix
    cases w with
    | nil => exact ht.max u hu hsuffix
    | cons x rest =>
        rcases List.suffix_cons_iff.1 hsuffix with heq | hrest
        · exact absurd ⟨u, hu, heq⟩ hw
        · exact ht.max u hu hrest

theorem Longest.length_lt {a : Automaton} {w : List Symbol} {t : Nat} (ht : Longest a w.tail t)
    (hw : w ≠ []) : (a.word t).length < w.length := by
  have hle := ht.suffix.length_le
  have hpos := List.length_pos_iff.2 hw
  rw [List.length_tail] at hle
  omega

/-! ## The transition function -/

/-- The links of all states with a word of at most `n` symbols are correct. -/
def LinkedUpTo (a : Automaton) (n : Nat) : Prop :=
  ∀ u < a.size, u ≠ root → (a.word u).length ≤ n → Longest a (a.word u).tail (a.failure u)

theorem word_ne_nil {a : Automaton} (h : a.Trie) {s : Nat} (hs : s < a.size) (hroot : s ≠ root) :
    a.word s ≠ [] := by
  intro hnil
  exact hroot (h.unique s root hs h.nonempty (hnil.trans h.root_word.symm))

theorem longest_follow {a : Automaton} (h : a.Trie) {n : Nat} (hlinks : LinkedUpTo a n)
    (c : Symbol) {fuel s : Nat} (hs : s < a.size) (hn : (a.word s).length ≤ n)
    (hfuel : (a.word s).length < fuel) : Longest a (a.word s ++ [c]) (a.follow fuel s c) := by
  induction fuel generalizing s with
  | zero => omega
  | succ fuel ih =>
      unfold follow
      cases hchild : a.child? s c with
      | some t =>
          rcases (h.child?_eq_some_iff hs).1 hchild with ⟨ht, hword⟩
          rw [← hword]
          exact ⟨ht, List.suffix_refl _, fun _ _ hu => hu⟩
      | none =>
          have hnew := (h.child?_eq_none_iff hs).1 hchild
          by_cases hroot : s = root
          · subst hroot
            rw [if_pos rfl]
            refine Longest.of_tail ?_ hnew
            rw [h.root_word]
            exact h.longest_nil
          · rw [if_neg hroot]
            have hlink := hlinks s hs hroot hn
            have hlen := hlink.length_lt (word_ne_nil h hs hroot)
            refine Longest.of_tail ?_ hnew
            rw [List.tail_append_of_ne_nil (word_ne_nil h hs hroot)]
            exact h.longest_append hlink (ih hlink.lt (by omega) (by omega))

theorem longest_succ {a : Automaton} (h : a.Trie) {n : Nat} (hlinks : LinkedUpTo a n)
    (c : Symbol) {s : Nat} (hs : s < a.size) (hn : (a.word s).length ≤ n) :
    Longest a (a.word s ++ [c]) (a.succ s c) := by
  refine longest_follow h hlinks c hs hn ?_
  rw [length_word]
  omega

/-! ## Setting one link -/

/-- The state that the link of the state behind the edge `c` of `s` is set to. -/
def linkTarget (a : Automaton) (s : Nat) (c : Symbol) : StateId :=
  if s = root then root else a.succ (a.failure s) c

theorem longest_linkTarget {a : Automaton} (h : a.Trie) {s t : Nat} {c : Symbol}
    (hs : s < a.size) (hlinks : LinkedUpTo a (a.word s).length)
    (ht : a.word t = a.word s ++ [c]) : Longest a (a.word t).tail (a.linkTarget s c) := by
  unfold linkTarget
  rw [ht]
  by_cases hroot : s = root
  · subst hroot
    rw [if_pos rfl, h.root_word]
    exact h.longest_nil
  · rw [if_neg hroot, List.tail_append_of_ne_nil (word_ne_nil h hs hroot)]
    have hlink := hlinks s hs hroot (Nat.le_refl _)
    have hle := hlink.suffix.length_le
    rw [List.length_tail] at hle
    exact h.longest_append hlink (longest_succ h hlinks c hlink.lt (by omega))

/-- No state is linked to itself, so that the search for the link needs no guard against it. -/
theorem linkTarget_ne {a : Automaton} (h : a.Trie) {s t : Nat} {c : Symbol} (hs : s < a.size)
    (hlinks : LinkedUpTo a (a.word s).length) (ht : a.word t = a.word s ++ [c]) :
    a.linkTarget s c ≠ t := by
  intro heq
  have hlonger := (longest_linkTarget h hs hlinks ht).length_lt (by rw [ht]; simp)
  rw [heq] at hlonger
  exact Nat.lt_irrefl _ hlonger

section Link

variable (a : Automaton) (s : Nat) (c : Symbol) (t : Nat)

@[simp] theorem size_link : (a.link s c t).size = a.size := size_modify

@[simp] theorem width_link : (a.link s c t).width = a.width := rfl

@[simp] theorem word_link (u : Nat) : (a.link s c t).word u = a.word u := by
  refine word_modify ?_ u
  intro st
  rfl

@[simp] theorem edges_link (u : Nat) : (a.link s c t).edges u = a.edges u := by
  refine edges_modify ?_ u
  intro st
  rfl

theorem failure_link {t : Nat} (ht : t < a.size) (u : Nat) :
    (a.link s c t).failure u = if u = t then a.linkTarget s c else a.failure u := by
  unfold failure link
  rw [getElem?_modify]
  by_cases hu : t = u
  · subst hu
    have hget : a.states[t]? = some a.states[t] := Array.getElem?_eq_getElem ht
    rw [if_pos rfl, if_pos rfl, hget]
    rfl
  · rw [if_neg hu, if_neg (Ne.symm hu)]

theorem accepting_link_of_ne {t u : Nat} (hne : t ≠ u) :
    (a.link s c t).accepting u = a.accepting u :=
  accepting_modify_of_ne hne

theorem accepting_link_self {t : Nat} (ht : t < a.size) :
    (a.link s c t).accepting t =
      Array.zipWith (· ||| ·) (a.accepting t) (a.accepting (a.linkTarget s c)) :=
  accepting_modify_self ht
    (g := fun masks => Array.zipWith (· ||| ·) masks (a.accepting (a.linkTarget s c))) fun _ => rfl

end Link

theorem Trie.link {a : Automaton} (h : a.Trie) (s : Nat) (c : Symbol) (t : Nat)
    (htarget : a.linkTarget s c < a.size) : (a.link s c t).Trie := by
  unfold Automaton.link
  refine h.modify ?_ ?_ ?_
  · intro st
    rfl
  · intro st
    rfl
  · intro ht
    refine (congrArg Array.size (accepting_link_self a s c ht)).trans ?_
    rw [Array.size_zipWith, h.masks t ht, h.masks _ htarget, Nat.min_self]

theorem mask_link {a : Automaton} (h : a.Trie) (s : Nat) (c : Symbol) {t : Nat}
    (ht : t < a.size) (htarget : a.linkTarget s c < a.size) (u : Nat) (r : RuleId) (d : Nat) :
    ((a.link s c t).mask u r).getLsbD d = true ↔
      (a.mask u r).getLsbD d = true ∨
        (u = t ∧ (a.mask (a.linkTarget s c) r).getLsbD d = true) := by
  unfold mask
  by_cases hu : t = u
  · subst hu
    have hsize : (a.accepting t).size = (a.accepting (a.linkTarget s c)).size := by
      rw [h.masks t ht, h.masks _ htarget]
    rw [accepting_link_self a s c ht]
    simp only [Array.getD_eq_getD_getElem?, Array.getElem?_zipWith]
    by_cases hr : r < (a.accepting t).size
    · rw [Array.getElem?_eq_getElem hr, Array.getElem?_eq_getElem (hsize ▸ hr)]
      simp
    · rw [Array.getElem?_eq_none (Nat.le_of_not_lt hr),
        Array.getElem?_eq_none (hsize ▸ Nat.le_of_not_lt hr)]
      simp
  · rw [accepting_link_of_ne a s c hu]
    simp [Ne.symm hu]

/-! ## Setting all links -/

/-- `a` has the states and words of the trie `b`; the states in `done` have correct links and the
masks of all words that end their own, the others still have the masks they have in `b`. -/
structure Linking (b a : Automaton) (done : Set Nat) : Prop where
  trie : a.Trie
  size : a.size = b.size
  width : a.width = b.width
  word : ∀ u, a.word u = b.word u
  edges : ∀ u, a.edges u = b.edges u
  root_failure : a.failure root = b.failure root
  failure : ∀ u < a.size, u ≠ root → u ∈ done → Longest a (a.word u).tail (a.failure u)
  mask_done : ∀ u < a.size, u ∈ done → ∀ r d,
    (a.mask u r).getLsbD d = true ↔ ∃ w, w <:+ a.word u ∧ b.Accepts r w d
  mask_rest : ∀ u < a.size, u ∉ done → ∀ r, a.mask u r = b.mask u r

theorem accepts_word_iff {b : Automaton} (h : b.Trie) {u : Nat} (hu : u < b.size) (r : RuleId)
    (d : Nat) : b.Accepts r (b.word u) d ↔ (b.mask u r).getLsbD d = true := by
  constructor
  · rintro ⟨v, hv, hword, hbit⟩
    rwa [h.unique v u hv hu hword] at hbit
  · intro hbit
    exact ⟨u, hu, rfl, hbit⟩

theorem linking_start {b : Automaton} (h : b.Trie) : Linking b b {root} where
  trie := h
  size := rfl
  width := rfl
  word := fun _ => rfl
  edges := fun _ => rfl
  root_failure := rfl
  failure := fun _ _ hroot hu => absurd hu hroot
  mask_done := by
    rintro u hu rfl r d
    rw [← accepts_word_iff h hu, h.root_word]
    constructor
    · intro hacc
      exact ⟨[], List.suffix_refl _, hacc⟩
    · rintro ⟨w, hw, hacc⟩
      rwa [List.suffix_nil.1 hw] at hacc
  mask_rest := fun _ _ _ _ => rfl

theorem Longest.congr {a a' : Automaton} (hsize : a'.size = a.size)
    (hword : ∀ u, a'.word u = a.word u) {w : List Symbol} {t : Nat} (h : Longest a w t) :
    Longest a' w t where
  lt := hsize ▸ h.lt
  suffix := by
    rw [hword]
    exact h.suffix
  max := by
    intro u hu
    rw [hword, hword]
    exact h.max u (hsize ▸ hu)

namespace Linking

variable {b a : Automaton} {done : Set Nat}

/-- The words that end the word behind an edge: the word itself, and those that end the word of
its link. -/
theorem exists_suffix_iff (h : Linking b a done) {t target : Nat}
    (hne : a.word t ≠ []) (htarget : Longest a (a.word t).tail target) (r : RuleId) (d : Nat) :
    (∃ w, w <:+ a.word t ∧ b.Accepts r w d) ↔
      b.Accepts r (b.word t) d ∨ ∃ w, w <:+ a.word target ∧ b.Accepts r w d := by
  constructor
  · rintro ⟨w, hw, hacc⟩
    rcases List.exists_cons_of_ne_nil hne with ⟨x, rest, hx⟩
    rw [hx] at hw htarget
    rcases List.suffix_cons_iff.1 hw with heq | hrest
    · rw [← h.word t, hx, ← heq]
      exact .inl hacc
    · rcases hacc with ⟨v, hv, rfl, hbit⟩
      rw [← h.word v] at hrest
      refine .inr ⟨a.word v, htarget.max v (h.size ▸ hv) hrest, ?_⟩
      exact ⟨v, hv, (h.word v).symm, hbit⟩
  · rintro (hacc | ⟨w, hw, hacc⟩)
    · exact ⟨a.word t, List.suffix_refl _, by rw [h.word t]; exact hacc⟩
    · exact ⟨w, (hw.trans htarget.suffix).trans (List.tail_suffix _), hacc⟩

/-- Setting a link when the links of all shorter words are set. -/
theorem link (h : Linking b a done) (hb : b.Trie) {s t : Nat} {c : Symbol}
    (hs : s < a.size) (ht : t < a.size) (hword : a.word t = a.word s ++ [c])
    (hdone : ∀ u < a.size, (a.word u).length ≤ (a.word s).length → u ∈ done) :
    Linking b (a.link s c t) ({t} ∪ done) := by
  have hlinks : LinkedUpTo a (a.word s).length := by
    intro u hu hroot hlen
    exact h.failure u hu hroot (hdone u hu hlen)
  have htarget := longest_linkTarget h.trie hs hlinks hword
  have hne : a.word t ≠ [] := by
    rw [hword]
    simp
  -- the word of the target is no longer than that of `s`, so the masks there are complete
  have htargetDone : a.linkTarget s c ∈ done := by
    refine hdone _ htarget.lt ?_
    have hle := htarget.suffix.length_le
    rw [hword, List.length_tail, List.length_append, List.length_singleton] at hle
    omega
  refine
    { trie := h.trie.link s c t htarget.lt
      size := (size_link a s c t).trans h.size
      width := (width_link a s c t).trans h.width
      word := fun u => (word_link a s c t u).trans (h.word u)
      edges := fun u => (edges_link a s c t u).trans (h.edges u)
      root_failure := ?_
      failure := ?_
      mask_done := ?_
      mask_rest := ?_ }
  · have hroot : root ≠ t := by
      rintro rfl
      exact hne h.trie.root_word
    rw [failure_link a s c ht, if_neg hroot]
    exact h.root_failure
  · intro u hu hroot hmem
    rw [size_link] at hu
    rw [word_link, failure_link a s c ht]
    refine Longest.congr (size_link a s c t) (word_link a s c t) ?_
    split
    · rename_i hut
      rw [hut]
      exact htarget
    · rename_i hut
      exact h.failure u hu hroot (Or.resolve_left hmem hut)
  · intro u hu hmem r d
    rw [size_link] at hu
    rw [word_link, mask_link h.trie s c ht htarget.lt, h.mask_done _ htarget.lt htargetDone]
    by_cases hut : u = t
    · -- the masks of the state itself may have been collected before
      subst hut
      rw [h.exists_suffix_iff hne htarget]
      simp only [true_and]
      by_cases hdone : u ∈ done
      · rw [h.mask_done u hu hdone, h.exists_suffix_iff hne htarget, or_assoc, or_self]
      · rw [h.mask_rest u hu hdone, accepts_word_iff hb (h.size ▸ hu)]
    · rw [h.mask_done u hu (Or.resolve_left hmem hut)]
      simp [hut]
  · intro u hu hmem r
    rw [size_link] at hu
    have hut : t ≠ u := fun heq => hmem (.inl heq.symm)
    unfold mask
    rw [accepting_link_of_ne a s c hut]
    exact h.mask_rest u hu (fun hdone => hmem (.inr hdone)) r

end Linking

/-! ## The order of the links -/

theorem le_foldl_max (l : List State) (h₀ : Nat) :
    h₀ ≤ l.foldl (fun h st => max h st.path.length) h₀ ∧
      ∀ st ∈ l, st.path.length ≤ l.foldl (fun h st => max h st.path.length) h₀ := by
  induction l generalizing h₀ with
  | nil => exact ⟨Nat.le_refl _, by simp⟩
  | cons st rest ih =>
      rcases ih (max h₀ st.path.length) with ⟨hstart, hrest⟩
      refine ⟨Nat.le_trans (Nat.le_max_left _ _) hstart, ?_⟩
      intro st' hst'
      rcases List.mem_cons.1 hst' with rfl | hst'
      · exact Nat.le_trans (Nat.le_max_right _ _) hstart
      · exact hrest st' hst'

theorem mem_levels_iff {b : Automaton} {s : Nat} : s ∈ b.levels ↔ s < b.size := by
  unfold levels
  simp only [List.mem_flatMap, List.mem_filter, List.mem_range, decide_eq_true_eq]
  constructor
  · rintro ⟨n, -, hs, -⟩
    exact hs
  · intro hs
    refine ⟨b.length s, ?_, hs, rfl⟩
    have hget : b.states[s]? = some b.states[s] := Array.getElem?_eq_getElem hs
    have hlen : b.length s = b.states[s].path.length := by
      simp [length, path, hget]
    rw [hlen, ← Array.foldl_toList]
    exact Nat.lt_succ_of_le ((le_foldl_max _ 0).2 _ (Array.getElem_mem_toList hs))

theorem pairwise_levels (b : Automaton) :
    b.levels.Pairwise fun s t => (b.word s).length ≤ (b.word t).length := by
  unfold levels
  simp only [length_word]
  rw [List.pairwise_flatMap]
  constructor
  · intro n _
    refine List.pairwise_iff_forall_sublist.2 ?_
    intro s t hsub
    have hs := hsub.mem List.mem_cons_self
    have ht := hsub.mem (List.mem_cons_of_mem s List.mem_cons_self)
    rw [of_decide_eq_true (List.mem_filter.1 hs).2, of_decide_eq_true (List.mem_filter.1 ht).2]
  · refine List.pairwise_lt_range.imp ?_
    intro n m hnm s hs t ht
    rw [of_decide_eq_true (List.mem_filter.1 hs).2, of_decide_eq_true (List.mem_filter.1 ht).2]
    exact Nat.le_of_lt hnm

/-- The edges of a state, with the state they leave. -/
def stepsFrom (b : Automaton) (s : Nat) : List (Nat × Symbol × Nat) :=
  (b.edges s).map fun e => (s, e)

theorem foldl_linkEdges {b : Automaton} (states : List Nat) {a : Automaton}
    (hedges : ∀ u, a.edges u = b.edges u) :
    states.foldl linkEdges a =
      (states.flatMap b.stepsFrom).foldl (fun a (s, c, t) => a.link s c t) a := by
  have hlink : ∀ (l : List (Nat × Symbol × Nat)) (a : Automaton) (u : Nat),
      (l.foldl (fun a (s, c, t) => a.link s c t) a).edges u = a.edges u := by
    intro l
    induction l with
    | nil => exact fun _ _ => rfl
    | cons x rest ih =>
        intro a u
        rw [List.foldl_cons, ih, edges_link]
  induction states generalizing a with
  | nil => rfl
  | cons s rest ih =>
      have hfirst : a.linkEdges s = (b.stepsFrom s).foldl (fun a (s, c, t) => a.link s c t) a := by
        unfold linkEdges stepsFrom
        rw [hedges, List.foldl_map]
      rw [List.foldl_cons, List.flatMap_cons, List.foldl_append, hfirst]
      refine ih ?_
      intro u
      rw [hlink, hedges]

/-- An order in which links can be set: every edge has its turn, and the edges come in the order of
the words they leave. -/
structure Schedule (b : Automaton) (steps : List (Nat × Symbol × Nat)) : Prop where
  mem_iff : ∀ (s : Nat) (c : Symbol) (t : Nat), (s, c, t) ∈ steps ↔
    s < b.size ∧ t < b.size ∧ b.word t = b.word s ++ [c]
  sorted : steps.Pairwise fun x y => (b.word x.1).length ≤ (b.word y.1).length

/-- The edges of all states, the states in the order of their words. -/
theorem schedule_flatMap {b : Automaton} (h : b.Trie) {states : List Nat}
    {edges : Nat → List (Symbol × Nat)} (hall : ∀ s, s ∈ states ↔ s < b.size)
    (hsorted : states.Pairwise fun s t => (b.word s).length ≤ (b.word t).length)
    (hedges : ∀ s < b.size, ∀ e, e ∈ edges s ↔ e ∈ b.edges s) :
    Schedule b (states.flatMap fun s => (edges s).map fun e => (s, e)) where
  mem_iff s c t := by
    simp only [List.mem_flatMap, List.mem_map, Prod.mk.injEq, hall]
    constructor
    · rintro ⟨_, hs, _, hedge, rfl, rfl⟩
      exact ⟨hs, (h.mem_edges_iff _ _ _ hs).1 ((hedges _ hs _).1 hedge)⟩
    · rintro ⟨hs, hedge⟩
      exact ⟨s, hs, (c, t), (hedges s hs _).2 ((h.mem_edges_iff s c t hs).2 hedge), rfl, rfl⟩
  sorted := by
    rw [List.pairwise_flatMap]
    constructor
    · intro s _
      rw [List.pairwise_map]
      exact List.pairwise_of_forall fun _ _ => Nat.le_refl _
    · refine hsorted.imp ?_
      rintro s t hle _ hx _ hy
      rcases List.mem_map.1 hx with ⟨_, -, rfl⟩
      rcases List.mem_map.1 hy with ⟨_, -, rfl⟩
      exact hle

/-- Every state but the root is behind an edge, from the state with the word before. -/
theorem Trie.exists_parent {b : Automaton} (h : b.Trie) {u : Nat} (hu : u < b.size)
    (hroot : u ≠ root) : ∃ v c, v < b.size ∧ b.word u = b.word v ++ [c] := by
  have hsplit := List.dropLast_concat_getLast (word_ne_nil h hu hroot)
  rcases h.closed _ _ ⟨u, hu, hsplit.symm⟩ with ⟨v, hv, hvword⟩
  rw [← hvword] at hsplit
  exact ⟨v, _, hv, hsplit.symm⟩

/-- The root, and the states behind the edges of a list. -/
def behind (steps : List (Nat × Symbol × Nat)) : Set Nat :=
  {u | u = root ∨ ∃ x ∈ steps, x.2.2 = u}

theorem behind_concat (steps : List (Nat × Symbol × Nat)) (s : Nat) (c : Symbol) (t : Nat) :
    behind (steps ++ [(s, c, t)]) = {t} ∪ behind steps := by
  ext u
  constructor
  · rintro (hu | ⟨x, hx, hxu⟩)
    · exact .inr (.inl hu)
    · rcases List.mem_append.1 hx with hx | hx
      · exact .inr (.inr ⟨x, hx, hxu⟩)
      · cases List.mem_singleton.1 hx
        exact .inl hxu.symm
  · rintro (rfl | hu | ⟨x, hx, hxu⟩)
    · exact .inr ⟨_, List.mem_append_right _ (List.mem_singleton.2 rfl), rfl⟩
    · exact .inl hu
    · exact .inr ⟨x, List.mem_append_left _ hx, hxu⟩

/-- The edges come in the order of the words they leave, so when it is the turn of an edge from `s`,
all states with words no longer than that of `s` are behind earlier ones. -/
theorem Schedule.mem_behind {b : Automaton} (h : b.Trie)
    {processed rest : List (Nat × Symbol × Nat)} {s t u : Nat} {c : Symbol}
    (hsteps : Schedule b (processed ++ (s, c, t) :: rest)) (hu : u < b.size)
    (hle : (b.word u).length ≤ (b.word s).length) : u ∈ behind processed := by
  by_cases hroot : u = root
  · exact .inl hroot
  · rcases h.exists_parent hu hroot with ⟨v, e, hv, hword⟩
    have hstep := (hsteps.mem_iff v e u).2 ⟨hv, hu, hword⟩
    rcases List.mem_append.1 hstep with hbefore | hafter
    · exact .inr ⟨_, hbefore, rfl⟩
    · -- an edge from `s` on leaves a word that is at least as long
      have hge : (b.word s).length ≤ (b.word v).length := by
        rcases List.mem_cons.1 hafter with heq | hrest
        · cases heq
          exact Nat.le_refl _
        · exact (List.pairwise_cons.1 (List.pairwise_append.1 hsteps.sorted).2.1).1 _ hrest
      rw [hword, List.length_append, List.length_singleton] at hle
      omega

section Steps

variable {b a : Automaton} {processed rest : List (Nat × Symbol × Nat)} {s t : Nat} {c : Symbol}

/-- When it is the turn of an edge from `s`, the links of all states with words no longer than that
of `s` are correct. -/
theorem Linking.linkedUpTo (h : Linking b a (behind processed)) (hb : b.Trie)
    (hsteps : Schedule b (processed ++ (s, c, t) :: rest)) : LinkedUpTo a (a.word s).length := by
  intro u hu hroot hle
  rw [h.word, h.word] at hle
  exact h.failure u hu hroot (hsteps.mem_behind hb (h.size ▸ hu) hle)

theorem Linking.step (h : Linking b a (behind processed)) (hb : b.Trie)
    (hsteps : Schedule b (processed ++ (s, c, t) :: rest)) :
    Linking b (a.link s c t) (behind (processed ++ [(s, c, t)])) := by
  have hmem := List.mem_append_right processed (List.mem_cons_self (a := (s, c, t)) (l := rest))
  rcases (hsteps.mem_iff s c t).1 hmem with ⟨hs, ht, hword⟩
  rw [behind_concat]
  refine h.link hb (h.size ▸ hs) (h.size ▸ ht) (by rw [h.word, h.word]; exact hword) ?_
  intro u hu hle
  rw [h.word, h.word] at hle
  exact hsteps.mem_behind hb (h.size ▸ hu) hle

end Steps

/-- Setting links in order of word length sets them all correctly. -/
theorem linking_foldl {b : Automaton} (hb : b.Trie) {processed rest : List (Nat × Symbol × Nat)}
    (hsteps : Schedule b (processed ++ rest)) {a : Automaton}
    (h : Linking b a (behind processed)) :
    Linking b (rest.foldl (fun a (s, c, t) => a.link s c t) a) (behind (processed ++ rest)) := by
  induction rest generalizing processed a with
  | nil => simpa using h
  | cons x rest ih =>
      have hnext := h.step hb hsteps
      rw [← List.singleton_append, ← List.append_assoc] at hsteps ⊢
      exact ih hsteps hnext

/-- With all links set in the order of a schedule, every link is correct, and every mask collects
those of all words that end the word of its state. -/
theorem linking_schedule {b : Automaton} (hb : b.Trie) {steps : List (Nat × Symbol × Nat)}
    (hsteps : Schedule b steps) :
    Linking b (steps.foldl (fun a (s, c, t) => a.link s c t) b) Set.univ := by
  have hstart : Linking b b (behind []) := by
    simpa [behind] using linking_start hb
  have h := linking_foldl hb (show Schedule b ([] ++ steps) from hsteps) hstart
  have hall : ∀ u < b.size, u ∈ behind ([] ++ steps) := by
    intro u hu
    by_cases hroot : u = root
    · exact .inl hroot
    · rcases hb.exists_parent hu hroot with ⟨v, c, hv, hword⟩
      exact .inr ⟨(v, c, u), (hsteps.mem_iff v c u).2 ⟨hv, hu, hword⟩, rfl⟩
  refine
    { h with
      failure := fun u hu hroot _ => h.failure u hu hroot (hall u (h.size ▸ hu))
      mask_done := fun u hu _ => h.mask_done u hu (hall u (h.size ▸ hu))
      mask_rest := fun u _ hnot => absurd (Set.mem_univ u) hnot }

theorem linking_linkAll {b : Automaton} (hb : b.Trie) : Linking b b.linkAll Set.univ := by
  unfold linkAll
  rw [foldl_linkEdges b.levels fun _ => rfl]
  apply linking_schedule hb
  exact schedule_flatMap hb (fun _ => mem_levels_iff) (pairwise_levels b) fun _ _ _ => Iff.rfl

/-! ## Walks -/

theorem longest_walk {b a : Automaton} (h : Linking b a Set.univ) (w : List Symbol) :
    Longest a w (a.walk w) := by
  have hlinks : ∀ n, LinkedUpTo a n := fun n u hu hroot _ => h.failure u hu hroot (Set.mem_univ u)
  induction w using List.reverseRecOn with
  | nil => exact h.trie.longest_nil
  | append_singleton w c ih =>
      have hwalk : a.walk (w ++ [c]) = a.succ (a.walk w) c := by
        simp [walk]
      rw [hwalk]
      exact h.trie.longest_append ih (longest_succ h.trie (hlinks _) c ih.lt (Nat.le_refl _))

theorem linking_ofPatterns (patterns : List Pattern) :
    Linking (ofPaths patterns) (ofPatterns patterns) Set.univ :=
  linking_linkAll (trie_ofPaths patterns)

/-- After every word there is one mask for each pattern. -/
theorem size_accepting_walk (patterns : List Pattern) (w : List Symbol) :
    ((ofPatterns patterns).accepting ((ofPatterns patterns).walk w)).size = patterns.length := by
  have h := linking_ofPatterns patterns
  rw [h.trie.masks _ (longest_walk h w).lt, h.width, width_ofPaths]

/-- At the end of a walk, bit `d` of a rule tells that a path spelled by its pattern, with the leaf
at depth `d`, ends the word that was read. -/
theorem mask_walk_iff (patterns : List Pattern) (w : List Symbol) (r : RuleId) (d : Nat) :
    ((ofPatterns patterns).mask ((ofPatterns patterns).walk w) r).getLsbD d = true ↔
      ∃ p v, patterns[r]? = some p ∧ p.Spells v ∧ v <:+ w ∧ d < 64 ∧ d = (v.length - 1) / 2 := by
  have h := linking_ofPatterns patterns
  have hlongest := longest_walk h w
  rw [h.mask_done _ hlongest.lt (Set.mem_univ _)]
  constructor
  · rintro ⟨v, hv, hacc⟩
    rcases (accepts_ofPaths patterns r v d).1 hacc with ⟨p, hp, hspells, hd⟩
    exact ⟨p, v, hp, hspells, hv.trans hlongest.suffix, hd⟩
  · rintro ⟨p, v, hp, hspells, hv, hd⟩
    have hacc := (accepts_ofPaths patterns r v d).2 ⟨p, hp, hspells, hd⟩
    refine ⟨v, ?_, hacc⟩
    rcases hacc with ⟨u, hu, rfl, -⟩
    rw [← h.word u] at hv ⊢
    exact hlongest.max u (h.size ▸ hu) hv

end Automaton
end Codegen
