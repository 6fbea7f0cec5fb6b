import Codegen.Proofs.Links
import Mathlib.Data.List.Nodup
import Mathlib.Data.List.Perm.Subperm

/-!
# Sweep — links do not depend on the order of the edges

A breadth-first sweep takes states from a queue, one after the other.  It links the states behind
the edges of the state it has taken, and queues them.  In which order the edges of a state come is
left open; whatever it is, the states come up in the order of their words, so that the sweep ends
with the links and the masks that are determined by the words alone.

* `Automaton.Sweeps`          : the sweep, with the edges of every state enumerated in some order
* `Automaton.Linking.unique`  : correct links and complete masks are unique
* `Automaton.Frontier`        : the invariant of the sweep
* `Automaton.sweeps_iff`      : every sweep ends, and all end alike
-/

namespace Codegen
namespace Automaton

/-- A sweep that starts with the states of a queue takes one automaton to another; `enumerate` lists
the edges of a state. -/
inductive Sweeps (enumerate : Nat → List (Symbol × Nat)) : List Nat → Automaton → Automaton → Prop
  | done (a : Automaton) : Sweeps enumerate [] a a
  | visit {s : Nat} {queue : List Nat} {a a' : Automaton} :
      Sweeps enumerate (queue ++ (enumerate s).map Prod.snd)
        ((enumerate s).foldl (fun a (c, t) => a.link s c t) a) a' →
      Sweeps enumerate (s :: queue) a a'

theorem Sweeps.unique {enumerate : Nat → List (Symbol × Nat)} {queue : List Nat}
    {b a a' : Automaton} (h : Sweeps enumerate queue b a) (h' : Sweeps enumerate queue b a') :
    a = a' := by
  induction h with
  | done =>
      cases h'
      rfl
  | visit _ ih =>
      cases h' with
      | visit hrest => exact ih hrest

/-! ## Links and masks are determined by the words -/

theorem getElem?_states {a : Automaton} {u : Nat} (hu : u < a.size) :
    a.states[u]? = some ⟨a.path u, a.edges u, a.failure u, a.accepting u⟩ := by
  have hget : a.states[u]? = some a.states[u] := Array.getElem?_eq_getElem hu
  simp [path, edges, failure, accepting, hget]

theorem Longest.unique {a : Automaton} (h : a.Trie) {w : List Symbol} {t u : Nat}
    (ht : Longest a w t) (hu : Longest a w u) : t = u := by
  have htu : a.word t <:+ a.word u := hu.max t ht.lt ht.suffix
  have hut : a.word u <:+ a.word t := ht.max u hu.lt hu.suffix
  exact h.unique t u ht.lt hu.lt (htu.eq_of_length_le hut.length_le)

section

variable {b a a' : Automaton} (h : Linking b a Set.univ) (h' : Linking b a' Set.univ)
include h h'

theorem Linking.failure_unique {u : Nat} (hu : u < b.size) : a.failure u = a'.failure u := by
  by_cases hroot : u = root
  · subst hroot
    exact h.root_failure.trans h'.root_failure.symm
  · have hsize : a'.size = a.size := h'.size.trans h.size.symm
    have hword : ∀ v, a'.word v = a.word v := fun v => (h'.word v).trans (h.word v).symm
    have hlink := h.failure u (h.size ▸ hu) hroot (Set.mem_univ u)
    have hlink' := h'.failure u (h'.size ▸ hu) hroot (Set.mem_univ u)
    rw [hword u] at hlink'
    exact (hlink.congr hsize hword).unique h'.trie hlink'

theorem Linking.accepting_unique {u : Nat} (hu : u < b.size) : a.accepting u = a'.accepting u := by
  have hsize := h.trie.masks u (h.size ▸ hu)
  have hsize' := h'.trie.masks u (h'.size ▸ hu)
  refine Array.ext (hsize.trans (h.width.trans (h'.width.symm.trans hsize'.symm))) ?_
  intro r hr hr'
  -- bit by bit, the two masks tell which words end the word of the state
  have hmask : a.mask u r = a'.mask u r := by
    apply BitVec.eq_of_getLsbD_eq
    intro d _
    rw [Bool.eq_iff_iff, h.mask_done u (h.size ▸ hu) (Set.mem_univ u),
      h'.mask_done u (h'.size ▸ hu) (Set.mem_univ u), h.word, h'.word]
  simpa [mask, Array.getD_eq_getD_getElem?, hr, hr'] using hmask

/-- There is one way to complete a trie with links and masks. -/
theorem Linking.unique : a = a' := by
  have hstates : a.states = a'.states := by
    apply Array.ext_getElem?
    intro u
    by_cases hu : u < b.size
    · have hpath : a.path u = a'.path u :=
        List.reverse_injective ((h.word u).trans (h'.word u).symm)
      rw [getElem?_states (h.size ▸ hu), getElem?_states (h'.size ▸ hu), hpath,
        (h.edges u).trans (h'.edges u).symm, h.failure_unique h' hu, h.accepting_unique h' hu]
    · have hsize : a.states.size ≤ u := h.size.le.trans (Nat.not_lt.1 hu)
      have hsize' : a'.states.size ≤ u := h'.size.le.trans (Nat.not_lt.1 hu)
      rw [Array.getElem?_eq_none hsize, Array.getElem?_eq_none hsize']
  have hwidth : a.width = a'.width := h.width.trans h'.width.symm
  cases a
  cases a'
  rw [Automaton.mk.injEq]
  exact ⟨hstates, hwidth⟩

end

/-! ## The sweep -/

theorem Trie.length_word_of_edge {b : Automaton} (h : b.Trie) {s t : Nat} {c : Symbol}
    (hs : s < b.size) (hedge : (c, t) ∈ b.edges s) :
    (b.word t).length = (b.word s).length + 1 := by
  rw [((h.mem_edges_iff s c t hs).1 hedge).2, List.length_append, List.length_singleton]

/-- One state is not behind two edges. -/
theorem Trie.nodup_targets {b : Automaton} (h : b.Trie) {s : Nat} (hs : s < b.size) :
    ((b.edges s).map Prod.snd).Nodup := by
  refine List.Nodup.map_on ?_ (h.nodup_edges s hs)
  rintro ⟨c, t⟩ hc ⟨e, _⟩ he rfl
  have hcword := ((h.mem_edges_iff s c t hs).1 hc).2
  have heword := ((h.mem_edges_iff s e t hs).1 he).2
  rw [hcword, List.append_cancel_left_eq, List.singleton_inj] at heword
  rw [heword]

/-- The states taken so far and the queue: together they are sorted by their words, no two are the
same, and those behind the edges of a state come in when it is taken. -/
structure Frontier (b : Automaton) (taken queue : List Nat) : Prop where
  nodup : (taken ++ queue).Nodup
  inside : ∀ u ∈ taken ++ queue, u < b.size
  root_mem : root ∈ taken ++ queue
  closed : ∀ s ∈ taken, ∀ c t, (c, t) ∈ b.edges s → t ∈ taken ++ queue
  entered : ∀ t ∈ taken ++ queue, t = root ∨ ∃ s ∈ taken, ∃ c, (c, t) ∈ b.edges s
  sorted : (taken ++ queue).Pairwise fun s t => (b.word s).length ≤ (b.word t).length
  level : ∀ s ∈ queue, ∀ t ∈ queue, (b.word t).length ≤ (b.word s).length + 1

theorem frontier_root {b : Automaton} (h : b.Trie) : Frontier b [] [root] where
  nodup := List.pairwise_singleton _ _
  inside u hu := by
    rw [List.mem_singleton.1 hu]
    exact h.nonempty
  root_mem := List.mem_singleton_self _
  closed s hs := absurd hs List.not_mem_nil
  entered t ht := .inl (List.mem_singleton.1 ht)
  sorted := List.pairwise_singleton _ _
  level s hs t ht := by
    rw [List.mem_singleton.1 hs, List.mem_singleton.1 ht]
    exact Nat.le_succ _

namespace Frontier

variable {b : Automaton} {taken queue : List Nat} {s : Nat}

/-- The words of the states that came in so far are longer than that of the next state to be taken
by one symbol at most. -/
theorem length_le_succ (h : Frontier b taken (s :: queue)) {u : Nat}
    (hu : u ∈ taken ++ s :: queue) : (b.word u).length ≤ (b.word s).length + 1 := by
  rcases List.mem_append.1 hu with htaken | hqueue
  · have hle := (List.pairwise_append.1 h.sorted).2.2 u htaken s List.mem_cons_self
    exact Nat.le_succ_of_le hle
  · exact h.level s List.mem_cons_self u hqueue

/-- A state behind an edge of the next state to be taken has not come in yet. -/
theorem not_mem_of_edge (h : Frontier b taken (s :: queue)) (hb : b.Trie) {c : Symbol} {t : Nat}
    (hedge : (c, t) ∈ b.edges s) : t ∉ taken ++ s :: queue := by
  intro ht
  have hs : s < b.size := h.inside s (List.mem_append_right _ List.mem_cons_self)
  have hword := ((hb.mem_edges_iff s c t hs).1 hedge).2
  rcases h.entered t ht with rfl | ⟨v, hv, e, he⟩
  · rw [hb.root_word] at hword
    simp at hword
  · -- it came in with the state whose word is one symbol shorter: that is `s`, taken before
    have hvsize := h.inside v (List.mem_append_left _ hv)
    have hvword := ((hb.mem_edges_iff v e t hvsize).1 he).2
    rw [hword] at hvword
    have heq := hb.unique s v hs hvsize (List.append_inj' hvword rfl).1
    subst heq
    exact (List.nodup_append.1 h.nodup).2.2 s hv s List.mem_cons_self rfl

/-- The state at the head of the queue is taken, and the states behind its edges are queued. -/
theorem take (h : Frontier b taken (s :: queue)) (hb : b.Trie) {edges : List (Symbol × Nat)}
    (hperm : edges.Perm (b.edges s)) :
    Frontier b (taken ++ [s]) (queue ++ edges.map Prod.snd) := by
  have hs : s < b.size := h.inside s (List.mem_append_right _ List.mem_cons_self)
  have hmem : ∀ t, t ∈ edges.map Prod.snd ↔ ∃ c, (c, t) ∈ b.edges s := by
    intro t
    simp [hperm.mem_iff]
  have hlength : ∀ t ∈ edges.map Prod.snd, (b.word t).length = (b.word s).length + 1 := by
    intro t ht
    rcases (hmem t).1 ht with ⟨c, hc⟩
    exact hb.length_word_of_edge hs hc
  have hlist : (taken ++ [s]) ++ (queue ++ edges.map Prod.snd) =
      (taken ++ s :: queue) ++ edges.map Prod.snd := by simp
  refine ⟨?_, ?_, ?_, ?_, ?_, ?_, ?_⟩
  · -- a state behind an edge is queued when the one before it is taken, and not earlier
    rw [hlist]
    refine List.nodup_append.2 ⟨h.nodup, ?_, ?_⟩
    · exact (hperm.map Prod.snd).nodup_iff.2 (hb.nodup_targets hs)
    · rintro u hu t ht rfl
      rcases (hmem u).1 ht with ⟨c, hc⟩
      exact h.not_mem_of_edge hb hc hu
  · intro u hu
    rw [hlist] at hu
    rcases List.mem_append.1 hu with hu | hu
    · exact h.inside u hu
    · rcases (hmem u).1 hu with ⟨c, hc⟩
      exact ((hb.mem_edges_iff s c u hs).1 hc).1
  · rw [hlist]
    exact List.mem_append_left _ h.root_mem
  · -- what is behind an edge of a taken state was queued, or is now
    intro v hv c t ht
    rw [hlist]
    rcases List.mem_append.1 hv with hv | hv
    · exact List.mem_append_left _ (h.closed v hv c t ht)
    · rw [List.mem_singleton.1 hv] at ht
      exact List.mem_append_right _ ((hmem t).2 ⟨c, ht⟩)
  · intro t ht
    rw [hlist] at ht
    rcases List.mem_append.1 ht with ht | ht
    · refine (h.entered t ht).imp_right ?_
      rintro ⟨v, hv, hedge⟩
      exact ⟨v, List.mem_append_left _ hv, hedge⟩
    · exact .inr ⟨s, List.mem_append_right _ (List.mem_singleton_self s), (hmem t).1 ht⟩
  · rw [hlist]
    refine List.pairwise_append.2 ⟨h.sorted, ?_, ?_⟩
    · refine List.pairwise_iff_forall_sublist.2 ?_
      intro u t hsub
      rw [hlength u (hsub.mem List.mem_cons_self), hlength t (hsub.mem (by simp))]
    · intro u hu t ht
      rw [hlength t ht]
      exact h.length_le_succ hu
  · -- the words in the new queue have the length of that of `s`, or one symbol more
    have hnew : ∀ u ∈ queue ++ edges.map Prod.snd, (b.word s).length ≤ (b.word u).length ∧
        (b.word u).length ≤ (b.word s).length + 1 := by
      intro u hu
      rcases List.mem_append.1 hu with hu | hu
      · have hsorted := (List.pairwise_append.1 h.sorted).2.1
        exact ⟨(List.pairwise_cons.1 hsorted).1 u hu,
          h.length_le_succ (List.mem_append_right _ (List.mem_cons_of_mem s hu))⟩
      · rw [hlength u hu]
        exact ⟨Nat.le_succ _, Nat.le_refl _⟩
    intro u hu t ht
    have hu := (hnew u hu).1
    have ht := (hnew t ht).2
    omega

/-- When the queue is empty, all states have been taken. -/
theorem mem_taken_iff (h : Frontier b taken []) (hb : b.Trie) (u : Nat) :
    u ∈ taken ↔ u < b.size := by
  constructor
  · intro hu
    exact h.inside u (List.mem_append_left _ hu)
  · intro hu
    have hall : ∀ n u, u < b.size → (b.word u).length ≤ n → u ∈ taken := by
      intro n
      induction n with
      | zero =>
          intro u hu hlen
          have hnil := List.length_eq_zero_iff.1 (Nat.le_zero.1 hlen)
          have hroot := hb.unique u root hu hb.nonempty (hnil.trans hb.root_word.symm)
          rw [hroot]
          simpa using h.root_mem
      | succ n ih =>
          intro u hu hlen
          by_cases hroot : u = root
          · rw [hroot]
            simpa using h.root_mem
          · -- the state with the word before was taken, and `u` was queued then
            rcases hb.exists_parent hu hroot with ⟨v, c, hv, hword⟩
            rw [hword, List.length_append, List.length_singleton] at hlen
            have hedge := (hb.mem_edges_iff v c u hv).2 ⟨hu, hword⟩
            simpa using h.closed v (ih v hv (Nat.le_of_succ_le_succ hlen)) c u hedge
    exact hall _ u hu (Nat.le_refl _)

theorem length_le (h : Frontier b taken queue) : (taken ++ queue).length ≤ b.size := by
  have hsub : taken ++ queue ⊆ List.range b.size :=
    fun u hu => List.mem_range.2 (h.inside u hu)
  calc (taken ++ queue).length
    _ ≤ (List.range b.size).length := (List.subperm_of_subset h.nodup hsub).length_le
    _ = b.size := List.length_range

end Frontier

/-- From any point on, a sweep ends after all edges have had their turn. -/
theorem exists_sweeps {b : Automaton} (hb : b.Trie) {enumerate : Nat → List (Symbol × Nat)}
    (henum : ∀ s < b.size, (enumerate s).Perm (b.edges s)) (taken queue : List Nat)
    (h : Frontier b taken queue) :
    ∃ order : List Nat, Schedule b (order.flatMap fun s => (enumerate s).map fun e => (s, e)) ∧
      Sweeps enumerate queue
        ((taken.flatMap fun s => (enumerate s).map fun e => (s, e)).foldl
          (fun a (s, c, t) => a.link s c t) b)
        ((order.flatMap fun s => (enumerate s).map fun e => (s, e)).foldl
          (fun a (s, c, t) => a.link s c t) b) := by
  match queue, h with
  | [], h =>
      refine ⟨taken, ?_, .done _⟩
      refine schedule_flatMap hb (h.mem_taken_iff hb) (by simpa using h.sorted) ?_
      intro s hs e
      exact (henum s hs).mem_iff
  | s :: queue, h =>
      have hs : s < b.size := h.inside s (List.mem_append_right _ List.mem_cons_self)
      have hlength : taken.length < b.size := by
        have hle := h.length_le
        rw [List.length_append, List.length_cons] at hle
        omega
      rcases exists_sweeps hb henum (taken ++ [s]) _ (h.take hb (henum s hs)) with
        ⟨order, hschedule, hsweeps⟩
      refine ⟨order, hschedule, .visit ?_⟩
      rwa [List.flatMap_append, List.foldl_append, List.flatMap_singleton, List.foldl_map]
        at hsweeps
termination_by b.size - taken.length
decreasing_by
  simp only [List.length_append, List.length_singleton]
  omega

/-- In whatever order the edges of the states are enumerated, the breadth-first sweep from the root
of a trie ends, and it ends with the same links and masks. -/
theorem sweeps_iff {b : Automaton} (hb : b.Trie) {enumerate : Nat → List (Symbol × Nat)}
    (henum : ∀ s < b.size, (enumerate s).Perm (b.edges s)) (a : Automaton) :
    Sweeps enumerate [root] b a ↔ a = b.linkAll := by
  have hends : Sweeps enumerate [root] b b.linkAll := by
    rcases exists_sweeps hb henum [] [root] (frontier_root hb) with ⟨order, hschedule, hsweeps⟩
    rwa [(linking_schedule hb hschedule).unique (linking_linkAll hb)] at hsweeps
  constructor
  · intro h
    exact h.unique hends
  · rintro rfl
    exact hends

end Automaton
end Codegen
