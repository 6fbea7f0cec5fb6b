import Codegen.Proofs.Settling
import Codegen.Proofs.Sweep
import Codegen.X64.Rules

/-!
# Recognition — what the automaton of a grammar knows

The states of the automaton are the beginnings of the paths that lead to the leaves of the patterns.
Its links and its transition function go from suffix to suffix, the longest known one first, and the
masks at the end of a walk tell which paths the walk has just finished.

* `Pattern.LeafAt`           : the path to a leaf, and how deep the leaf lies
* `Grammar.Begins`           : the words that begin such a path
* `Automaton.state?`         : the state at the end of the edges that spell a word
* `Automaton.Follows`        : the search for an edge along the failure links
* `Target.mask_walk_leafAt`  : the masks at the end of a walk
* `Target.automaton_exact`   : the states, the links and the transitions
-/

namespace Codegen

/-! ## Paths to leaves -/

/-- `w` spells the way from the root of a pattern to one of its leaves, which lies `d` levels
down. -/
inductive Pattern.LeafAt : Pattern → Nat → List Symbol → Prop
  | leaf {p : Pattern} : p.subs = [] → LeafAt p 0 [p.symbol]
  | step {k : NodeKind} {subs : List Pattern} {slot d : Nat} {sub : Pattern} {w : List Symbol} :
      subs[slot]? = some sub → LeafAt sub d w →
      LeafAt (.node k subs) (d + 1) (.kind k :: .child slot :: w)

namespace Pattern

theorem LeafAt.length {p : Pattern} {d : Nat} {w : List Symbol} (h : LeafAt p d w) :
    w.length = 2 * d + 1 := by
  induction h with
  | leaf => rfl
  | step _ _ ih =>
      simp only [List.length_cons, ih]
      omega

theorem LeafAt.spells {p : Pattern} {d : Nat} {w : List Symbol} (h : LeafAt p d w) :
    Spells p w := by
  induction h with
  | leaf hleaf => exact (spells_of_subs_eq_nil hleaf _).2 rfl
  | step hsub _ ih =>
      rcases ih with ⟨v, q, hat, hleaf, rfl⟩
      exact ⟨_, q, .step hsub hat, hleaf, rfl⟩

theorem LeafAt.le_depth {p : Pattern} {d : Nat} {w : List Symbol} (h : LeafAt p d w) :
    d ≤ p.depth := by
  induction h with
  | leaf => exact Nat.zero_le _
  | step hsub _ ih =>
      have := depth_lt_depthBelow hsub
      rw [depth]
      omega

theorem spells_iff_exists_leafAt {p : Pattern} {w : List Symbol} :
    Spells p w ↔ ∃ d, LeafAt p d w := by
  constructor
  · rintro ⟨v, q, hat, hleaf, rfl⟩
    induction hat with
    | root => exact ⟨0, .leaf hleaf⟩
    | step hsub _ ih =>
        rcases ih hleaf with ⟨d, hd⟩
        exact ⟨d + 1, .step hsub hd⟩
  · rintro ⟨d, hd⟩
    exact hd.spells

end Pattern

/-- `w` begins the path to a leaf of one of the patterns. -/
def Grammar.Begins (g : Grammar) (w : List Symbol) : Prop :=
  w = [] ∨ ∃ r ∈ g.rules, ∃ l d, r.pattern.LeafAt d l ∧ w <+: l

/-- Of the words with the property `P`, `v` is the longest that ends `w`. -/
structure LongestSuffix (P : List Symbol → Prop) (w v : List Symbol) : Prop where
  suffix : v <:+ w
  holds : P v
  longest : ∀ u, u <:+ w → P u → u.length ≤ v.length

/-! ## States by their words -/

namespace Automaton

/-- The state at the end of the edges that spell a word from the root on. -/
def state? (a : Automaton) (w : List Symbol) : Option StateId :=
  w.foldlM a.child? root

/-- Looking for an edge `c` at a state, and along its failure links as long as there is none, ends
in a second state. -/
inductive Follows (a : Automaton) (c : Symbol) : StateId → StateId → Prop
  | edge {s t : StateId} : a.child? s c = some t → Follows a c s t
  | root : a.child? root c = none → Follows a c root root
  | failure {s t : StateId} :
      a.child? s c = none → s ≠ root → Follows a c (a.failure s) t → Follows a c s t

theorem state?_eq_some_iff {a : Automaton} (h : a.Trie) {w : List Symbol} {u : StateId} :
    a.state? w = some u ↔ u < a.size ∧ a.word u = w := by
  induction w using List.reverseRecOn generalizing u with
  | nil =>
      constructor
      · intro hu
        cases hu
        exact ⟨h.nonempty, h.root_word⟩
      · rintro ⟨hu, hword⟩
        rw [h.unique u root hu h.nonempty (hword.trans h.root_word.symm)]
        rfl
  | append_singleton w c ih =>
      have hstep : a.state? (w ++ [c]) = (a.state? w).bind (a.child? · c) := by
        simp [state?, List.foldlM_append]
      rw [hstep, Option.bind_eq_some_iff]
      constructor
      · rintro ⟨v, hv, hchild⟩
        rcases ih.1 hv with ⟨hvsize, rfl⟩
        exact (h.child?_eq_some_iff hvsize).1 hchild
      · rintro ⟨hu, hword⟩
        rcases h.closed w c ⟨u, hu, hword⟩ with ⟨v, hv, rfl⟩
        exact ⟨v, ih.2 ⟨hv, rfl⟩, (h.child?_eq_some_iff hv).2 ⟨hu, hword⟩⟩

theorem follows_follow {a : Automaton} (h : a.Trie) (hlinks : ∀ n, LinkedUpTo a n) (c : Symbol)
    {fuel s : Nat} (hs : s < a.size) (hfuel : (a.word s).length < fuel) :
    Follows a c s (a.follow fuel s c) := by
  induction fuel generalizing s with
  | zero => omega
  | succ fuel ih =>
      unfold follow
      cases hchild : a.child? s c with
      | some t => exact .edge hchild
      | none =>
          by_cases hroot : s = root
          · subst hroot
            rw [if_pos rfl]
            exact .root hchild
          · -- the word behind the link is shorter, so there is fuel left for it
            have hlink := hlinks _ s hs hroot (Nat.le_refl _)
            have hlen := hlink.length_lt (word_ne_nil h hs hroot)
            rw [if_neg hroot]
            exact .failure hchild hroot (ih hlink.lt (by omega))

theorem follows_succ {a : Automaton} (h : a.Trie) (hlinks : ∀ n, LinkedUpTo a n) (c : Symbol)
    {s : Nat} (hs : s < a.size) : Follows a c s (a.succ s c) := by
  refine follows_follow h hlinks c hs ?_
  rw [length_word]
  exact Nat.lt_succ_self _

/-- The states of an automaton are the words with a property, and its links and transitions lead to
the longest suffixes that are such words. -/
structure Exact (a : Automaton) (P : List Symbol → Prop) : Prop where
  root : a.state? [] = some root
  known : ∀ w, (∃ u, a.state? w = some u) ↔ P w
  spelled : ∀ u < a.size, ∃! w, a.state? w = some u
  length : ∀ w u, a.state? w = some u → u < a.size ∧ a.length u = w.length
  failure : ∀ w u, a.state? w = some u → u ≠ Automaton.root →
    ∃ v, a.state? v = some (a.failure u) ∧ LongestSuffix (fun v => P v ∧ v ≠ w) w v
  succ : ∀ w u c, a.state? w = some u → Follows a c u (a.succ u c) ∧
    ∃ v, a.state? v = some (a.succ u c) ∧ LongestSuffix P (w ++ [c]) v

theorem Linking.hasWord_iff {b a : Automaton} {done : Set Nat} (h : Linking b a done)
    (w : List Symbol) : a.HasWord w ↔ b.HasWord w := by
  simp only [HasWord, h.size, h.word]

theorem Linking.exact {b a : Automaton} (h : Linking b a Set.univ) : a.Exact a.HasWord := by
  have hstate : ∀ {w u}, a.state? w = some u ↔ u < a.size ∧ a.word u = w :=
    state?_eq_some_iff h.trie
  have hlinks : ∀ n, LinkedUpTo a n := fun n u hu hroot _ => h.failure u hu hroot (Set.mem_univ u)
  refine ⟨rfl, ?_, ?_, ?_, ?_, ?_⟩
  · intro w
    exact exists_congr fun u => hstate
  · intro u hu
    refine ⟨a.word u, hstate.2 ⟨hu, rfl⟩, ?_⟩
    intro w hw
    exact (hstate.1 hw).2.symm
  · intro w u hu
    rcases hstate.1 hu with ⟨husize, rfl⟩
    exact ⟨husize, (length_word a u).symm⟩
  · intro w u hu hroot
    rcases hstate.1 hu with ⟨husize, rfl⟩
    have hlink := h.failure u husize hroot (Set.mem_univ u)
    have hlen := hlink.length_lt (word_ne_nil h.trie husize hroot)
    refine ⟨_, hstate.2 ⟨hlink.lt, rfl⟩, ?_, ⟨⟨_, hlink.lt, rfl⟩, ?_⟩, ?_⟩
    · exact hlink.suffix.trans (List.tail_suffix _)
    · intro heq
      rw [heq] at hlen
      exact Nat.lt_irrefl _ hlen
    · -- a suffix other than the whole word is a suffix of its tail
      rintro v hv ⟨⟨t, ht, rfl⟩, hne⟩
      refine (hlink.max t ht ?_).length_le
      cases hword : a.word u with
      | nil => exact absurd hword (word_ne_nil h.trie husize hroot)
      | cons c rest =>
          rw [hword] at hv hne
          exact (List.suffix_cons_iff.1 hv).resolve_left hne
  · intro w u c hu
    rcases hstate.1 hu with ⟨husize, rfl⟩
    have hsucc := longest_succ h.trie (hlinks _) c husize (Nat.le_refl _)
    refine ⟨follows_succ h.trie hlinks c husize, _, hstate.2 ⟨hsucc.lt, rfl⟩, ?_⟩
    refine ⟨hsucc.suffix, ⟨_, hsucc.lt, rfl⟩, ?_⟩
    rintro v hv ⟨t, ht, rfl⟩
    exact (hsucc.max t ht hv).length_le

end Automaton

/-! ## The automaton of a grammar -/

namespace Target

/-- After any word, bit `d` of a rule is set exactly if the word ends with a path, of `2 * d + 1`
symbols, to a leaf `d` levels down in the pattern of the rule. -/
theorem mask_walk_leafAt {g : Grammar} {s : Settings} {t : Target}
    (ht : Target.build g s = .ok t) (w : List Symbol) (i : RuleId) (d : Nat) :
    (t.automaton.mask (t.automaton.walk w) i).getLsbD d = true ↔
      ∃ r v, g.rules[i]? = some r ∧ r.pattern.LeafAt d v ∧ v.length = 2 * d + 1 ∧ v <:+ w := by
  rcases built_of_build ht with ⟨rfl, hbuilt⟩
  rw [hbuilt.automaton, Automaton.mask_walk_iff]
  constructor
  · rintro ⟨p, v, hp, hspells, hv, -, hd⟩
    rw [List.getElem?_map, Option.map_eq_some_iff] at hp
    rcases hp with ⟨r, hr, rfl⟩
    rcases Pattern.spells_iff_exists_leafAt.1 hspells with ⟨d', hleaf⟩
    have hlen := hleaf.length
    have : d = d' := by omega
    subst this
    exact ⟨r, v, hr, hleaf, hlen, hv⟩
  · rintro ⟨r, v, hr, hleaf, hlen, hv⟩
    -- no pattern of a checked grammar is deeper than a mask is wide
    have hle := hleaf.le_depth
    have hdepth := hbuilt.depth_le (List.mem_of_getElem? hr)
    simp only [depthLimit] at hdepth
    refine ⟨r.pattern, v, ?_, hleaf.spells, hv, by omega, by omega⟩
    rw [List.getElem?_map, hr]
    rfl

theorem mask_walk_leafAt_x64 :
    ∃ t, Target.build X64.grammar {} = .ok t ∧
      (t.automaton.mask (t.automaton.walk [.kind .assign, .child 0, .kind .deref, .child 0,
        .kind .binary, .child 1, .nt .imm]) 14).getLsbD 2 = true := by
  refine ⟨_, rfl, (mask_walk_leafAt (g := X64.grammar) (s := {}) rfl _ 14 2).2 ?_⟩
  refine ⟨_, [.kind .deref, .child 0, .kind .binary, .child 1, .nt .imm], rfl, ?_, rfl, ?_⟩
  · exact .step rfl (.step rfl (.leaf rfl))
  · exact ⟨[.kind .assign, .child 0], rfl⟩

/-- The states of the automaton are the beginnings of the paths to leaves, each link leads to the
longest proper suffix that is a state, and each transition ends, at the longest suffix that is a
state.  All of this is the same whatever order the edges come in when the links are set. -/
theorem automaton_exact {g : Grammar} {s : Settings} {t : Target}
    (ht : Target.build g s = .ok t) :
    t.automaton.Exact g.Begins ∧
      ∀ enumerate : StateId → List (Symbol × StateId),
        (∀ u < t.automaton.size, (enumerate u).Perm (t.automaton.edges u)) →
        ∀ a, Automaton.Sweeps enumerate [Automaton.root]
          (.ofPaths (g.rules.map Rule.pattern)) a ↔ a = t.automaton := by
  rcases built_of_build ht with ⟨rfl, hbuilt⟩
  rw [hbuilt.automaton]
  have h := Automaton.linking_ofPatterns (t.grammar.rules.map Rule.pattern)
  constructor
  · have hbegins : (Automaton.ofPatterns (t.grammar.rules.map Rule.pattern)).HasWord =
        t.grammar.Begins := by
      funext w
      refine propext ((h.hasWord_iff w).trans ?_)
      rw [Automaton.hasWord_ofPaths]
      simp [Grammar.Begins, Pattern.spells_iff_exists_leafAt]
    rw [← hbegins]
    exact h.exact
  · intro enumerate henum
    refine Automaton.sweeps_iff (Automaton.trie_ofPaths _) ?_
    intro u hu
    rw [← h.edges u]
    exact henum u (h.size ▸ hu)

theorem automaton_exact_x64 :
    ∃ t, Target.build X64.grammar {} = .ok t ∧ t.automaton.Exact X64.grammar.Begins ∧
      Automaton.Sweeps (fun u => (t.automaton.edges u).reverse) [Automaton.root]
        (.ofPaths (X64.grammar.rules.map Rule.pattern)) t.automaton := by
  rcases automaton_exact (g := X64.grammar) (s := {}) rfl with ⟨hexact, hsweeps⟩
  exact ⟨_, rfl, hexact, (hsweeps _ (fun _ _ => List.reverse_perm _) _).2 rfl⟩

end Target
end Codegen
