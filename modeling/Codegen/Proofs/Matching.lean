import Codegen.Proofs.Links
import Codegen.Proofs.Tree

/-!
# Matching — patterns laid over trees

* `Pattern.Matches`   : a pattern lies over a node, given which nonterminals are recorded where
* `Pattern.LeafAfter` : a leaf of a pattern whose way down can be read off the end of a word
* `Pattern.Partial`   : so can the way down to a sub-pattern that matches a node
* `Pattern.partial_iff` : the three ways in which a node can be matched in part: by a leaf of its
  kind, by what all of its children agree on one level up, and by a recorded nonterminal
-/

namespace Codegen
namespace Pattern

/-! ## Matches -/

mutual

/-- A node position matches a node of its kind whose children match its sub-patterns in order; a
nonterminal matches a node that it is recorded for. -/
def Matches (a : Arena) (recorded : NodeId → Nonterminal → Prop) : Pattern → NodeId → Prop
  | .nt x, id => recorded id x
  | .node k subs, id =>
      ∃ n, a.get? id = some n ∧ n.kind = k ∧ MatchesAll a recorded subs n.children

/-- Patterns and nodes match one by one. -/
def MatchesAll (a : Arena) (recorded : NodeId → Nonterminal → Prop) :
    List Pattern → List NodeId → Prop
  | [], [] => True
  | p :: ps, id :: ids => Matches a recorded p id ∧ MatchesAll a recorded ps ids
  | _, _ => False

end

variable {a : Arena} {recorded recorded' : NodeId → Nonterminal → Prop}

theorem matchesAll_iff {ps : List Pattern} {ids : List NodeId} :
    MatchesAll a recorded ps ids ↔ ps.length = ids.length ∧
      ∀ (slot : Nat) (p : Pattern) (id : NodeId), ps[slot]? = some p → ids[slot]? = some id →
        Matches a recorded p id := by
  induction ps generalizing ids with
  | nil =>
      cases ids with
      | nil => simp [MatchesAll]
      | cons id ids => simp [MatchesAll]
  | cons p ps ih =>
      cases ids with
      | nil => simp [MatchesAll]
      | cons id ids =>
          rw [MatchesAll, ih]
          constructor
          · rintro ⟨hfirst, hlen, hrest⟩
            refine ⟨by simp [hlen], ?_⟩
            rintro (_ | slot) q m hq hm
            · cases hq
              cases hm
              exact hfirst
            · exact hrest slot q m hq hm
          · rintro ⟨hlen, hall⟩
            refine ⟨hall 0 p id rfl rfl, by simpa using hlen, ?_⟩
            intro slot q m hq hm
            exact hall (slot + 1) q m hq hm

theorem MatchesAll.get {ps : List Pattern} {ids : List NodeId}
    (h : MatchesAll a recorded ps ids) {slot : Nat} {p : Pattern} {id : NodeId}
    (hp : ps[slot]? = some p) (hid : ids[slot]? = some id) : Matches a recorded p id :=
  (matchesAll_iff.1 h).2 slot p id hp hid

mutual

/-- Whether a pattern matches depends on what is recorded at the node and below it. -/
theorem Matches.mono : (p : Pattern) → {id : NodeId} →
    (∀ m x, a.Below Node.children id m → recorded m x → recorded' m x) →
    Matches a recorded p id → Matches a recorded' p id
  | .nt x, id, hrec, h => hrec id x (.refl id) h
  | .node _ subs, id, hrec, ⟨n, hn, hkind, hall⟩ => by
      refine ⟨n, hn, hkind, MatchesAll.mono subs ?_ hall⟩
      intro child hchild m x hm
      exact hrec m x ((Arena.Below.of_mem hn hchild).trans hm)

theorem MatchesAll.mono : (ps : List Pattern) → {ids : List NodeId} →
    (∀ id ∈ ids, ∀ m x, a.Below Node.children id m → recorded m x → recorded' m x) →
    MatchesAll a recorded ps ids → MatchesAll a recorded' ps ids
  | [], [], _, _ => trivial
  | p :: ps, _ :: _, hrec, ⟨hfirst, hrest⟩ =>
      ⟨Matches.mono p (hrec _ List.mem_cons_self) hfirst,
        MatchesAll.mono ps (fun id hid => hrec id (List.mem_cons_of_mem _ hid)) hrest⟩

end

/-! ## Ways down a pattern -/

namespace At

variable {p q r : Pattern} {v w : List Symbol}

theorem append (h : At p v r) (h' : At r w q) : At p (v ++ w) q := by
  induction h with
  | root => exact h'
  | step hsub _ ih => exact .step hsub (ih h')

theorem split {u : List Symbol} (h : At p u q) (hu : u = v ++ w) (heven : 2 ∣ v.length) :
    ∃ r, At p v r ∧ At r w q := by
  induction h generalizing v with
  | root p =>
      rcases List.append_eq_nil_iff.1 hu.symm with ⟨rfl, rfl⟩
      exact ⟨p, .root p, .root p⟩
  | @step k subs slot sub q u hsub hat ih =>
      match v with
      | [] =>
          rw [List.nil_append] at hu
          exact ⟨.node k subs, .root _, hu ▸ .step hsub hat⟩
      | [_] => simp at heven
      | s :: s' :: v =>
          simp only [List.cons_append, List.cons.injEq] at hu
          rcases hu with ⟨rfl, rfl, hu⟩
          simp only [List.length_cons] at heven
          rcases ih hu (by omega) with ⟨r, hr, hq⟩
          exact ⟨r, .step hsub hr, hq⟩

theorem two_dvd_length (h : At p w q) : 2 ∣ w.length := by
  induction h with
  | root => exact Nat.dvd_zero 2
  | step _ _ ih =>
      simp only [List.length_cons]
      omega

theorem unique (h : At p w q) (h' : At p w r) : q = r := by
  induction h with
  | root =>
      cases h'
      rfl
  | step hsub _ ih =>
      cases h' with
      | step hsub' hat' =>
          cases hsub.symm.trans hsub'
          exact ih hat'

/-- One level further down. -/
theorem append_slot_iff {k : NodeKind} {slot : Nat} (heven : 2 ∣ v.length) :
    At p (v ++ [.kind k, .child slot]) q ↔
      ∃ subs, At p v (.node k subs) ∧ subs[slot]? = some q := by
  constructor
  · intro h
    rcases h.split rfl heven with ⟨r, hr, hslot⟩
    cases hslot with
    | step hsub hat =>
        cases hat
        exact ⟨_, hr, hsub⟩
  · rintro ⟨subs, hat, hsub⟩
    exact hat.append (.step hsub (.root q))

end At

theorem depth_lt_depthBelow {subs : List Pattern} {slot : Nat} {sub : Pattern}
    (h : subs[slot]? = some sub) : sub.depth < depthBelow subs := by
  induction subs generalizing slot with
  | nil => simp at h
  | cons p ps ih =>
      rw [depthBelow]
      cases slot with
      | zero =>
          cases h
          omega
      | succ slot =>
          have hrest : ps[slot]? = some sub := h
          have := ih hrest
          omega

theorem At.length_le {p q : Pattern} {w : List Symbol} (h : At p w q) :
    w.length ≤ 2 * p.depth := by
  induction h with
  | root => exact Nat.zero_le _
  | step hsub _ ih =>
      have := depth_lt_depthBelow hsub
      simp only [List.length_cons, depth]
      omega

theorem misfit?_of_misfitAmong? {subs : List Pattern} {slot : Nat} {sub : Pattern}
    (h : misfitAmong? subs = none) (hsub : subs[slot]? = some sub) : sub.misfit? = none := by
  induction subs generalizing slot with
  | nil => simp at hsub
  | cons p ps ih =>
      rw [misfitAmong?, Option.or_eq_none_iff] at h
      cases slot with
      | zero =>
          cases hsub
          exact h.1
      | succ slot => exact ih h.2 hsub

/-- All positions of a pattern without a misfit have as many sub-patterns as their arity. -/
theorem At.length_subs {p : Pattern} {w : List Symbol} {k : NodeKind} {subs : List Pattern}
    (h : At p w (.node k subs)) (hfits : p.misfit? = none) : subs.length = k.arity := by
  generalize hq : Pattern.node k subs = q at h
  induction h with
  | root p =>
      subst hq
      rw [misfit?] at hfits
      split at hfits
      · assumption
      · cases hfits
  | step hsub _ ih =>
      rw [misfit?] at hfits
      split at hfits
      · exact ih (misfit?_of_misfitAmong? hfits hsub) hq
      · cases hfits

/-! ## Partial matches -/

/-- The end of `w` spells the way down `d` levels of `p`, to a leaf `c`. -/
def LeafAfter (p : Pattern) (w : List Symbol) (c : Symbol) (d : Nat) : Prop :=
  ∃ v q, At p v q ∧ v <:+ w ∧ v.length = 2 * d ∧ q.subs = [] ∧ q.symbol = c

/-- The end of `w` spells the way down `d` levels of `p`, to a sub-pattern that matches `id`. -/
def Partial (a : Arena) (recorded : NodeId → Nonterminal → Prop) (p : Pattern) (w : List Symbol)
    (id : NodeId) (d : Nat) : Prop :=
  ∃ v q, At p v q ∧ v <:+ w ∧ v.length = 2 * d ∧ Matches a recorded q id

theorem suffix_append_slot {u w : List Symbol} {c c' : Symbol} {d : Nat}
    (h : u <:+ w ++ [c, c']) (hlen : u.length = 2 * (d + 1)) :
    ∃ v, u = v ++ [c, c'] ∧ v <:+ w ∧ v.length = 2 * d := by
  have hslot : [c, c'] <:+ u := by
    refine List.suffix_of_suffix_length_le (List.suffix_append w [c, c']) h ?_
    simp only [List.length_cons, List.length_nil]
    omega
  rcases hslot with ⟨v, rfl⟩
  refine ⟨v, rfl, List.suffix_append_self_iff.1 h, ?_⟩
  simp only [List.length_append, List.length_cons, List.length_nil] at hlen
  omega

section

variable {p : Pattern} {w : List Symbol} {id : NodeId} {n : Node} {d : Nat}

/-- If all children of a node agree on a partial match one level up, then the position above them
matches the node. -/
theorem partial_of_children (hfits : p.misfit? = none) (hn : a.get? id = some n)
    (hne : n.children ≠ [])
    (h : ∀ (slot : Nat) (child : NodeId), n.children[slot]? = some child →
      Partial a recorded p (w ++ [.kind n.kind, .child slot]) child (d + 1)) :
    Partial a recorded p w id d := by
  -- the way down to the position, and its sub-patterns, are found from the first child
  have hparent : ∀ (slot : Nat) (child : NodeId), n.children[slot]? = some child →
      ∃ v subs q, At p v (.node n.kind subs) ∧ v <:+ w ∧ v.length = 2 * d ∧
        subs[slot]? = some q ∧ Matches a recorded q child := by
    intro slot child hchild
    rcases h slot child hchild with ⟨u, q, hat, hsuffix, hlen, hq⟩
    rcases suffix_append_slot hsuffix hlen with ⟨v, rfl, hv, hvlen⟩
    rcases (At.append_slot_iff ⟨d, hvlen⟩).1 hat with ⟨subs, hsubs, hslot⟩
    exact ⟨v, subs, q, hsubs, hv, hvlen, hslot, hq⟩
  rcases List.exists_cons_of_ne_nil hne with ⟨first, others, hfirst⟩
  rcases hparent 0 first (by rw [hfirst]; rfl) with ⟨v, subs, _, hat, hv, hvlen, _, _⟩
  refine ⟨v, .node n.kind subs, hat, hv, hvlen, n, hn, rfl, matchesAll_iff.2 ⟨?_, ?_⟩⟩
  · rw [hat.length_subs hfits, Node.length_children]
  · intro slot sub child hsub hchild
    -- two ends of `w` of the same length are the same word, so all children mean one position
    rcases hparent slot child hchild with ⟨v', subs', q, hat', hv', hvlen', hslot, hq⟩
    have hvv : v' = v :=
      (List.suffix_of_suffix_length_le hv' hv (hvlen' ▸ hvlen ▸ Nat.le_refl _)).eq_of_length
        (hvlen'.trans hvlen.symm)
    subst hvv
    cases hat.unique hat'
    cases hsub.symm.trans hslot
    exact hq

/-- A node is matched in part by a leaf of its kind, by what all of its children agree on one level
up, or by a nonterminal that is recorded for it. -/
theorem partial_iff (hfits : p.misfit? = none) (hn : a.get? id = some n) :
    Partial a recorded p w id d ↔
      LeafAfter p w (.kind n.kind) d ∨
      (n.children ≠ [] ∧ ∀ (slot : Nat) (child : NodeId), n.children[slot]? = some child →
        Partial a recorded p (w ++ [.kind n.kind, .child slot]) child (d + 1)) ∨
      ∃ x, recorded id x ∧ LeafAfter p w (.nt x) d := by
  constructor
  · rintro ⟨v, q, hat, hv, hlen, hq⟩
    cases q with
    | nt x => exact .inr (.inr ⟨x, hq, v, _, hat, hv, hlen, rfl, rfl⟩)
    | node k subs =>
        rcases hq with ⟨n', hn', rfl, hall⟩
        cases hn.symm.trans hn'
        have hsubs := hat.length_subs hfits
        -- a position without sub-patterns is a leaf; any other has one for each child of the node
        cases subs with
        | nil => exact .inl ⟨v, _, hat, hv, hlen, rfl, rfl⟩
        | cons sub subs =>
            refine .inr (.inl ⟨?_, ?_⟩)
            · intro hnil
              rw [← Node.length_children, hnil] at hsubs
              cases hsubs
            · intro slot child hchild
              have hlt : slot < (sub :: subs).length := by
                rw [hsubs, ← Node.length_children]
                exact (List.getElem?_eq_some_iff.1 hchild).1
              have hsub := List.getElem?_eq_getElem hlt
              refine ⟨v ++ [.kind n.kind, .child slot], _, ?_, ?_, ?_, hall.get hsub hchild⟩
              · exact (At.append_slot_iff ⟨d, hlen⟩).2 ⟨_, hat, hsub⟩
              · exact List.suffix_append_self_iff.2 hv
              · simp only [List.length_append, hlen, List.length_cons, List.length_nil]
                omega
  · rintro (⟨v, q, hat, hv, hlen, hleaf, hsymbol⟩ | ⟨hne, hall⟩ |
      ⟨x, hx, v, q, hat, hv, hlen, -, hsymbol⟩)
    · cases q with
      | nt x => cases hsymbol
      | node k subs =>
          cases hsymbol
          cases hleaf
          have harity := hat.length_subs hfits
          refine ⟨v, _, hat, hv, hlen, n, hn, rfl, matchesAll_iff.2 ⟨?_, by simp⟩⟩
          rw [harity, Node.length_children]
    · exact partial_of_children hfits hn hne hall
    · cases q with
      | nt x => cases hsymbol; exact ⟨v, _, hat, hv, hlen, hx⟩
      | node k subs => cases hsymbol

end

/-- The whole pattern is what lies no levels down. -/
theorem partial_zero_iff {p : Pattern} {w : List Symbol} {id : NodeId} :
    Partial a recorded p w id 0 ↔ Matches a recorded p id := by
  constructor
  · rintro ⟨v, q, hat, -, hlen, hq⟩
    rw [List.length_eq_zero_iff.1 hlen] at hat
    cases hat
    exact hq
  · intro h
    exact ⟨[], p, .root p, List.nil_suffix, rfl, h⟩

end Pattern

/-! ## Masks -/

/-- The mask of a rule after `w` and `c` tells of the leaves `c` of its pattern. -/
theorem Automaton.mask_walk_append_iff (patterns : List Pattern) (w : List Symbol) (c : Symbol)
    (r : RuleId) (d : Nat) :
    ((ofPatterns patterns).mask ((ofPatterns patterns).walk (w ++ [c])) r).getLsbD d = true ↔
      d < 64 ∧ ∃ p, patterns[r]? = some p ∧ p.LeafAfter w c d := by
  rw [mask_walk_iff]
  constructor
  · rintro ⟨p, _, hp, ⟨v, q, hat, hleaf, rfl⟩, hsuffix, hd, hlen⟩
    rcases List.suffix_concat_iff.1 hsuffix with hnil | ⟨t, heq, ht⟩
    · simp at hnil
    · rcases List.append_inj' heq rfl with ⟨rfl, hc⟩
      have heven := hat.two_dvd_length
      rw [List.length_append, List.length_singleton] at hlen
      exact ⟨hd, p, hp, v, q, hat, ht, by omega, hleaf, List.singleton_inj.1 hc⟩
  · rintro ⟨hd, p, hp, v, q, hat, hv, hlen, hleaf, rfl⟩
    refine ⟨p, v ++ [q.symbol], hp, ⟨v, q, hat, hleaf, rfl⟩, ?_, hd, ?_⟩
    · exact List.suffix_append_self_iff.2 hv
    · rw [List.length_append, List.length_singleton, hlen]
      omega

end Codegen
