import Codegen.Proofs.Derivation
import Codegen.Proofs.Run

/-!
# Settling — the masks and choices of one node

While a node is settled, its masks tell at every moment which sub-patterns match it, given the
nonterminals recorded so far: a nonterminal that is newly recorded brings the masks that the
automaton has for it in the node's place.  A choice that is kept lowers the potential of the label,
so the rounds come to an end, and then no rule that matches can improve on a choice.

* `Target.Built`        : what a checked grammar guarantees
* `Target.Enters`       : the word that leads to a place
* `Target.Exact`        : the masks of a node are exact
* `Target.Keeps`        : what the rounds do to a label, one rule after the other
* `Target.settle_keeps` : rounds come to an end if the costs they ask for can be computed
* `Target.Marked`       : the invariant of the rounds
-/

namespace Codegen

/-! ## Labels -/

namespace Label

variable {l : Label} {x : Nonterminal} {c : Choice} {accepting : Array DepthMask}

theorem getLsbD_word_blank (rules : Nat) (rule : RuleId) (d : Nat) :
    ((blank rules).word rule).getLsbD d = false := by
  simp only [blank, word, Array.getD_eq_getD_getElem?, Array.getElem?_replicate]
  split <;> simp

theorem size_words_setBest : (l.setBest x c).words.size = l.words.size := by
  cases x <;> rfl

theorem size_words_accept (h : accepting.size = l.words.size) :
    (l.accept accepting).words.size = l.words.size := by
  simp [accept, h]

theorem word_accept (h : accepting.size = l.words.size) (rule : RuleId) :
    (l.accept accepting).word rule = l.word rule ||| accepting.getD rule 0 := by
  simp only [accept, word, Array.getD_eq_getD_getElem?, Array.getElem?_zipWith]
  by_cases hr : rule < l.words.size
  · have hr' : rule < accepting.size := h ▸ hr
    simp [hr, hr']
  · have hr' : ¬ rule < accepting.size := h ▸ hr
    simp [hr, hr']

theorem potential_setBest_lt (hcost : c.cost ≤ costLimit)
    (h : ∀ c', l.best x = some c' → c.cost < c'.cost) :
    (l.setBest x c).potential < l.potential := by
  have hrest : c.cost < (l.best x).elim (costLimit + 1) Choice.cost := by
    cases hbest : l.best x with
    | none => exact Nat.lt_succ_of_le hcost
    | some c' => exact h c' hbest
  cases x <;> simp only [best] at hrest <;> simp only [setBest, potential, Option.elim_some] <;>
    omega

end Label

namespace LabelTable

variable {t t' : LabelTable} {id m : NodeId} {l : Label} {f : Label → Label}

theorem label?_blank {nodes rules : Nat} (h : m < nodes) :
    (blank nodes rules).label? m = some (.blank rules) := by
  simp [blank, label?, h]

theorem best_blank (nodes rules : Nat) (id : NodeId) (x : Nonterminal) :
    (blank nodes rules).best id x = none := by
  rw [best]
  cases hlabel : (blank nodes rules).label? id with
  | none => rfl
  | some l =>
      rw [label?, blank, Array.getElem?_replicate] at hlabel
      split at hlabel
      · cases hlabel
        cases x <;> rfl
      · cases hlabel

theorem getLsbD_word_blank (nodes rules : Nat) (id : NodeId) (rule : RuleId) (d : Nat) :
    ((blank nodes rules).word id rule).getLsbD d = false := by
  rw [word]
  cases hlabel : (blank nodes rules).label? id with
  | none => exact BitVec.getLsbD_zero
  | some l =>
      rw [label?, blank, Array.getElem?_replicate] at hlabel
      split at hlabel
      · cases hlabel
        exact Label.getLsbD_word_blank rules rule d
      · cases hlabel

theorem covers_of_label? (h : t.label? id = some l) : t.covers id = true :=
  decide_eq_true (Array.getElem?_eq_some_iff.1 h).1

theorem best_of_label? (h : t.label? id = some l) : t.best id = l.best := by
  funext x
  rw [best, h]
  rfl

theorem word_of_label? (h : t.label? id = some l) : t.word id = l.word := by
  funext rule
  rw [word, h]

theorem label?_modify_self (h : t.label? id = some l) :
    (t.modify id f).label? id = some (f l) := by
  rw [label?_modify, if_pos rfl, h]
  rfl

theorem label?_modify_of_ne (h : m ≠ id) : (t.modify id f).label? m = t.label? m := by
  rw [label?_modify, if_neg (Ne.symm h)]

theorem best_congr (h : t'.label? m = t.label? m) : t'.best m = t.best m := by
  funext x
  rw [best, best, h]

theorem word_congr (h : t'.label? m = t.label? m) : t'.word m = t.word m := by
  funext rule
  rw [word, word, h]

/-- A node that is not below `id` keeps what is recorded when the label of `id` changes. -/
theorem records_congr (h : t'.label? m = t.label? m) (x : Nonterminal) :
    t'.Records m x ↔ t.Records m x := by
  rw [Records, Records, best_congr h]

end LabelTable

theorem Pattern.Partial.congr {a : Arena} {t t' : LabelTable} {p : Pattern} {w : List Symbol}
    {id : NodeId} {d : Nat} (h : ∀ m, a.Below Node.children id m → t'.label? m = t.label? m) :
    p.Partial a t'.Records w id d ↔ p.Partial a t.Records w id d := by
  constructor
  · rintro ⟨v, q, hat, hv, hlen, hq⟩
    exact ⟨v, q, hat, hv, hlen, .mono q (fun m x hm => (LabelTable.records_congr (h m hm) x).1) hq⟩
  · rintro ⟨v, q, hat, hv, hlen, hq⟩
    exact ⟨v, q, hat, hv, hlen, .mono q (fun m x hm => (LabelTable.records_congr (h m hm) x).2) hq⟩

/-! ## Targets -/

/-- A grammar that passes its check has settings that do. -/
theorem Grammar.check_settings {g : Grammar} {s : Settings} (h : g.check s = .ok ()) :
    s.check = .ok () := by
  unfold Grammar.check at h
  cases hsettings : s.check with
  | error e =>
      rw [hsettings] at h
      cases h
  | ok _ => rfl

namespace Target

/-- The automaton is that of the rules' patterns, and no rule has a defect. -/
structure Built (t : Target) : Prop where
  automaton : t.automaton = .ofPatterns (t.grammar.rules.map Rule.pattern)
  sound : ∀ r ∈ t.grammar.rules, r.defect? = none

theorem eq_of_build {g : Grammar} {s : Settings} {t : Target} (h : Target.build g s = .ok t) :
    t = { grammar := g, automaton := .ofPatterns (g.rules.map Rule.pattern), settings := s } ∧
      g.check s = .ok () := by
  unfold Target.build at h
  cases hcheck : g.check s with
  | error e =>
      rw [hcheck] at h
      cases h
  | ok _ =>
      rw [hcheck] at h
      cases h
      exact ⟨rfl, rfl⟩

theorem built_of_build {g : Grammar} {s : Settings} {t : Target} (h : Target.build g s = .ok t) :
    t.grammar = g ∧ t.Built := by
  rcases eq_of_build h with ⟨rfl, hcheck⟩
  refine ⟨rfl, rfl, ?_⟩
  intro r hr
  rw [Grammar.check, Grammar.check_settings hcheck] at hcheck
  simp only [bind, Except.bind] at hcheck
  split at hcheck
  · cases hcheck
  · split at hcheck
    · cases hcheck
    · rename_i hnone
      have := List.findSome?_eq_none_iff.1 hnone r hr
      exact Option.map_eq_none_iff.1 this

namespace Built

variable {t : Target} (h : t.Built) {r : Rule}
include h

theorem fits (hr : r ∈ t.grammar.rules) : r.pattern.misfit? = none := by
  have := h.sound r hr
  unfold Rule.defect? at this
  split at this
  · cases this
  · exact Option.map_eq_none_iff.1 this

theorem depth_le (hr : r ∈ t.grammar.rules) : r.pattern.depth ≤ depthLimit := by
  have := h.sound r hr
  unfold Rule.defect? at this
  split at this
  · cases this
  · omega

end Built

/-- Reading a symbol at `place` is reading it after `w`. -/
def Enters (t : Target) (place : Option Place) (w : List Symbol) : Prop :=
  ∀ c, t.automaton.enter place c = t.automaton.walk (w ++ [c])

theorem enters_root (t : Target) : t.Enters none [] := fun _ => rfl

theorem Enters.child {t : Target} {place : Option Place} {w : List Symbol} (h : t.Enters place w)
    (k : NodeKind) (slot : Nat) :
    t.Enters (some { parent := t.automaton.enter place (.kind k), slot })
      (w ++ [.kind k, .child slot]) := by
  intro c
  rw [h (.kind k)]
  simp [Automaton.enter, Automaton.walk]

section

variable {t : Target} (hbuilt : t.Built) {place : Option Place} {w : List Symbol}
  (henters : t.Enters place w)
include hbuilt henters

theorem size_accepting_enter (c : Symbol) :
    (t.automaton.accepting (t.automaton.enter place c)).size = t.grammar.size := by
  rw [henters c, hbuilt.automaton, Automaton.size_accepting_walk, List.length_map]
  rfl

theorem accepting_enter_iff (c : Symbol) (i : RuleId) (d : Nat) :
    ((t.automaton.accepting (t.automaton.enter place c)).getD i 0).getLsbD d = true ↔
      ∃ r, t.grammar.rules[i]? = some r ∧ r.pattern.LeafAfter w c d := by
  have hmask := Automaton.mask_walk_append_iff (t.grammar.rules.map Rule.pattern) w c i d
  rw [← hbuilt.automaton, ← henters c] at hmask
  rw [← Automaton.mask, hmask]
  constructor
  · rintro ⟨-, p, hp, hleaf⟩
    rw [List.getElem?_map] at hp
    rcases Option.map_eq_some_iff.1 hp with ⟨r, hr, rfl⟩
    exact ⟨r, hr, hleaf⟩
  · rintro ⟨r, hr, hleaf⟩
    refine ⟨?_, r.pattern, by rw [List.getElem?_map, hr]; rfl, hleaf⟩
    rcases hleaf with ⟨v, q, hat, -, hlen, -⟩
    have hle := hat.length_le
    have hdepth := hbuilt.depth_le (List.mem_of_getElem? hr)
    unfold depthLimit at hdepth
    omega

end

/-! ## Exact masks -/

/-- The masks of `id`, which `w` leads to, tell the partial matches there. -/
def Exact (t : Target) (arena : Arena) (table : LabelTable) (w : List Symbol) (id : NodeId) :
    Prop :=
  ∀ i d, (table.word id i).getLsbD d = true ↔
    ∃ r, t.grammar.rules[i]? = some r ∧ r.pattern.Partial arena table.Records w id d

/-- The masks of `id` are exact, and all costs recorded there and below are those of
derivations. -/
structure Marked (t : Target) (arena : Arena) (table : LabelTable) (w : List Symbol)
    (id : NodeId) : Prop where
  label : ∃ l, table.label? id = some l ∧ l.words.size = t.grammar.size
  exact : t.Exact arena table w id
  realized : ∀ m, arena.Below Node.children id m → table.Realized t.grammar arena m

theorem Exact.congr {t : Target} {arena : Arena} {table table' : LabelTable} {w : List Symbol}
    {id : NodeId} (h : t.Exact arena table w id)
    (hsame : ∀ m, arena.Below Node.children id m → table'.label? m = table.label? m) :
    t.Exact arena table' w id := by
  intro i d
  rw [LabelTable.word_congr (hsame id (.refl id)), h i d]
  refine exists_congr fun r => and_congr_right fun _ => ?_
  exact (Pattern.Partial.congr hsame).symm

section

variable {t : Target} {arena : Arena} {table table' : LabelTable} {w : List Symbol} {id : NodeId}
  {n : Node}

/-- What the children of a node agree on does not depend on the label of the node. -/
theorem partial_children_congr (htree : arena.IsTree Node.children id)
    (hn : arena.get? id = some n) (hothers : ∀ m ≠ id, table'.label? m = table.label? m)
    {p : Pattern} {d slot : Nat} {child : NodeId} (hchild : n.children[slot]? = some child) :
    p.Partial arena table'.Records w child d ↔ p.Partial arena table.Records w child d := by
  refine Pattern.Partial.congr fun m hm => hothers m ?_
  exact htree.ne_of_below_child hn hchild hm

/-- Recording one more nonterminal at a node adds the partial matches that end in it. -/
theorem partial_record_iff (htree : arena.IsTree Node.children id) (hn : arena.get? id = some n)
    (hothers : ∀ m ≠ id, table'.label? m = table.label? m) {x : Nonterminal}
    (hrecords : ∀ y, table'.Records id y ↔ y = x ∨ table.Records id y) {p : Pattern}
    (hfits : p.misfit? = none) {d : Nat} :
    p.Partial arena table'.Records w id d ↔
      p.Partial arena table.Records w id d ∨ p.LeafAfter w (.nt x) d := by
  rw [Pattern.partial_iff hfits hn, Pattern.partial_iff hfits hn]
  constructor
  · rintro (hleaf | ⟨hne, hall⟩ | ⟨y, hy, hleaf⟩)
    · exact .inl (.inl hleaf)
    · refine .inl (.inr (.inl ⟨hne, fun slot child hchild => ?_⟩))
      exact (partial_children_congr htree hn hothers hchild).1 (hall slot child hchild)
    · rcases (hrecords y).1 hy with rfl | hy
      · exact .inr hleaf
      · exact .inl (.inr (.inr ⟨y, hy, hleaf⟩))
  · rintro ((hleaf | ⟨hne, hall⟩ | ⟨y, hy, hleaf⟩) | hleaf)
    · exact .inl hleaf
    · refine .inr (.inl ⟨hne, fun slot child hchild => ?_⟩)
      exact (partial_children_congr htree hn hothers hchild).2 (hall slot child hchild)
    · exact .inr (.inr ⟨y, (hrecords y).2 (.inr hy), hleaf⟩)
    · exact .inr (.inr ⟨x, (hrecords x).2 (.inl rfl), hleaf⟩)

end

/-! ## Keeping a choice -/

/-- The table with the choice `c` recorded for `id` and `x`, and the masks that `x` brings. -/
def kept (t : Target) (place : Option Place) (table : LabelTable) (id : NodeId) (x : Nonterminal)
    (c : Choice) : LabelTable :=
  (table.modify id (·.setBest x c)).modify id
    (·.accept (t.automaton.accepting (t.automaton.enter place (.nt x))))

section

variable {t : Target} {place : Option Place} {table : LabelTable} {id : NodeId} {x : Nonterminal}
  {c : Choice}

theorem label?_kept {l : Label} (h : table.label? id = some l) :
    (t.kept place table id x c).label? id =
      some ((l.setBest x c).accept (t.automaton.accepting (t.automaton.enter place (.nt x)))) :=
  LabelTable.label?_modify_self (LabelTable.label?_modify_self h)

theorem label?_kept_of_ne {m : NodeId} (h : m ≠ id) :
    (t.kept place table id x c).label? m = table.label? m :=
  (LabelTable.label?_modify_of_ne h).trans (LabelTable.label?_modify_of_ne h)

theorem best_kept {l : Label} (h : table.label? id = some l) (y : Nonterminal) :
    (t.kept place table id x c).best id y = if y = x then some c else table.best id y := by
  rw [LabelTable.best_of_label? (label?_kept h), Label.best_accept, Label.best_setBest,
    LabelTable.best_of_label? h]

end

/-- A choice that is kept at its price costs as much as a derivation. -/
theorem Realized.kept {t : Target} (hbuilt : t.Built) {arena : Arena} {place : Option Place}
    {table : LabelTable} {id : NodeId} {l : Label} (hl : table.label? id = some l) {i : RuleId}
    {r : Rule} (hr : t.grammar.rules[i]? = some r)
    (hbelow : ∀ m, arena.Below Node.children id m → table.Realized t.grammar arena m) {cost : Nat}
    (hprice : table.price? arena r id = .ok (some cost)) {m : NodeId}
    (h : table.Realized t.grammar arena m) :
    (t.kept place table id r.result { cost, rule := i }).Realized t.grammar arena m := by
  intro y c hc
  by_cases hm : m = id
  · subst hm
    rw [best_kept hl] at hc
    split at hc
    · rename_i hy
      cases hc
      have hfits := hbuilt.fits (List.mem_of_getElem? hr)
      rcases LabelTable.covers_of_price? hfits hbelow hprice with ⟨base, k, hbase, hcovers, hcost⟩
      exact ⟨r, base, k, hr, hy.symm, hbase, hcovers, hcost⟩
    · exact h y c hc
  · rw [LabelTable.best_congr (label?_kept_of_ne hm)] at hc
    exact h y c hc

theorem run_relabel {l : Labeling} {id : NodeId} {old : Label} (h : l.table.label? id = some old)
    (f : Label → Label) :
    (LabelM.relabel id f).run l = .ok () { l with table := l.table.modify id f } := by
  simp [LabelM.relabel, LabelTable.covers_of_label? h]

theorem run_relabel_none {l : Labeling} {id : NodeId} (h : l.table.label? id = none)
    (f : Label → Label) : (LabelM.relabel id f).run l = .error (.outsideTable id) l := by
  have hcovers : l.table.covers id = false := by
    rw [LabelTable.covers, decide_eq_false_iff_not]
    exact Nat.not_lt.2 (Array.getElem?_eq_none_iff.1 h)
  simp [LabelM.relabel, hcovers]

theorem run_log (e : Event) (l : Labeling) :
    (LabelM.log e).run l = .ok () { l with trace := l.trace.push e } := rfl

theorem run_ofExcept {α : Type} {e : Except Fault α} {a : α} (h : e = .ok a) (l : Labeling) :
    (LabelM.ofExcept e).run l = .ok a l := by
  subst h
  rfl

section

variable {t : Target} (hbuilt : t.Built) {arena : Arena} {id : NodeId}
  (htree : arena.IsTree Node.children id) {place : Option Place} {w : List Symbol}
  (henters : t.Enters place w)
include hbuilt htree henters

theorem Exact.kept {table : LabelTable} {l : Label} (hl : table.label? id = some l)
    (hsize : l.words.size = t.grammar.size) (h : t.Exact arena table w id) (x : Nonterminal)
    (c : Choice) : t.Exact arena (t.kept place table id x c) w id := by
  rcases htree.exists_get? with ⟨n, hn⟩
  have hrecords : ∀ y, (t.kept place table id x c).Records id y ↔ y = x ∨ table.Records id y := by
    intro y
    rw [LabelTable.Records, LabelTable.Records, best_kept hl]
    split <;> simp_all
  -- bits are only added: those of the patterns in which `x` is a leaf at this place
  intro i d
  have hwords : (t.automaton.accepting (t.automaton.enter place (.nt x))).size =
      (l.setBest x c).words.size := by
    rw [size_accepting_enter hbuilt henters, Label.size_words_setBest, hsize]
  have hbit := h i d
  rw [LabelTable.word_of_label? hl] at hbit
  rw [LabelTable.word_of_label? (label?_kept hl), Label.word_accept hwords, Label.word_setBest,
    BitVec.getLsbD_or, Bool.or_eq_true, hbit, accepting_enter_iff hbuilt henters]
  constructor
  · rintro (⟨r, hr, hpartial⟩ | ⟨r, hr, hleaf⟩)
    · have hfits := hbuilt.fits (List.mem_of_getElem? hr)
      exact ⟨r, hr, (partial_record_iff htree hn (fun _ => label?_kept_of_ne) hrecords hfits).2
        (.inl hpartial)⟩
    · have hfits := hbuilt.fits (List.mem_of_getElem? hr)
      exact ⟨r, hr, (partial_record_iff htree hn (fun _ => label?_kept_of_ne) hrecords hfits).2
        (.inr hleaf)⟩
  · rintro ⟨r, hr, hpartial⟩
    have hfits := hbuilt.fits (List.mem_of_getElem? hr)
    rcases (partial_record_iff htree hn (fun _ => label?_kept_of_ne) hrecords hfits).1 hpartial with
      hold | hleaf
    · exact .inl ⟨r, hr, hold⟩
    · exact .inr ⟨r, hr, hleaf⟩

/-- Keeping a choice at its price maintains the invariant. -/
theorem Marked.kept {table : LabelTable} (h : t.Marked arena table w id) {i : RuleId} {r : Rule}
    (hr : t.grammar.rules[i]? = some r) {cost : Nat}
    (hprice : table.price? arena r id = .ok (some cost)) :
    t.Marked arena (t.kept place table id r.result { cost, rule := i }) w id := by
  rcases h.label with ⟨l, hl, hsize⟩
  refine ⟨⟨_, label?_kept hl, ?_⟩, h.exact.kept hbuilt htree henters hl hsize _ _, ?_⟩
  · rw [Label.size_words_accept, Label.size_words_setBest, hsize]
    rw [size_accepting_enter hbuilt henters, Label.size_words_setBest, hsize]
  · intro m hm
    exact Realized.kept hbuilt hl hr h.realized hprice (h.realized m hm)

end

/-! ## Rounds -/

/-- What is left to improve at a node. -/
def room (table : LabelTable) (id : NodeId) : Nat :=
  ((table.label? id).getD (.blank 0)).potential

theorem room_kept_lt {t : Target} {place : Option Place} {table : LabelTable} {id : NodeId}
    {l : Label} (hl : table.label? id = some l) {x : Nonterminal} {c : Choice}
    (hcost : c.cost ≤ costLimit) (himproves : table.improves id x c.cost = true) :
    room (t.kept place table id x c) id < room table id := by
  rw [room, room, label?_kept hl, hl]
  refine Label.potential_setBest_lt hcost ?_
  intro c' hc'
  rw [LabelTable.improves, LabelTable.best_of_label? hl, hc'] at himproves
  exact of_decide_eq_true himproves

/-- If rule `i` matches in full, then its price does not improve on what is recorded. -/
def Exhausted (arena : Arena) (table : LabelTable) (id : NodeId) (i : RuleId) (r : Rule) : Prop :=
  (table.word id i).getLsbD 0 = true → ∀ cost, table.price? arena r id = .ok (some cost) →
    ∃ c, table.best id r.result = some c ∧ c.cost ≤ cost

theorem exists_le_of_improves_eq_false {table : LabelTable} {id : NodeId} {x : Nonterminal}
    {cost : Nat} (h : table.improves id x cost = false) :
    ∃ c, table.best id x = some c ∧ c.cost ≤ cost := by
  unfold LabelTable.improves at h
  split at h
  · cases h
  · rename_i c hc
    exact ⟨c, hc, Nat.le_of_not_lt (of_decide_eq_false h)⟩

/-- Rules are kept at a node, one after the other: each of them matches in full, at a price that
improves on what is recorded for its result. -/
inductive Keeps (t : Target) (arena : Arena) (id : NodeId) (place : Option Place) :
    Labeling → Labeling → Prop
  | refl (l : Labeling) : Keeps t arena id place l l
  | keep {l l' : Labeling} {i : RuleId} {r : Rule} {cost : Nat} :
      t.grammar.rules[i]? = some r → (l.table.word id i).getLsbD 0 = true →
      l.table.price? arena r id = .ok (some cost) → l.table.improves id r.result cost = true →
      Keeps t arena id place ⟨t.kept place l.table id r.result { cost, rule := i },
        l.trace.push (.labeled id r.result r.name cost)⟩ l' →
      Keeps t arena id place l l'

namespace Keeps

variable {t : Target} {arena : Arena} {id : NodeId} {place : Option Place} {l l' l'' : Labeling}

theorem trans (h : t.Keeps arena id place l l') (h' : t.Keeps arena id place l' l'') :
    t.Keeps arena id place l l'' := by
  induction h with
  | refl l => exact h'
  | keep hr hbit hprice himproves _ ih => exact .keep hr hbit hprice himproves (ih h')

theorem label?_of_ne (h : t.Keeps arena id place l l') {m : NodeId} (hm : m ≠ id) :
    l'.table.label? m = l.table.label? m := by
  induction h with
  | refl l => rfl
  | keep _ _ _ _ _ ih => exact ih.trans (label?_kept_of_ne hm)

theorem exists_label (h : t.Keeps arena id place l l') {old : Label}
    (hold : l.table.label? id = some old) : ∃ new, l'.table.label? id = some new := by
  induction h generalizing old with
  | refl l => exact ⟨old, hold⟩
  | keep _ _ _ _ _ ih => exact ih (label?_kept hold)

end Keeps

/-- Whatever rules are kept at a node, the cost of each rule that matches in full can be
computed. -/
def Priceable (t : Target) (arena : Arena) (id : NodeId) (place : Option Place) (l : Labeling) :
    Prop :=
  ∀ l' (i : RuleId) (r : Rule), t.Keeps arena id place l l' → t.grammar.rules[i]? = some r →
    (l'.table.word id i).getLsbD 0 = true → ∃ base, r.cost.base? arena id = .ok base

theorem Priceable.keeps {t : Target} {arena : Arena} {id : NodeId} {place : Option Place}
    {l l' : Labeling} (h : t.Priceable arena id place l) (hkeeps : t.Keeps arena id place l l') :
    t.Priceable arena id place l' :=
  fun l'' i r hkeeps' => h l'' i r (hkeeps.trans hkeeps')

section

variable {t : Target} {arena : Arena} {id : NodeId} (hdag : arena.IsDag Node.children id)
  {place : Option Place} {l : Labeling}
include hdag

/-- A rule is either not kept, and then exhausted, or kept, and then there is less left to
improve. -/
theorem consider_spec (hpriced : t.Priceable arena id place l) {old : Label}
    (hold : l.table.label? id = some old) {i : RuleId} {r : Rule}
    (hr : t.grammar.rules[i]? = some r) :
    ((t.consider arena id place i r).run l = .ok false l ∧ Exhausted arena l.table id i r) ∨
      ∃ l', (t.consider arena id place i r).run l = .ok true l' ∧
        t.Keeps arena id place l l' ∧ room l'.table id < room l.table id := by
  -- the tests come in this order: the mask, then a price, then whether it improves
  rw [consider, run_bind_of_ok (EStateM.run_get l)]
  dsimp only
  cases hbit : (l.table.word id i).getLsbD 0 with
  | false =>
      refine .inl ⟨rfl, ?_⟩
      intro hbit'
      cases hbit.symm.trans hbit'
  | true =>
      rcases LabelTable.exists_price? (t := l.table) (hpriced l i r (.refl l) hr hbit) hdag with
        ⟨o, ho⟩
      rw [if_neg (by decide), run_bind_of_ok (run_ofExcept ho l)]
      cases o with
      | none =>
          refine .inl ⟨rfl, ?_⟩
          intro _ cost hcost
          cases ho.symm.trans hcost
      | some cost =>
          dsimp only
          cases himproves : l.table.improves id r.result cost with
          | false =>
              refine .inl ⟨rfl, ?_⟩
              intro _ cost' hcost'
              cases ho.symm.trans hcost'
              exact exists_le_of_improves_eq_false himproves
          | true =>
              refine .inr ⟨⟨t.kept place l.table id r.result ⟨cost, i⟩,
                l.trace.push (.labeled id r.result r.name cost)⟩, ?_, ?_, ?_⟩
              · rw [if_neg (by decide), run_bind_of_ok (run_relabel hold _),
                  run_bind_of_ok (run_log _ _),
                  run_bind_of_ok (run_relabel (LabelTable.label?_modify_self hold) _)]
                rfl
              · exact .keep hr hbit ho himproves (.refl _)
              · exact room_kept_lt hold (LabelTable.price?_le_costLimit ho) himproves

theorem round_spec (hpriced : t.Priceable arena id place l) {old : Label}
    (hold : l.table.label? id = some old) {rules : List Rule} {i : RuleId}
    (hrules : ∀ j : Nat, rules[j]? = t.grammar.rules[i + j]?) :
    ((t.round arena id place rules i).run l = .ok false l ∧
        ∀ (j : Nat) (r : Rule), rules[j]? = some r → Exhausted arena l.table id (i + j) r) ∨
      ∃ l', (t.round arena id place rules i).run l = .ok true l' ∧
        t.Keeps arena id place l l' ∧ room l'.table id < room l.table id := by
  induction rules generalizing i l old with
  | nil => exact .inl ⟨rfl, by simp⟩
  | cons r rest ih =>
      have hfirst : t.grammar.rules[i]? = some r := (hrules 0).symm
      have hrest : ∀ j : Nat, rest[j]? = t.grammar.rules[i + 1 + j]? := by
        intro j
        rw [Nat.add_right_comm]
        exact hrules (j + 1)
      rw [round]
      rcases consider_spec hdag hpriced hold hfirst with
        ⟨hrun, hex⟩ | ⟨l₁, hrun, hkeeps, hlt⟩
      · rcases ih hpriced hold hrest with ⟨hrun', hex'⟩ | ⟨l', hrun', hkeeps', hlt'⟩
        · refine .inl ⟨by rw [run_bind_of_ok hrun, run_bind_of_ok hrun']; rfl, ?_⟩
          rintro (_ | j) q hq
          · cases hq
            exact hex
          · have := hex' j q hq
            rwa [Nat.add_right_comm] at this
        · exact .inr ⟨l', by rw [run_bind_of_ok hrun, run_bind_of_ok hrun']; rfl, hkeeps', hlt'⟩
      · -- what the earlier rules were exhausted for may be out of date now: the round counts as
        -- improving whatever the rest of it does
        rcases hkeeps.exists_label hold with ⟨new, hnew⟩
        rcases ih (hpriced.keeps hkeeps) hnew hrest with ⟨hrun', -⟩ | ⟨l', hrun', hkeeps', hlt'⟩
        · exact .inr ⟨l₁, by rw [run_bind_of_ok hrun, run_bind_of_ok hrun']; rfl, hkeeps, hlt⟩
        · exact .inr ⟨l', by rw [run_bind_of_ok hrun, run_bind_of_ok hrun']; rfl,
            hkeeps.trans hkeeps', hlt'.trans hlt⟩

theorem rounds_spec {fuel : Nat} (hpriced : t.Priceable arena id place l) {old : Label}
    (hold : l.table.label? id = some old) (hfuel : room l.table id < fuel) :
    ∃ l', (t.rounds arena id place fuel).run l = .ok () l' ∧ t.Keeps arena id place l l' ∧
      ∀ (j : Nat) (r : Rule), t.grammar.rules[j]? = some r → Exhausted arena l'.table id j r := by
  induction fuel generalizing l old with
  | zero => exact absurd hfuel (Nat.not_lt_zero _)
  | succ fuel ih =>
      rw [rounds]
      have hall : ∀ j : Nat, t.grammar.rules[j]? = t.grammar.rules[0 + j]? := by simp
      rcases round_spec hdag hpriced hold hall with ⟨hrun, hex⟩ | ⟨l₁, hrun, hkeeps, hlt⟩
      · simp only [Nat.zero_add] at hex
        exact ⟨l, by rw [run_bind_of_ok hrun]; rfl, .refl l, hex⟩
      · rcases hkeeps.exists_label hold with ⟨new, hnew⟩
        rcases ih (hpriced.keeps hkeeps) hnew (by omega) with ⟨l', hrun', hkeeps', hex⟩
        exact ⟨l', by rw [run_bind_of_ok hrun]; exact hrun', hkeeps.trans hkeeps', hex⟩

/-- A node is settled by keeping rules until all of them are exhausted. -/
theorem settle_keeps (hpriced : t.Priceable arena id place l) {old : Label}
    (hold : l.table.label? id = some old) :
    ∃ l', (t.settle arena id place).run l = .ok () l' ∧ t.Keeps arena id place l l' ∧
      ∀ (j : Nat) (r : Rule), t.grammar.rules[j]? = some r → Exhausted arena l'.table id j r :=
  rounds_spec hdag hpriced hold (Nat.lt_succ_self _)

end

/-! ## Marked nodes -/

/-- A round that keeps nothing leaves a node that no rule improves on. -/
theorem stable_of_exhausted {t : Target} {arena : Arena} {table : LabelTable} {w : List Symbol}
    {id : NodeId} (h : t.Marked arena table w id)
    (hex : ∀ (j : Nat) (r : Rule), t.grammar.rules[j]? = some r → Exhausted arena table id j r) :
    table.Stable t.grammar arena id := by
  intro r hr hmatches cost hcost
  rcases List.mem_iff_getElem?.1 hr with ⟨i, hi⟩
  have hbit : (table.word id i).getLsbD 0 = true :=
    (h.exact i 0).2 ⟨r, hi, Pattern.partial_zero_iff.2 hmatches⟩
  exact hex i r hi hbit cost hcost

section

variable {t : Target} (hbuilt : t.Built) {arena : Arena} {id : NodeId}
  (htree : arena.IsTree Node.children id) {place : Option Place} {w : List Symbol}
  (henters : t.Enters place w)
include hbuilt htree henters

theorem Marked.keeps {l l' : Labeling} (h : t.Marked arena l.table w id)
    (hkeeps : t.Keeps arena id place l l') : t.Marked arena l'.table w id := by
  induction hkeeps with
  | refl l => exact h
  | keep hr _ hprice _ _ ih => exact ih (h.kept hbuilt htree henters hr hprice)

/-- The masks are exact all the time, so a rule that matches in full covers the node. -/
theorem Marked.priceable (hpriced : t.grammar.Priced arena id) {l : Labeling}
    (h : t.Marked arena l.table w id) : t.Priceable arena id place l := by
  intro l' i r hkeeps hr hbit
  have hmarked := h.keeps hbuilt htree henters hkeeps
  rcases (hmarked.exact i 0).1 hbit with ⟨r', hr', hpartial⟩
  cases hr.symm.trans hr'
  exact hpriced r (List.mem_of_getElem? hr) id (.refl id)
    (LabelTable.exists_covers_of_matches r.pattern hmarked.realized
      (Pattern.partial_zero_iff.1 hpartial))

theorem settle_spec (hpriced : t.grammar.Priced arena id) {l : Labeling}
    (h : t.Marked arena l.table w id) :
    ∃ l', (t.settle arena id place).run l = .ok () l' ∧ t.Marked arena l'.table w id ∧
      l'.table.Stable t.grammar arena id ∧ ∀ m ≠ id, l'.table.label? m = l.table.label? m := by
  rcases h.label with ⟨old, hold, -⟩
  rcases settle_keeps htree.isDag (h.priceable hbuilt htree henters hpriced) hold with
    ⟨l', hrun, hkeeps, hex⟩
  have hmarked := h.keeps hbuilt htree henters hkeeps
  exact ⟨l', hrun, hmarked, stable_of_exhausted hmarked hex, fun m hm => hkeeps.label?_of_ne hm⟩

end

end Target
end Codegen
