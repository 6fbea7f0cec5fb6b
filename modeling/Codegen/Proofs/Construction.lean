import Codegen.Proofs.Sweep
import Codegen.Proofs.Validation

/-!
# Construction — building an automaton rule by rule

Each rule is validated and then inserted into the trie, before the next one is looked at; when all
are in, the links are set.  Here every read and write of a state or a mask is checked, children are
named by one byte, and a mask has room for a shift by 63 at most.  What was validated before is
enough for all of that, so a grammar is either refused or made into the automaton of its patterns.

* `Halt`                          : how a construction can end without an automaton
* `Automaton.insertAt`, `linkAt`  : the parts of a construction, with their accesses checked
* `Grammar.construct`             : the construction
* `Grammar.construct_validates`   : what it accepts and what it refuses, and that no access fails
-/

namespace Codegen

/-! ## Checked accesses -/

/-- An access that a construction does not survive. -/
inductive Panic
  | noState (s : StateId)
  | noRule (rule : RuleId)
  | emptyPath (s : StateId)
  | shift (amount : Nat)
  | endless (s : StateId)
  deriving DecidableEq

inductive Halt
  | refused (e : Error)
  | panicked (p : Panic)
  deriving DecidableEq

abbrev BuildM := Except Halt

namespace Automaton

def stateAt (a : Automaton) (s : StateId) : BuildM State :=
  match a.states[s]? with
  | some st => .ok st
  | none => .error (.panicked (.noState s))

def growAt (a : Automaton) (s : StateId) (c : Symbol) : BuildM (Automaton × StateId) := do
  let _ ← a.stateAt s
  return a.grow s c

/-- The depth is unsigned, and a mask has 64 bits. -/
def markAt (a : Automaton) (s : StateId) (rule : RuleId) : BuildM Automaton := do
  let st ← a.stateAt s
  let length := st.path.length
  if length = 0 then throw (.panicked (.emptyPath s))
  else if 63 < (length - 1) / 2 then throw (.panicked (.shift ((length - 1) / 2)))
  else if st.accepting.size ≤ rule then throw (.panicked (.noRule rule))
  else return a.mark s rule

mutual

def insertAt (rule : RuleId) (a : Automaton) (s : StateId) : Pattern → BuildM Automaton
  | .nt x => do
      let (a, t) ← a.growAt s (.nt x)
      a.markAt t rule
  | .node kind subs => do
      let (a, t) ← a.growAt s (.kind kind)
      if subs.isEmpty then a.markAt t rule else insertAllAt rule a t 0 subs

/-- Children are named by one byte. -/
def insertAllAt (rule : RuleId) (a : Automaton) (s : StateId) (slot : Nat) :
    List Pattern → BuildM Automaton
  | [] => return a
  | p :: ps => do
      let (grown, t) ← a.growAt s (.child (slot % 256))
      insertAllAt rule (← insertAt rule grown t p) s (slot + 1) ps

end

/-- Looks for an edge along the failure links, no more often than a path has symbols. -/
def followAt (a : Automaton) : Nat → StateId → Symbol → BuildM StateId
  | 0, s, _ => throw (.panicked (.endless s))
  | fuel + 1, s, c => do
      let st ← a.stateAt s
      match st.next.lookup c with
      | some t => return t
      | none => if s = root then return root else a.followAt fuel st.failure c

/-- The state that the link of the state behind the edge `c` of `s` is set to. -/
def targetAt (a : Automaton) (s : StateId) (c : Symbol) : BuildM StateId := do
  if s = root then return root
  else
    let st ← a.stateAt s
    a.followAt (a.length st.failure + 1) st.failure c

/-- Every rule has a mask in both states. -/
def linkAt (a : Automaton) (s : StateId) (c : Symbol) (t : StateId) : BuildM Automaton := do
  let inherited ← a.stateAt (← a.targetAt s c)
  let own ← a.stateAt t
  if min inherited.accepting.size own.accepting.size < a.width then
    throw (.panicked (.noRule (min inherited.accepting.size own.accepting.size)))
  else return a.link s c t

def linkAllAt (a : Automaton) : BuildM Automaton :=
  (a.levels.flatMap a.stepsFrom).foldlM (fun a (s, c, t) => a.linkAt s c t) a

end Automaton

def Rule.validate (r : Rule) : BuildM Unit :=
  match r.refusal? with
  | some e => .error (.refused e)
  | none => .ok ()

namespace Grammar

/-- Inserts a rule if nothing is wrong with it. -/
def insertRule (a : Automaton) (r : Rule × RuleId) : BuildM Automaton := do
  r.1.validate
  a.insertAt r.2 Automaton.root r.1.pattern

def construct (g : Grammar) (s : Settings) : BuildM Automaton := do
  s.check.mapError .refused
  if s.ruleLimit < g.size then
    match g.rules[s.ruleLimit]? with
    | some r => throw (.refused (.malformedRule r.name (.tooMany g.size s.ruleLimit)))
    | none => throw (.panicked (.noRule s.ruleLimit))
  else
    let trie ← g.rules.zipIdx.foldlM insertRule (Automaton.empty g.size)
    trie.linkAllAt

end Grammar

/-! ## Inserting -/

namespace Automaton

variable {a : Automaton} {s : Nat}

theorem stateAt_eq (hs : s < a.size) :
    a.stateAt s = .ok ⟨a.path s, a.edges s, a.failure s, a.accepting s⟩ := by
  rw [stateAt, getElem?_states hs]

theorem growAt_eq (hs : s < a.size) (c : Symbol) : a.growAt s c = .ok (a.grow s c) := by
  rw [growAt, stateAt_eq hs]
  rfl

theorem markAt_eq (h : a.Trie) (hs : s < a.size) {rule : RuleId} (hrule : rule < a.width)
    (hpos : 0 < a.length s) (hlength : a.length s ≤ 128) :
    a.markAt s rule = .ok (a.mark s rule) := by
  have hpath : a.length s = (a.path s).length := rfl
  have hmasks : ¬ (a.accepting s).size ≤ rule := by
    rw [h.masks s hs]
    exact Nat.not_le.2 hrule
  rw [markAt, stateAt_eq hs]
  simp only [bind, Except.bind]
  rw [if_neg (by omega), if_neg (by omega), if_neg hmasks]
  rfl

/-- Behind the edge of a leaf the path is one symbol longer. -/
theorem leafAt_eq (h : a.Trie) (hs : s < a.size) {rule : RuleId} (hrule : rule < a.width)
    (hlength : a.length s ≤ 127) (c : Symbol) :
    (do let (a, t) ← a.growAt s c; a.markAt t rule) =
      Except.ok ((a.grow s c).1.mark (a.grow s c).2 rule) := by
  rcases extends_grow h hs c rule with ⟨hgrow, ht, hword⟩
  have hgrown : (a.grow s c).1.length (a.grow s c).2 = a.length s + 1 := by
    rw [← length_word, hword, List.length_append, length_word, List.length_singleton]
  rw [growAt_eq hs]
  exact markAt_eq hgrow.trie ht (hgrow.width ▸ hrule) (by omega) (by omega)

mutual

/-- A pattern that fits, and is not too deep below `s`, is inserted without a failed access. -/
theorem insertAt_eq {a : Automaton} (h : a.Trie) {s : Nat} (hs : s < a.size) {rule : RuleId}
    (hrule : rule < a.width) : (p : Pattern) → p.misfit? = none →
    a.length s + 2 * p.depth ≤ 127 → insertAt rule a s p = .ok (a.insert rule s p)
  | .nt x, _, hlength => by
      rw [insertAt, insert]
      exact leafAt_eq h hs hrule (by omega) (.nt x)
  | .node k [], _, hlength => by
      rw [insertAt, insert]
      exact leafAt_eq h hs hrule (by omega) (.kind k)
  | .node k (p :: ps), hfits, hlength => by
      rcases extends_grow h hs (.kind k) rule with ⟨hgrow, ht, hword⟩
      have hgrown : (a.grow s (.kind k)).1.length (a.grow s (.kind k)).2 = a.length s + 1 := by
        rw [← length_word, hword, List.length_append, length_word, List.length_singleton]
      rw [Pattern.depth] at hlength
      rw [Pattern.misfit?] at hfits
      split at hfits
      · rename_i harity
        have hslots : 0 + (p :: ps).length ≤ 256 := by
          have := k.arity_le_two
          omega
        rw [insertAt, growAt_eq hs]
        exact insertAllAt_eq hgrow.trie ht (hgrow.width ▸ hrule) 0 (p :: ps) hfits hslots (by omega)
      · cases hfits

theorem insertAllAt_eq {a : Automaton} (h : a.Trie) {s : Nat} (hs : s < a.size) {rule : RuleId}
    (hrule : rule < a.width) : (slot : Nat) → (ps : List Pattern) →
    Pattern.misfitAmong? ps = none → slot + ps.length ≤ 256 →
    a.length s + 2 * Pattern.depthBelow ps ≤ 128 →
    insertAllAt rule a s slot ps = .ok (a.insertAll rule s slot ps)
  | slot, [], _, _, _ => by
      rw [insertAllAt, insertAll]
      rfl
  | slot, p :: ps, hfits, hslots, hlength => by
      rcases extends_grow h hs (.child slot) rule with ⟨hgrow, ht, hword⟩
      have hgrown : (a.grow s (.child slot)).1.length (a.grow s (.child slot)).2 =
          a.length s + 1 := by
        rw [← length_word, hword, List.length_append, length_word, List.length_singleton]
      rw [Pattern.misfitAmong?, Option.or_eq_none_iff] at hfits
      rw [Pattern.depthBelow] at hlength
      rw [List.length_cons] at hslots
      have hfirst := hgrow.trans (extends_insert hgrow.trie ht (hgrow.width ▸ hrule) p)
      have hsame : ((a.grow s (.child slot)).1.insert rule (a.grow s (.child slot)).2 p).length s =
          a.length s := by
        rw [← length_word, hfirst.word_eq s hs, length_word]
      -- the slot is the byte that names it
      rw [insertAllAt, Nat.mod_eq_of_lt (by omega), growAt_eq hs]
      simp only [bind, Except.bind]
      rw [insertAt_eq hgrow.trie ht (hgrow.width ▸ hrule) p hfits.1 (by omega)]
      exact insertAllAt_eq hfirst.trie (Nat.lt_of_lt_of_le hs hfirst.size_le)
        (hfirst.width ▸ hrule) (slot + 1) ps hfits.2 (by omega) (by omega)

end

/-! ## Setting the links -/

theorem followAt_eq (h : a.Trie) {n : Nat} (hlinks : LinkedUpTo a n) (c : Symbol) {fuel s : Nat}
    (hs : s < a.size) (hn : (a.word s).length ≤ n) (hfuel : (a.word s).length < fuel) :
    a.followAt fuel s c = .ok (a.follow fuel s c) := by
  induction fuel generalizing s with
  | zero => omega
  | succ fuel ih =>
      rw [followAt, stateAt_eq hs, follow]
      have hlookup : (a.edges s).lookup c = a.child? s c := rfl
      simp only [bind, Except.bind, hlookup]
      cases a.child? s c with
      | some t => rfl
      | none =>
          by_cases hroot : s = root
          · subst hroot
            rfl
          · have hlink := hlinks s hs hroot hn
            have hlen := hlink.length_lt (word_ne_nil h hs hroot)
            simp only [if_neg hroot]
            exact ih hlink.lt (by omega) (by omega)

theorem targetAt_eq (h : a.Trie) (hs : s < a.size) (hlinks : LinkedUpTo a (a.word s).length)
    (c : Symbol) : a.targetAt s c = .ok (a.linkTarget s c) := by
  unfold targetAt linkTarget
  by_cases hroot : s = root
  · rw [if_pos hroot, if_pos hroot]
    rfl
  · have hlink := hlinks s hs hroot (Nat.le_refl _)
    have hle := hlink.suffix.length_le
    rw [List.length_tail] at hle
    rw [if_neg hroot, if_neg hroot, stateAt_eq hs]
    have hfuel : (a.word (a.failure s)).length < a.length (a.failure s) + 1 := by
      rw [length_word]
      exact Nat.lt_succ_self _
    have hn : (a.word (a.failure s)).length ≤ (a.word s).length := by omega
    exact followAt_eq h hlinks c hlink.lt hn hfuel

theorem linkAt_eq (h : a.Trie) {s t : Nat} {c : Symbol} (hs : s < a.size) (ht : t < a.size)
    (hword : a.word t = a.word s ++ [c]) (hlinks : LinkedUpTo a (a.word s).length) :
    a.linkAt s c t = .ok (a.link s c t) := by
  have htarget := (longest_linkTarget h hs hlinks hword).lt
  have hmasks : ¬ min (a.accepting (a.linkTarget s c)).size (a.accepting t).size < a.width := by
    rw [h.masks _ htarget, h.masks t ht]
    omega
  rw [linkAt, targetAt_eq h hs hlinks c]
  simp only [bind, Except.bind]
  rw [stateAt_eq htarget]
  simp only [stateAt_eq ht]
  rw [if_neg hmasks]
  rfl

/-- By induction along the schedule: when it is the turn of an edge, the links that are followed for
it have been set. -/
theorem foldlM_linkAt {b a : Automaton} (hb : b.Trie)
    {processed rest : List (Nat × Symbol × Nat)} (hsteps : Schedule b (processed ++ rest))
    (h : Linking b a (behind processed)) :
    rest.foldlM (fun a (s, c, t) => a.linkAt s c t) a =
      Except.ok (rest.foldl (fun a (s, c, t) => a.link s c t) a) := by
  induction rest generalizing processed a with
  | nil => rfl
  | cons x rest ih =>
      rcases x with ⟨s, c, t⟩
      have hmem := List.mem_append_right processed (List.mem_cons_self (a := (s, c, t)) (l := rest))
      rcases (hsteps.mem_iff s c t).1 hmem with ⟨hs, ht, hword⟩
      have hlinked : a.linkAt s c t = .ok (a.link s c t) :=
        linkAt_eq h.trie (h.size ▸ hs) (h.size ▸ ht) (by rw [h.word, h.word]; exact hword)
          (h.linkedUpTo hb hsteps)
      have hnext := h.step hb hsteps
      rw [List.foldlM_cons]
      simp only [hlinked, bind, Except.bind, List.foldl_cons]
      rw [← List.singleton_append, ← List.append_assoc] at hsteps
      exact ih hsteps hnext

theorem linkAllAt_eq (h : a.Trie) : a.linkAllAt = .ok a.linkAll := by
  have hsteps : Schedule a ([] ++ a.levels.flatMap a.stepsFrom) :=
    schedule_flatMap h (fun _ => mem_levels_iff) (pairwise_levels a) fun _ _ _ => Iff.rfl
  have hstart : Linking a a (behind []) := by
    simpa [behind] using linking_start h
  rw [linkAllAt, foldlM_linkAt h hsteps hstart, linkAll, foldl_linkEdges a.levels fun _ => rfl]

end Automaton

/-! ## Rule by rule -/

namespace Grammar

/-- Whatever was inserted before, the first rule that is refused ends the construction; if there is
none, all rules are inserted. -/
theorem foldlM_insertRule (rules : List (Rule × RuleId)) {a : Automaton} (h : a.Trie)
    (hrules : ∀ r ∈ rules, r.2 < a.width) :
    rules.foldlM insertRule a =
      match rules.findSome? fun r => r.1.refusal? with
      | some e => Except.error (.refused e)
      | none =>
          .ok (rules.foldl (fun a r => a.insert r.2 Automaton.root r.1.pattern) a) := by
  induction rules generalizing a with
  | nil => rfl
  | cons r rest ih =>
      rw [List.foldlM_cons, List.findSome?_cons, insertRule, Rule.validate]
      cases hrefusal : r.1.refusal? with
      | some e => rfl
      | none =>
          rcases Pattern.wellFormed_iff.1 (Rule.refusal?_eq_none_iff.1 hrefusal) with
            ⟨hfits, hdepth⟩
          have hrule := hrules r List.mem_cons_self
          have hroot : a.length Automaton.root = 0 := by
            rw [← Automaton.length_word, h.root_word]
            rfl
          have hinsert :=
            Automaton.extends_insert h (s := Automaton.root) h.nonempty hrule r.1.pattern
          have hwidth : ∀ q ∈ rest, q.2 < (a.insert r.2 Automaton.root r.1.pattern).width := by
            intro q hq
            rw [hinsert.width]
            exact hrules q (List.mem_cons_of_mem _ hq)
          have hnext := ih hinsert.trie hwidth
          simp only [bind, Except.bind]
          rw [Automaton.insertAt_eq h (s := Automaton.root) h.nonempty hrule r.1.pattern hfits
            (by omega)]
          exact hnext

/-- Rule by rule or all at once, the grammar is checked alike, and what comes out is the automaton
of its patterns. -/
theorem construct_eq (g : Grammar) (s : Settings) :
    g.construct s =
      match g.check s with
      | .error e => .error (.refused e)
      | .ok () => .ok (.ofPatterns (g.rules.map Rule.pattern)) := by
  rw [construct, check_eq]
  cases s.check with
  | error e => rfl
  | ok _ =>
      simp only [Except.mapError, bind, Except.bind]
      by_cases hsize : s.ruleLimit < g.size
      · have hlast : g.rules[s.ruleLimit]? = some (g.rules.get ⟨s.ruleLimit, hsize⟩) :=
          List.getElem?_eq_getElem hsize
        rw [if_pos hsize, hlast]
        rfl
      · have hwidth : ∀ r ∈ g.rules.zipIdx, r.2 < (Automaton.empty g.size).width := by
          rintro ⟨r, rule⟩ hr
          exact (List.getElem?_eq_some_iff.1 (List.mem_zipIdx_iff_getElem?.1 hr)).1
        have hrefusal : (g.rules.zipIdx.findSome? fun r => r.1.refusal?) =
            g.rules.findSome? Rule.refusal? := by
          conv_rhs => rw [← List.zipIdx_map_fst 0 g.rules, List.findSome?_map]
          rfl
        have hpaths : g.rules.zipIdx.foldl
            (fun a r => a.insert r.2 Automaton.root r.1.pattern) (Automaton.empty g.size) =
            Automaton.ofPaths (g.rules.map Rule.pattern) := by
          rw [Automaton.ofPaths, List.zipIdx_map, List.foldl_map, List.length_map]
          rfl
        rw [if_neg hsize, List.getElem?_eq_none_iff.2 (Nat.not_lt.1 hsize),
          foldlM_insertRule _ (Automaton.trie_empty g.size) hwidth, hrefusal, hpaths]
        cases g.rules.findSome? Rule.refusal? with
        | some e => rfl
        | none => exact Automaton.linkAllAt_eq (Automaton.trie_ofPaths _)

/-- No path of the automaton is longer than the way to a leaf at depth 63. -/
theorem length_le {g : Grammar} (h : ∀ r ∈ g.rules, r.pattern.WellFormed) {u : Nat}
    (hu : u < (Automaton.ofPatterns (g.rules.map Rule.pattern)).size) :
    (Automaton.ofPatterns (g.rules.map Rule.pattern)).length u ≤ 127 := by
  have hlinking := Automaton.linking_ofPatterns (g.rules.map Rule.pattern)
  rw [← Automaton.length_word, hlinking.word]
  rcases (Automaton.hasWord_ofPaths _ _).1 ⟨u, hlinking.size ▸ hu, rfl⟩ with
    hnil | ⟨p, hp, l, ⟨v, q, hat, -, rfl⟩, hbegins⟩
  · rw [hnil]
    exact Nat.zero_le _
  · rcases List.mem_map.1 hp with ⟨r, hr, rfl⟩
    have hdepth := (h r hr).depth
    have hway := hat.length_le
    have hle := hbegins.length_le
    rw [List.length_append, List.length_singleton] at hle
    omega

/-- Validation accepts exactly the well-formed grammars.  The construction makes a target's
automaton, or refuses the grammar with the error of the check; it succeeds exactly if the grammar
and the settings are well formed, everything else is refused with the first error there is, and no
access fails; and in the automaton no state has a depth that a mask has no bit for. -/
theorem construct_validates (g : Grammar) (s : Settings) :
    (g.construct s =
      match Target.build g s with
      | .ok t => .ok t.automaton
      | .error e => .error (.refused e)) ∧
    ((∃ a, g.construct s = .ok a) ↔ g.WellFormed s) ∧
    (∀ halt, g.construct s = .error halt ↔ ∃ e, halt = .refused e ∧ g.Rejects s e) ∧
    ∀ a, g.construct s = .ok a → ∀ u < a.size, (a.length u - 1) / 2 ≤ 63 := by
  have hrejects : ∀ e, g.check s = .error e ↔ g.Rejects s e :=
    fun e => ⟨rejects_of_check, check_of_rejects⟩
  simp only [construct_eq, Target.build, ← check_eq_ok_iff, ← hrejects]
  cases hcheck : g.check s with
  | error e => simp [bind, Except.bind, eq_comm]
  | ok _ =>
      refine ⟨rfl, by simp, by simp, ?_⟩
      rintro a ha u hu
      cases ha
      have := length_le (check_eq_ok_iff.1 hcheck).patterns hu
      omega

/-- Below the root there are two nodes with a wrong number of sub-patterns. -/
def lopsided : Pattern := .node .binary [.node .unary [], .node .deref [.reg, .reg]]

/-- All rules but the first are ill formed. -/
def misshapen : Grammar where
  rules :=
    [ ⟨"literal", .leaf .literal, .imm, .fixed 1, .keep⟩,
      ⟨"sum", lopsided, .reg, .fixed 2, .keep⟩,
      ⟨"negation", .node .unary [.reg, .reg], .reg, .fixed 1, .keep⟩ ]
  start := .reg

theorem construct_validates_misshapen :
    misshapen.construct { ruleLimit := 2 } =
        .error (.refused (.malformedRule "negation" (.tooMany 3 2))) ∧
      misshapen.construct {} = .error (.refused (.malformedRule "sum" (.wrongArity .unary 0))) ∧
      ∃ a, ({ misshapen with rules := misshapen.rules.take 1 }).construct {} = .ok a ∧
        ∀ u < a.size, (a.length u - 1) / 2 ≤ 63 := by
  have hfirst : ∀ r ∈ misshapen.rules.take 1, r.pattern.WellFormed := by
    intro r hr
    cases List.mem_singleton.1 hr
    exact Rule.defect?_eq_none_iff.1 rfl
  refine ⟨?_, ?_, ?_⟩
  · have hmany := Rejects.tooMany (g := misshapen) (s := { ruleLimit := 2 }) (by decide) (by decide)
      rfl
    exact ((construct_validates misshapen { ruleLimit := 2 }).2.2.1 _).2 ⟨_, rfl, hmany⟩
  · refine ((construct_validates misshapen {}).2.2.1 _).2 ⟨_, rfl, ?_⟩
    have hnodes : lopsided.preorder = [(.binary, 2)] ++ (.unary, 0) :: [(.deref, 2)] := rfl
    exact .wrongArity (by decide) (by decide) (by decide)
      (List.take_append_drop 1 misshapen.rules).symm hfirst (by decide) hnodes (by decide)
      (by decide)
  · have h := construct_validates { misshapen with rules := misshapen.rules.take 1 } {}
    rcases h.2.1.2 ⟨by decide, by decide, by decide, hfirst⟩ with ⟨a, ha⟩
    exact ⟨a, ha, h.2.2.2 a ha⟩

end Grammar

end Codegen
