import Codegen.Proofs.Settling

/-!
# Validation — which grammars are accepted, and why the others are not

A grammar is checked in a fixed order: the settings, the number of rules, then each rule, its depth
before its arities.  So there is at most one error for a grammar, and it can be told without running
the check.

* `Pattern.WellFormed`, `Grammar.WellFormed`    : what is accepted
* `Grammar.Rejects`                             : the error that everything else is refused with
* `Grammar.check_eq_ok_iff`, `check_of_rejects` : the check decides between the two
-/

namespace Codegen

/-! ## Well-formed patterns -/

namespace Pattern

/-- Every node of a kind has as many sub-patterns as the kind has children, and leaves lie at most
63 levels deep. -/
structure WellFormed (p : Pattern) : Prop where
  arity : ∀ w k subs, At p w (.node k subs) → subs.length = k.arity
  depth : p.depth ≤ 63

mutual

/-- The nodes of a kind in preorder, with the number of sub-patterns of each. -/
def preorder : Pattern → List (NodeKind × Nat)
  | .node kind subs => (kind, subs.length) :: preorderAll subs
  | .nt _ => []

/-- The nodes of several patterns, one pattern after the other. -/
def preorderAll : List Pattern → List (NodeKind × Nat)
  | [] => []
  | p :: ps => preorder p ++ preorderAll ps

end

mutual

theorem misfit?_eq_find? : (p : Pattern) →
    p.misfit? = p.preorder.find? fun node => node.2 ≠ node.1.arity
  | .node kind subs => by
      rw [misfit?, preorder, List.find?_cons, ← misfitAmong?_eq_find? subs]
      by_cases harity : subs.length = kind.arity <;> simp [harity]
  | .nt _ => by
      rw [misfit?, preorder]
      rfl

theorem misfitAmong?_eq_find? : (ps : List Pattern) →
    misfitAmong? ps = (preorderAll ps).find? fun node => node.2 ≠ node.1.arity
  | [] => by
      rw [misfitAmong?, preorderAll]
      rfl
  | p :: ps => by
      rw [misfitAmong?, preorderAll, List.find?_append, misfit?_eq_find? p,
        misfitAmong?_eq_find? ps]

end

mutual

theorem misfit?_eq_none : (p : Pattern) →
    (∀ w k subs, At p w (.node k subs) → subs.length = k.arity) → p.misfit? = none
  | .node kind subs, h => by
      rw [misfit?, if_pos (h [] kind subs (.root _))]
      refine misfitAmong?_eq_none subs ?_
      intro slot sub hsub w k subs' hat
      exact h _ k subs' (.step hsub hat)
  | .nt _, _ => by rw [misfit?]

theorem misfitAmong?_eq_none : (ps : List Pattern) →
    (∀ (slot : Nat) sub, ps[slot]? = some sub →
      ∀ w k subs, At sub w (.node k subs) → subs.length = k.arity) → misfitAmong? ps = none
  | [], _ => by rw [misfitAmong?]
  | p :: ps, h => by
      rw [misfitAmong?, misfit?_eq_none p (h 0 p rfl), Option.none_or]
      refine misfitAmong?_eq_none ps ?_
      intro slot sub hsub
      exact h (slot + 1) sub hsub

end

theorem wellFormed_iff {p : Pattern} : p.WellFormed ↔ p.misfit? = none ∧ p.depth ≤ 63 := by
  constructor
  · intro h
    exact ⟨misfit?_eq_none p h.arity, h.depth⟩
  · rintro ⟨hfits, hdepth⟩
    exact ⟨fun w k subs hat => hat.length_subs hfits, hdepth⟩

end Pattern

theorem Rule.defect?_eq_none_iff {r : Rule} : r.defect? = none ↔ r.pattern.WellFormed := by
  rw [Pattern.wellFormed_iff, defect?, depthLimit]
  by_cases hdepth : 63 < r.pattern.depth
  · simp [hdepth]
  · simp [hdepth, Nat.not_lt.1 hdepth]

/-! ## Well-formed grammars -/

namespace Grammar

/-- What a construction accepts. -/
structure WellFormed (g : Grammar) (s : Settings) : Prop where
  registers : 1 ≤ s.registers ∧ s.registers ≤ 64
  ruleLimit : 1 ≤ s.ruleLimit
  size : g.rules.length ≤ s.ruleLimit
  patterns : ∀ r ∈ g.rules, r.pattern.WellFormed

/-- The error that a construction refuses a grammar with: the settings come first, then the number
of rules, then the first rule that is not well formed, for its depth if that is too large, and else
for its first node in preorder with a wrong number of sub-patterns. -/
inductive Rejects (g : Grammar) (s : Settings) : Error → Prop
  | registers : ¬ (1 ≤ s.registers ∧ s.registers ≤ 64) →
      Rejects g s (.invalidSettings (.registers s.registers))
  | ruleLimit : 1 ≤ s.registers ∧ s.registers ≤ 64 → ¬ 1 ≤ s.ruleLimit →
      Rejects g s (.invalidSettings .ruleLimit)
  | tooMany {r : Rule} : 1 ≤ s.registers ∧ s.registers ≤ 64 → 1 ≤ s.ruleLimit →
      g.rules[s.ruleLimit]? = some r →
      Rejects g s (.malformedRule r.name (.tooMany g.rules.length s.ruleLimit))
  | tooDeep {before after : List Rule} {r : Rule} : 1 ≤ s.registers ∧ s.registers ≤ 64 →
      1 ≤ s.ruleLimit → g.rules.length ≤ s.ruleLimit → g.rules = before ++ r :: after →
      (∀ q ∈ before, q.pattern.WellFormed) → 63 < r.pattern.depth →
      Rejects g s (.malformedRule r.name (.tooDeep r.pattern.depth))
  | wrongArity {before after : List Rule} {r : Rule} {nodes rest : List (NodeKind × Nat)}
      {kind : NodeKind} {given : Nat} : 1 ≤ s.registers ∧ s.registers ≤ 64 →
      1 ≤ s.ruleLimit → g.rules.length ≤ s.ruleLimit → g.rules = before ++ r :: after →
      (∀ q ∈ before, q.pattern.WellFormed) → r.pattern.depth ≤ 63 →
      r.pattern.preorder = nodes ++ (kind, given) :: rest →
      (∀ node ∈ nodes, node.2 = node.1.arity) → given ≠ kind.arity →
      Rejects g s (.malformedRule r.name (.wrongArity kind given))

end Grammar

/-- The error that a rule is refused with. -/
def Rule.refusal? (r : Rule) : Option Error := r.defect?.map (.malformedRule r.name)

theorem Rule.refusal?_eq_none_iff {r : Rule} : r.refusal? = none ↔ r.pattern.WellFormed := by
  rw [refusal?, Option.map_eq_none_iff, defect?_eq_none_iff]

theorem Rule.refusal?_eq_some_iff {r : Rule} {e : Error} :
    r.refusal? = some e ↔
      (63 < r.pattern.depth ∧ e = .malformedRule r.name (.tooDeep r.pattern.depth)) ∨
      (r.pattern.depth ≤ 63 ∧ ∃ nodes kind given rest,
        r.pattern.preorder = nodes ++ (kind, given) :: rest ∧
        (∀ node ∈ nodes, node.2 = node.1.arity) ∧ given ≠ kind.arity ∧
        e = .malformedRule r.name (.wrongArity kind given)) := by
  rw [refusal?, defect?, depthLimit, Pattern.misfit?_eq_find?]
  by_cases hdepth : 63 < r.pattern.depth
  · simp [hdepth, eq_comm]
  · rw [if_neg hdepth]
    simp only [hdepth, Nat.not_lt.1 hdepth, false_and, true_and, false_or,
      Option.map_eq_some_iff, Prod.exists, List.find?_eq_some_iff_append]
    constructor
    · rintro ⟨_, ⟨kind, given, ⟨hgiven, nodes, rest, hsplit, hnodes⟩, rfl⟩, rfl⟩
      refine ⟨nodes, kind, given, rest, hsplit, ?_, by simpa using hgiven, rfl⟩
      intro node hnode
      simpa using hnodes node hnode
    · rintro ⟨nodes, kind, given, rest, hsplit, hnodes, hgiven, rfl⟩
      refine ⟨_, ⟨kind, given, ⟨by simpa using hgiven, nodes, rest, hsplit, ?_⟩, rfl⟩, rfl⟩
      intro node hnode
      simpa using hnodes node hnode

namespace Grammar

/-- The outcome of the check in terms of the settings, the number of rules and the first rule that
is refused. -/
theorem check_eq (g : Grammar) (s : Settings) :
    g.check s =
      match s.check with
      | .error e => .error e
      | .ok () =>
          match g.rules[s.ruleLimit]? with
          | some r => .error (.malformedRule r.name (.tooMany g.rules.length s.ruleLimit))
          | none =>
              match g.rules.findSome? Rule.refusal? with
              | some e => .error e
              | none => .ok () := by
  rw [check]
  cases s.check with
  | error e => rfl
  | ok _ =>
      cases g.rules[s.ruleLimit]? with
      | some r => rfl
      | none =>
          have hrefusal : (g.rules.findSome? fun r => r.defect?.map (Error.malformedRule r.name)) =
              g.rules.findSome? Rule.refusal? := rfl
          simp only [hrefusal]
          cases g.rules.findSome? Rule.refusal? <;> rfl

section Check

variable {g : Grammar} {s : Settings}

theorem check_eq_ok_iff : g.check s = .ok () ↔ g.WellFormed s := by
  have hsettings := s.check_eq_ok_iff
  rw [check_eq]
  constructor
  · intro h
    cases hcheck : s.check with
    | error e => simp [hcheck] at h
    | ok _ =>
        rcases hsettings.1 hcheck with ⟨hone, hlimit, hrules⟩
        cases hlast : g.rules[s.ruleLimit]? with
        | some r => simp [hcheck, hlast] at h
        | none =>
            cases hfirst : g.rules.findSome? Rule.refusal? with
            | some e => simp [hcheck, hlast, hfirst] at h
            | none =>
                refine ⟨⟨hone, hlimit⟩, hrules, List.getElem?_eq_none_iff.1 hlast, ?_⟩
                intro r hr
                exact Rule.refusal?_eq_none_iff.1 (List.findSome?_eq_none_iff.1 hfirst r hr)
  · intro h
    have hfirst : g.rules.findSome? Rule.refusal? = none :=
      List.findSome?_eq_none_iff.2 fun r hr => Rule.refusal?_eq_none_iff.2 (h.patterns r hr)
    rw [hsettings.2 ⟨h.registers.1, h.registers.2, h.ruleLimit⟩,
      List.getElem?_eq_none_iff.2 h.size, hfirst]

theorem rejects_of_check_settings {e : Error} (h : s.check = .error e) : g.Rejects s e := by
  rw [Settings.check, registerLimit] at h
  split at h
  · cases h
    exact .registers (by omega)
  · split at h
    · cases h
      exact .ruleLimit (by omega) (by omega)
    · cases h

/-- What a rule is refused with is the error of the grammar if no rule before is refused. -/
theorem rejects_of_refusal {before after : List Rule} {r : Rule} {e : Error}
    (hregisters : 1 ≤ s.registers ∧ s.registers ≤ 64) (hlimit : 1 ≤ s.ruleLimit)
    (hsize : g.rules.length ≤ s.ruleLimit) (hsplit : g.rules = before ++ r :: after)
    (hbefore : ∀ q ∈ before, q.refusal? = none) (h : r.refusal? = some e) : g.Rejects s e := by
  have hformed : ∀ q ∈ before, q.pattern.WellFormed :=
    fun q hq => Rule.refusal?_eq_none_iff.1 (hbefore q hq)
  rcases Rule.refusal?_eq_some_iff.1 h with
    ⟨hdepth, rfl⟩ | ⟨hdepth, nodes, kind, given, rest, hnodes, hfit, hgiven, rfl⟩
  · exact .tooDeep hregisters hlimit hsize hsplit hformed hdepth
  · exact .wrongArity hregisters hlimit hsize hsplit hformed hdepth hnodes hfit hgiven

theorem rejects_of_check {e : Error} (h : g.check s = .error e) : g.Rejects s e := by
  rw [check_eq] at h
  cases hcheck : s.check with
  | error e' =>
      simp only [hcheck, Except.error.injEq] at h
      exact h ▸ rejects_of_check_settings hcheck
  | ok _ =>
      rcases s.check_eq_ok_iff.1 hcheck with ⟨hone, hmax, hrules⟩
      cases hlast : g.rules[s.ruleLimit]? with
      | some r =>
          simp only [hcheck, hlast, Except.error.injEq] at h
          exact h ▸ .tooMany ⟨hone, hmax⟩ hrules hlast
      | none =>
          cases hfirst : g.rules.findSome? Rule.refusal? with
          | none => simp [hcheck, hlast, hfirst] at h
          | some e' =>
              simp only [hcheck, hlast, hfirst, Except.error.injEq] at h
              subst h
              rcases List.findSome?_eq_some_iff.1 hfirst with
                ⟨before, r, after, hsplit, hr, hbefore⟩
              exact rejects_of_refusal ⟨hone, hmax⟩ hrules (List.getElem?_eq_none_iff.1 hlast)
                hsplit hbefore hr

/-- By cases on the reason: nothing that is checked earlier is wrong. -/
theorem check_of_rejects {e : Error} (h : g.Rejects s e) : g.check s = .error e := by
  have hvalid : 1 ≤ s.registers ∧ s.registers ≤ 64 → 1 ≤ s.ruleLimit → s.check = .ok () :=
    fun hregisters hrules => s.check_eq_ok_iff.2 ⟨hregisters.1, hregisters.2, hrules⟩
  have hrefused : ∀ {before after : List Rule} {r : Rule} {e : Error},
      s.check = .ok () → g.rules.length ≤ s.ruleLimit → g.rules = before ++ r :: after →
      (∀ q ∈ before, q.pattern.WellFormed) → r.refusal? = some e → g.check s = .error e := by
    intro before after r e hcheck hsize hsplit hbefore hr
    have hfirst : g.rules.findSome? Rule.refusal? = some e :=
      List.findSome?_eq_some_iff.2
        ⟨before, r, after, hsplit, hr, fun q hq => Rule.refusal?_eq_none_iff.2 (hbefore q hq)⟩
    rw [check_eq, hcheck, List.getElem?_eq_none_iff.2 hsize, hfirst]
  cases h with
  | registers hregisters =>
      have hcheck : s.check = .error (.invalidSettings (.registers s.registers)) :=
        if_pos (by rw [registerLimit]; omega)
      rw [check_eq, hcheck]
  | ruleLimit hregisters hrules =>
      have hcheck : s.check = .error (.invalidSettings .ruleLimit) := by
        rw [Settings.check, registerLimit, if_neg (by omega), if_pos (by omega)]
      rw [check_eq, hcheck]
  | tooMany hregisters hrules hlast => rw [check_eq, hvalid hregisters hrules, hlast]
  | tooDeep hregisters hrules hsize hsplit hbefore hdepth =>
      exact hrefused (hvalid hregisters hrules) hsize hsplit hbefore
        (Rule.refusal?_eq_some_iff.2 (.inl ⟨hdepth, rfl⟩))
  | wrongArity hregisters hrules hsize hsplit hbefore hdepth hnodes hfit hgiven =>
      exact hrefused (hvalid hregisters hrules) hsize hsplit hbefore
        (Rule.refusal?_eq_some_iff.2 (.inr ⟨hdepth, _, _, _, _, hnodes, hfit, hgiven, rfl⟩))

end Check

end Grammar

end Codegen
