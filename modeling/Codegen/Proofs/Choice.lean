import Codegen.Proofs.Settling

/-!
# Choice — what a recorded choice rests on

A choice is recorded at the price its rule had at that moment.  Prices are made of recorded costs,
and a recorded cost is only ever replaced by a lower one, so a rule that was recorded once still
matches later on, at no higher price.  A chain rule rests on another choice at the same node, which
may have been replaced since; but then by a cheaper one, so that the chain rules at a node lead
downwards, in cost or else in the order in which they came to be recorded.

* `LabelTable.NoWorse`  : recorded costs are kept or lowered
* `LabelTable.Backed`   : every recorded rule has a price that does not exceed its cost
* `LabelTable.Grounded` : recorded chain rules lead downwards
* `LabelTable.Chain`    : the chain rules from a nonterminal on, down to a rule of another form
* `LabelTable.Founded`, `LabelTable.Sound` : the invariants that keeping a rule maintains, without
  and with reference to the arena
-/

namespace Codegen

theorem Nonterminal.length_le_of_nodup {xs : List Nonterminal} (h : xs.Nodup) :
    xs.length ≤ Nonterminal.all.length := by
  refine (List.subperm_of_subset h ?_).length_le
  intro y _
  exact y.mem_all

namespace LabelTable

variable {g : Grammar} {a : Arena} {t t' t'' : LabelTable} {id : NodeId}

/-! ## Falling costs -/

/-- What is recorded in `t` is recorded in `t'` as well, at no higher cost. -/
def NoWorse (t t' : LabelTable) : Prop :=
  ∀ id x c, t.best id x = some c → ∃ c', t'.best id x = some c' ∧ c'.cost ≤ c.cost

theorem NoWorse.refl (t : LabelTable) : NoWorse t t :=
  fun _ _ c hc => ⟨c, hc, Nat.le_refl _⟩

theorem NoWorse.trans (h : NoWorse t t') (h' : NoWorse t' t'') : NoWorse t t'' := by
  intro id x c hc
  rcases h id x c hc with ⟨c', hc', hle⟩
  rcases h' id x c' hc' with ⟨c'', hc'', hle'⟩
  exact ⟨c'', hc'', hle'.trans hle⟩

theorem NoWorse.of_best (h : ∀ id, t'.best id = t.best id) : NoWorse t t' := by
  intro id x c hc
  exact ⟨c, by rw [h, hc], Nat.le_refl _⟩

mutual

theorem bindingCost?_noWorse (h : NoWorse t t') : (p : Pattern) → {id : NodeId} → {k : Nat} →
    t.bindingCost? a p id = .ok (some k) →
    ∃ k', t'.bindingCost? a p id = .ok (some k') ∧ k' ≤ k
  | .nt x, id, k, hk => by
      rcases bindingCost?_nt_eq_some.1 hk with ⟨c, hc, rfl⟩
      rcases h id x c hc with ⟨c', hc', hle⟩
      exact ⟨c'.cost, bindingCost?_nt_eq_some.2 ⟨c', hc', rfl⟩, hle⟩
  | .node kind subs, id, k, hk => by
      rcases bindingCost?_node_eq_some.1 hk with ⟨n, hn, hkind, hsubs⟩
      rcases bindingCosts?_noWorse h subs hsubs with ⟨k', hk', hle⟩
      exact ⟨k', bindingCost?_node_eq_some.2 ⟨n, hn, hkind, hk'⟩, hle⟩

theorem bindingCosts?_noWorse (h : NoWorse t t') : (ps : List Pattern) → {ids : List NodeId} →
    {k : Nat} → t.bindingCosts? a ps ids = .ok (some k) →
    ∃ k', t'.bindingCosts? a ps ids = .ok (some k') ∧ k' ≤ k
  | [], ids, k, hk => by
      rw [bindingCosts?] at hk ⊢ <;> simp_all
  | p :: ps, [], k, hk => by
      rw [bindingCosts?] at hk ⊢ <;> simp_all
  | p :: ps, id :: ids, k, hk => by
      rcases bindingCosts?_cons_eq_some.1 hk with ⟨k₁, k₂, hfirst, hrest, rfl⟩
      rcases bindingCost?_noWorse h p hfirst with ⟨k₁', hfirst', hle₁⟩
      rcases bindingCosts?_noWorse h ps hrest with ⟨k₂', hrest', hle₂⟩
      refine ⟨_, bindingCosts?_cons_eq_some.2 ⟨k₁', k₂', hfirst', hrest', rfl⟩, ?_⟩
      unfold addCost
      omega

end

/-- A price does not rise while recorded costs fall. -/
theorem price?_noWorse (h : NoWorse t t') {r : Rule} {k : Nat}
    (hk : t.price? a r id = .ok (some k)) :
    ∃ k', t'.price? a r id = .ok (some k') ∧ k' ≤ k := by
  rcases price?_eq_some.1 hk with ⟨base, k, hbase, hbound, rfl⟩
  rcases bindingCost?_noWorse h r.pattern hbound with ⟨k', hbound', hle⟩
  refine ⟨_, price?_eq_some.2 ⟨base, k', hbase, hbound', rfl⟩, ?_⟩
  unfold addCost
  omega

mutual

/-- A pattern with a bound cost matches. -/
theorem matches_of_bindingCost? : (p : Pattern) → {id : NodeId} → {k : Nat} → p.misfit? = none →
    t.bindingCost? a p id = .ok (some k) → p.Matches a t.Records id
  | .nt x, id, k, _, h => by
      rcases bindingCost?_nt_eq_some.1 h with ⟨c, hc, -⟩
      exact Option.isSome_of_eq_some hc
  | .node kind subs, id, k, hfits, h => by
      have hlen := (Pattern.At.root (.node kind subs)).length_subs hfits
      rw [Pattern.misfit?, if_pos hlen] at hfits
      rcases bindingCost?_node_eq_some.1 h with ⟨n, hn, rfl, hsubs⟩
      rw [← Node.length_children] at hlen
      exact ⟨n, hn, rfl, matchesAll_of_bindingCosts? subs hfits hlen hsubs⟩

theorem matchesAll_of_bindingCosts? : (ps : List Pattern) → {ids : List NodeId} → {k : Nat} →
    Pattern.misfitAmong? ps = none → ps.length = ids.length →
    t.bindingCosts? a ps ids = .ok (some k) → Pattern.MatchesAll a t.Records ps ids
  | [], [], _, _, _, _ => trivial
  | p :: ps, id :: ids, k, hfits, hlen, h => by
      rw [Pattern.misfitAmong?, Option.or_eq_none_iff] at hfits
      rcases bindingCosts?_cons_eq_some.1 h with ⟨k₁, k₂, hfirst, hrest, -⟩
      exact ⟨matches_of_bindingCost? p hfits.1 hfirst,
        matchesAll_of_bindingCosts? ps hfits.2 (Nat.succ.inj hlen) hrest⟩

end

/-! ## Backed choices -/

/-- Every rule recorded for a node is one for its nonterminal, and has a price that does not exceed
the recorded cost. -/
def Backed (g : Grammar) (a : Arena) (t : LabelTable) (id : NodeId) : Prop :=
  ∀ x c, t.best id x = some c → c.cost ≤ costLimit ∧ ∃ r k, g.rules[c.rule]? = some r ∧
    r.result = x ∧ t.price? a r id = .ok (some k) ∧ k ≤ c.cost

theorem Backed.noWorse (h : NoWorse t t') (hbest : t'.best id = t.best id)
    (hbacked : t.Backed g a id) : t'.Backed g a id := by
  intro x c hc
  rw [hbest] at hc
  rcases hbacked x c hc with ⟨hlimit, r, k, hr, hx, hk, hle⟩
  rcases price?_noWorse h hk with ⟨k', hk', hle'⟩
  exact ⟨hlimit, r, k', hr, hx, hk', hle'.trans hle⟩

/-! ## Chains -/

/-- A chain rule recorded for a nonterminal rests on one that costs less, or that costs as much and
has a lower rank. -/
def Grounded (g : Grammar) (t : LabelTable) (id : NodeId) : Prop :=
  ∃ rank : Nonterminal → Nat, ∀ x y c r, t.best id x = some c → g.rules[c.rule]? = some r →
    r.pattern = .nt y → ∃ c', t.best id y = some c' ∧
      (c'.cost < c.cost ∨ c'.cost = c.cost ∧ rank y < rank x)

/-- The nonterminals that the chain rules recorded for a node lead through, down to one that has a
rule of another form. -/
inductive Chain (g : Grammar) (t : LabelTable) (id : NodeId) :
    Nonterminal → List Nonterminal → Prop
  | rule {x : Nonterminal} {c : Choice} {r : Rule} {kind : NodeKind} {subs : List Pattern} :
      t.best id x = some c → g.rules[c.rule]? = some r → r.pattern = .node kind subs →
        Chain g t id x [x]
  | chain {x y : Nonterminal} {ys : List Nonterminal} {c : Choice} {r : Rule} :
      t.best id x = some c → g.rules[c.rule]? = some r → r.pattern = .nt y →
        Chain g t id y ys → Chain g t id x (x :: ys)

/-- Where all recorded chain rules lead downwards, they lead to a rule of another form. -/
theorem exists_chain_of_rank {rank : Nonterminal → Nat}
    (hrules : ∀ x c, t.best id x = some c → ∃ r, g.rules[c.rule]? = some r)
    (hdown : ∀ x y c r, t.best id x = some c → g.rules[c.rule]? = some r →
      r.pattern = .nt y → ∃ c', t.best id y = some c' ∧
        (c'.cost < c.cost ∨ c'.cost = c.cost ∧ rank y < rank x)) (x : Nonterminal) (c : Choice)
    (hc : t.best id x = some c) :
    ∃ xs, Chain g t id x xs ∧ xs.Nodup ∧ ∀ z ∈ xs, ∃ cz, t.best id z = some cz ∧
      (cz.cost < c.cost ∨ cz.cost = c.cost ∧ rank z ≤ rank x) := by
  rcases hrules x c hc with ⟨r, hr⟩
  cases hpattern : r.pattern with
  | node kind subs =>
      refine ⟨[x], .rule hc hr hpattern, List.pairwise_singleton _ _, ?_⟩
      intro z hz
      rw [List.mem_singleton.1 hz]
      exact ⟨c, hc, .inr ⟨rfl, Nat.le_refl _⟩⟩
  | nt y =>
      rcases hdown x y c r hc hr hpattern with ⟨c', hc', hlt⟩
      rcases exists_chain_of_rank hrules hdown y c' hc' with ⟨ys, hchain, hnodup, hbelow⟩
      refine ⟨x :: ys, .chain hc hr hpattern hchain, List.nodup_cons.2 ⟨?_, hnodup⟩, ?_⟩
      · -- all further nonterminals are below the second, and that one is below `x`
        intro hx
        rcases hbelow x hx with ⟨cx, hcx, hle⟩
        cases hc.symm.trans hcx
        omega
      · intro z hz
        rcases List.mem_cons.1 hz with rfl | hz
        · exact ⟨c, hc, .inr ⟨rfl, Nat.le_refl _⟩⟩
        · rcases hbelow z hz with ⟨cz, hcz, hle⟩
          exact ⟨cz, hcz, by omega⟩
termination_by (c.cost, rank x)
decreasing_by
  rcases hlt with hlt | ⟨heq, hlt⟩
  · exact Prod.Lex.left _ _ hlt
  · rw [heq]
    exact Prod.Lex.right _ hlt

/-! ## The invariant -/

/-- Every recorded rule is one for its nonterminal, and recorded chain rules lead downwards. -/
structure Founded (g : Grammar) (t : LabelTable) : Prop where
  rule : ∀ id x c, t.best id x = some c →
    c.cost ≤ costLimit ∧ ∃ r, g.rules[c.rule]? = some r ∧ r.result = x
  grounded : ∀ id, t.Grounded g id

theorem founded_of_blank (h : ∀ id x, t.best id x = none) : t.Founded g where
  rule id x c hc := by
    cases (h id x).symm.trans hc
  grounded id := ⟨fun _ => 0, fun x _ c _ hc => by cases (h id x).symm.trans hc⟩

theorem Founded.of_best (h : t.Founded g) (hbest : ∀ id, t'.best id = t.best id) :
    t'.Founded g where
  rule id := by
    rw [hbest]
    exact h.rule id
  grounded id := by
    rcases h.grounded id with ⟨rank, hdown⟩
    refine ⟨rank, ?_⟩
    rw [hbest]
    exact hdown

theorem Founded.exists_chain (h : t.Founded g) {x : Nonterminal} {c : Choice}
    (hc : t.best id x = some c) : ∃ xs, Chain g t id x xs ∧ xs.Nodup := by
  rcases h.grounded id with ⟨rank, hdown⟩
  have hrules : ∀ x c, t.best id x = some c → ∃ r, g.rules[c.rule]? = some r := by
    intro x c hc
    rcases (h.rule id x c hc).2 with ⟨r, hr, -⟩
    exact ⟨r, hr⟩
  rcases exists_chain_of_rank hrules hdown x c hc with ⟨xs, hchain, hnodup, -⟩
  exact ⟨xs, hchain, hnodup⟩

/-- Moreover recorded rules are backed by the arena. -/
structure Sound (g : Grammar) (a : Arena) (t : LabelTable) : Prop where
  backed : ∀ id, t.Backed g a id
  grounded : ∀ id, t.Grounded g id

theorem Sound.founded (h : t.Sound g a) : t.Founded g where
  rule id x c hc := by
    rcases h.backed id x c hc with ⟨hlimit, r, -, hr, hx, -⟩
    exact ⟨hlimit, r, hr, hx⟩
  grounded := h.grounded

theorem sound_of_blank (h : ∀ id x, t.best id x = none) : t.Sound g a where
  backed id x c hc := by
    cases (h id x).symm.trans hc
  grounded := (founded_of_blank h).grounded

theorem Sound.of_best (h : t.Sound g a) (hbest : ∀ id, t'.best id = t.best id) :
    t'.Sound g a where
  backed id := (h.backed id).noWorse (.of_best hbest) (hbest id)
  grounded := (h.founded.of_best hbest).grounded

theorem Sound.exists_rule (h : t.Sound g a) (hfits : ∀ r ∈ g.rules, r.pattern.misfit? = none)
    {x : Nonterminal} {c : Choice} (hc : t.best id x = some c) :
    ∃ r, g.rules[c.rule]? = some r ∧ r.result = x ∧ r.pattern.Matches a t.Records id := by
  rcases h.backed id x c hc with ⟨-, r, k, hr, hx, hk, -⟩
  rcases price?_eq_some.1 hk with ⟨base, k', -, hbound, -⟩
  exact ⟨r, hr, hx, matches_of_bindingCost? r.pattern (hfits r (List.mem_of_getElem? hr)) hbound⟩

end LabelTable

/-- The least rank above that of what a chain pattern rests on. -/
def Pattern.rankAbove (rank : Nonterminal → Nat) : Pattern → Nat
  | .nt y => rank y + 1
  | .node .. => 0

namespace Target

variable {t : Target} {arena : Arena} {place : Option Place} {table : LabelTable} {id : NodeId}
  {i : RuleId} {r : Rule} {cost : Nat}

theorem lt_of_improves {x : Nonterminal} {c : Choice} (h : table.improves id x cost = true)
    (hc : table.best id x = some c) : cost < c.cost := by
  rw [LabelTable.improves, hc] at h
  exact of_decide_eq_true h

theorem best_kept_of_ne {x : Nonterminal} {c : Choice} {m : NodeId} (h : m ≠ id) :
    (t.kept place table id x c).best m = table.best m :=
  LabelTable.best_congr (label?_kept_of_ne h)

/-- A rule that is kept costs less than what was recorded before. -/
theorem noWorse_kept {l : Label} (hl : table.label? id = some l) {x : Nonterminal}
    (h : table.improves id x cost = true) :
    LabelTable.NoWorse table (t.kept place table id x { cost, rule := i }) := by
  intro m y c hc
  by_cases hm : m = id
  · subst hm
    rw [best_kept hl]
    split
    · rename_i hy
      subst hy
      exact ⟨_, rfl, Nat.le_of_lt (lt_of_improves h hc)⟩
    · exact ⟨c, hc, Nat.le_refl _⟩
  · rw [best_kept_of_ne hm]
    exact ⟨c, hc, Nat.le_refl _⟩

/-- A chain rule costs no less than what it rests on, and more than that if the two have the same
result, so it does not improve on itself. -/
theorem exists_inner (hlimit : ∀ x c, table.best id x = some c → c.cost ≤ costLimit)
    (hprice : table.price? arena r id = .ok (some cost))
    (himproves : table.improves id r.result cost = true) {y : Nonterminal}
    (hpattern : r.pattern = .nt y) :
    y ≠ r.result ∧ ∃ c, table.best id y = some c ∧ c.cost ≤ cost := by
  rcases LabelTable.price?_eq_some.1 hprice with ⟨base, k, -, hbound, rfl⟩
  rw [hpattern] at hbound
  rcases LabelTable.bindingCost?_nt_eq_some.1 hbound with ⟨c, hc, rfl⟩
  have hle : c.cost ≤ addCost base c.cost := by
    have := hlimit y c hc
    unfold addCost
    omega
  refine ⟨?_, c, hc, hle⟩
  rintro rfl
  have := lt_of_improves himproves hc
  omega

/-- Keeping a rule leaves all chain rules leading downwards: those that rest on its result cost at
least what was recorded for it before, which is more than what it costs now. -/
theorem Grounded.kept {l : Label} (hl : table.label? id = some l)
    (hr : t.grammar.rules[i]? = some r)
    (hlimit : ∀ x c, table.best id x = some c → c.cost ≤ costLimit)
    (hprice : table.price? arena r id = .ok (some cost))
    (himproves : table.improves id r.result cost = true) (h : table.Grounded t.grammar id) :
    (t.kept place table id r.result { cost, rule := i }).Grounded t.grammar id := by
  rcases h with ⟨rank, hdown⟩
  -- the new choice comes after the one it rests on, and all others stay in their order
  refine ⟨Function.update rank r.result (r.pattern.rankAbove rank), ?_⟩
  intro x y c q hc hq hpattern
  rw [best_kept hl] at hc
  split at hc
  · rename_i hx
    subst hx
    cases hc
    cases hr.symm.trans hq
    rcases exists_inner hlimit hprice himproves hpattern with ⟨hne, c', hc', hle⟩
    refine ⟨c', by rw [best_kept hl, if_neg hne, hc'], ?_⟩
    rw [Function.update_of_ne hne, Function.update_self]
    rcases Nat.lt_or_eq_of_le hle with hlt | heq
    · exact .inl hlt
    · rw [hpattern]
      exact .inr ⟨heq, Nat.lt_succ_self _⟩
  · rename_i hx
    rcases hdown x y c q hc hq hpattern with ⟨c', hc', hlt⟩
    by_cases hy : y = r.result
    · subst hy
      refine ⟨{ cost, rule := i }, by rw [best_kept hl, if_pos rfl], .inl ?_⟩
      have := lt_of_improves himproves hc'
      dsimp only
      omega
    · refine ⟨c', by rw [best_kept hl, if_neg hy, hc'], ?_⟩
      rwa [Function.update_of_ne hy, Function.update_of_ne hx]

/-- Keeping a rule at its price, in whichever arena, leaves a founded table. -/
theorem Founded.kept {l : Label} (hl : table.label? id = some l)
    (hr : t.grammar.rules[i]? = some r) (hprice : table.price? arena r id = .ok (some cost))
    (himproves : table.improves id r.result cost = true) (h : table.Founded t.grammar) :
    (t.kept place table id r.result { cost, rule := i }).Founded t.grammar := by
  refine ⟨fun m x c hc => ?_, fun m => ?_⟩
  · by_cases hm : m = id
    · subst hm
      rw [best_kept hl] at hc
      split at hc
      · rename_i hx
        cases hc
        exact ⟨LabelTable.price?_le_costLimit hprice, r, hr, hx.symm⟩
      · exact h.rule m x c hc
    · rw [best_kept_of_ne hm] at hc
      exact h.rule m x c hc
  · by_cases hm : m = id
    · subst hm
      exact Grounded.kept hl hr (fun x c hc => (h.rule m x c hc).1) hprice himproves
        (h.grounded m)
    · rcases h.grounded m with ⟨rank, hdown⟩
      refine ⟨rank, ?_⟩
      rw [best_kept_of_ne hm]
      exact hdown

/-- Keeping a rule maintains the invariant. -/
theorem Sound.kept {l : Label} (hl : table.label? id = some l)
    (hr : t.grammar.rules[i]? = some r) (hprice : table.price? arena r id = .ok (some cost))
    (himproves : table.improves id r.result cost = true) (h : table.Sound t.grammar arena) :
    (t.kept place table id r.result { cost, rule := i }).Sound t.grammar arena := by
  have hfall : LabelTable.NoWorse table (t.kept place table id r.result { cost, rule := i }) :=
    noWorse_kept hl himproves
  refine ⟨fun m => ?_, (Founded.kept hl hr hprice himproves h.founded).grounded⟩
  by_cases hm : m = id
  · subst hm
    intro x c hc
    rw [best_kept hl] at hc
    split at hc
    · rename_i hx
      cases hc
      rcases LabelTable.price?_noWorse hfall hprice with ⟨k, hk, hle⟩
      exact ⟨LabelTable.price?_le_costLimit hprice, r, k, hr, hx.symm, hk, hle⟩
    · rcases h.backed m x c hc with ⟨hlimit, q, k, hq, hx, hk, hle⟩
      rcases LabelTable.price?_noWorse hfall hk with ⟨k', hk', hle'⟩
      exact ⟨hlimit, q, k', hq, hx, hk', hle'.trans hle⟩
  · exact (h.backed m).noWorse hfall (best_kept_of_ne hm)

end Target
end Codegen
