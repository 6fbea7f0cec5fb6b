import Codegen.Labeling
import Codegen.Proofs.Matching
import Mathlib.Order.Bounds.Defs

/-!
# Derivation — the trees of rules that reduce a node

A derivation of a node to a nonterminal picks a rule for the nonterminal and covers the tree below
the node with the rule's pattern: a derivation hangs at each nonterminal of the pattern, at the node
that lies there.  Its cost is the sum of the base costs of its rules, without a limit.

* `Grammar.Derives`, `Grammar.Covers` : derivations and coverings with their costs
* `LabelTable.Realized`               : every recorded cost is that of a derivation
* `LabelTable.exists_covers`          : what a table binds is the cost of a covering
* `bindingCost?_le_of_covers`         : if no rule improves on a table then it is the least one
* `Grammar.Priced`, `Grammar.Total`   : where the costs of rules can be computed
-/

namespace Codegen

/-! ## Derivations -/

namespace Grammar

mutual

inductive Derives (g : Grammar) (a : Arena) : NodeId → Nonterminal → Nat → Prop
  | rule {r : Rule} {id : NodeId} {base k : Nat} : r ∈ g.rules →
      r.cost.base? a id = .ok (some base) → Covers g a r.pattern id k →
        Derives g a id r.result (base + k)

inductive Covers (g : Grammar) (a : Arena) : Pattern → NodeId → Nat → Prop
  | nt {x : Nonterminal} {id : NodeId} {k : Nat} : Derives g a id x k → Covers g a (.nt x) id k
  | node {kind : NodeKind} {subs : List Pattern} {id : NodeId} {n : Node} {k : Nat} :
      a.get? id = some n → n.kind = kind → CoversAll g a subs n.children k →
        Covers g a (.node kind subs) id k

inductive CoversAll (g : Grammar) (a : Arena) : List Pattern → List NodeId → Nat → Prop
  | nil : CoversAll g a [] [] 0
  | cons {p : Pattern} {ps : List Pattern} {id : NodeId} {ids : List NodeId} {k k' : Nat} :
      Covers g a p id k → CoversAll g a ps ids k' → CoversAll g a (p :: ps) (id :: ids) (k + k')

end

/-- The cost of a rule can be computed at every node below `root` that its pattern covers. -/
def Priced (g : Grammar) (a : Arena) (root : NodeId) : Prop :=
  ∀ r ∈ g.rules, ∀ n, a.Below Node.children root n → (∃ k, g.Covers a r.pattern n k) →
    ∃ base, r.cost.base? a n = .ok base

/-- The cost of every rule can be computed at every node below `root`, also where its pattern does
not match. -/
def Total (g : Grammar) (a : Arena) (root : NodeId) : Prop :=
  ∀ r ∈ g.rules, ∀ n, a.Below Node.children root n → ∃ base, r.cost.base? a n = .ok base

section

variable {g : Grammar} {a : Arena} {id m : NodeId}

theorem Priced.of_below (h : g.Priced a id) (hm : a.Below Node.children id m) : g.Priced a m :=
  fun r hr k hk => h r hr k (hm.trans hk)

theorem Total.of_below (h : g.Total a id) (hm : a.Below Node.children id m) : g.Total a m :=
  fun r hr k hk => h r hr k (hm.trans hk)

theorem Total.priced (h : g.Total a id) : g.Priced a id :=
  fun r hr k hk _ => h r hr k hk

end

end Grammar

/-! ## Recorded costs -/

theorem addCost_min_min (a b : Nat) :
    addCost (min a costLimit) (min b costLimit) = min (a + b) costLimit := by
  unfold addCost
  omega

namespace LabelTable

def Records (t : LabelTable) (id : NodeId) (x : Nonterminal) : Prop := (t.best id x).isSome

/-- Every choice recorded for a node is a rule for its nonterminal, at the cost of a derivation by
that rule. -/
def Realized (g : Grammar) (a : Arena) (t : LabelTable) (id : NodeId) : Prop :=
  ∀ x c, t.best id x = some c → ∃ r base k, g.rules[c.rule]? = some r ∧ r.result = x ∧
    r.cost.base? a id = .ok (some base) ∧ g.Covers a r.pattern id k ∧
      c.cost = min (base + k) costLimit

/-- No rule that matches a node improves on what is recorded for it. -/
def Stable (g : Grammar) (a : Arena) (t : LabelTable) (id : NodeId) : Prop :=
  ∀ r ∈ g.rules, r.pattern.Matches a t.Records id → ∀ k, t.price? a r id = .ok (some k) →
    ∃ c, t.best id r.result = some c ∧ c.cost ≤ k

variable {g : Grammar} {a : Arena} {t t' : LabelTable}

theorem Realized.derives {id : NodeId} (h : t.Realized g a id) {x : Nonterminal} {c : Choice}
    (hc : t.best id x = some c) : ∃ k, g.Derives a id x k ∧ c.cost = min k costLimit := by
  rcases h x c hc with ⟨r, base, k, hr, rfl, hbase, hcovers, hcost⟩
  exact ⟨base + k, .rule (List.mem_of_getElem? hr) hbase hcovers, hcost⟩

/-! ## Bound costs -/

theorem bindingCost?_node {id : NodeId} {n : Node} (hn : a.get? id = some n) (k : NodeKind)
    (subs : List Pattern) :
    t.bindingCost? a (.node k subs) id =
      if n.kind = k then t.bindingCosts? a subs n.children else .ok none := by
  rw [bindingCost?, Arena.node_eq_ok_iff.2 hn]
  rfl

theorem bindingCosts?_cons {p : Pattern} {id : NodeId} {o o' : Option Nat} {ps : List Pattern}
    {ids : List NodeId} (hp : t.bindingCost? a p id = .ok o)
    (hps : t.bindingCosts? a ps ids = .ok o') :
    t.bindingCosts? a (p :: ps) (id :: ids) = .ok (o.bind fun k => o'.map (addCost k)) := by
  rw [bindingCosts?, hp, hps]
  cases o <;> rfl

theorem bindingCost?_nt_eq_some {x : Nonterminal} {id : NodeId} {k : Nat} :
    t.bindingCost? a (.nt x) id = .ok (some k) ↔ ∃ c, t.best id x = some c ∧ c.cost = k := by
  rw [bindingCost?]
  constructor
  · intro h
    exact Option.map_eq_some_iff.1 (Except.ok.inj h)
  · rintro ⟨c, hc, rfl⟩
    rw [hc]
    rfl

theorem bindingCost?_node_eq_some {kind : NodeKind} {subs : List Pattern} {id : NodeId} {k : Nat} :
    t.bindingCost? a (.node kind subs) id = .ok (some k) ↔
      ∃ n, a.get? id = some n ∧ n.kind = kind ∧
        t.bindingCosts? a subs n.children = .ok (some k) := by
  constructor
  · intro h
    cases hn : a.get? id with
    | none =>
        rw [bindingCost?, Arena.node_eq_error_iff.2 ⟨hn, rfl⟩] at h
        cases h
    | some n =>
        rw [bindingCost?_node hn] at h
        split at h
        · exact ⟨n, rfl, ‹_›, h⟩
        · cases h
  · rintro ⟨n, hn, rfl, h⟩
    rw [bindingCost?_node hn, if_pos rfl, h]

theorem bindingCosts?_cons_eq_some {p : Pattern} {id : NodeId} {ps : List Pattern}
    {ids : List NodeId} {k : Nat} :
    t.bindingCosts? a (p :: ps) (id :: ids) = .ok (some k) ↔
      ∃ k₁ k₂, t.bindingCost? a p id = .ok (some k₁) ∧
        t.bindingCosts? a ps ids = .ok (some k₂) ∧ k = addCost k₁ k₂ := by
  constructor
  · intro h
    rw [bindingCosts?] at h
    rcases hp : t.bindingCost? a p id with f | _ | k₁ <;>
      rcases hps : t.bindingCosts? a ps ids with f' | _ | k₂ <;> rw [hp] at h <;>
      simp only [bind, Except.bind, hps] at h <;> cases h
    exact ⟨k₁, k₂, rfl, rfl, rfl⟩
  · rintro ⟨k₁, k₂, hp, hps, rfl⟩
    rw [bindingCosts?_cons hp hps]
    rfl

mutual

/-- Bound costs depend on what is recorded at a node and below it. -/
theorem bindingCost?_congr : (p : Pattern) → {id : NodeId} →
    (∀ m, a.Below Node.children id m → t'.best m = t.best m) →
    t'.bindingCost? a p id = t.bindingCost? a p id
  | .nt x, id, h => by rw [bindingCost?, bindingCost?, h id (.refl id)]
  | .node k subs, id, h => by
      cases hn : a.get? id with
      | none =>
          have hnode := Arena.node_eq_error_iff.2 ⟨hn, rfl⟩
          rw [bindingCost?, bindingCost?, hnode]
          rfl
      | some n =>
          rw [bindingCost?_node hn, bindingCost?_node hn, bindingCosts?_congr subs]
          intro child hchild m hm
          exact h m ((Arena.Below.of_mem hn hchild).trans hm)

theorem bindingCosts?_congr : (ps : List Pattern) → {ids : List NodeId} →
    (∀ id ∈ ids, ∀ m, a.Below Node.children id m → t'.best m = t.best m) →
    t'.bindingCosts? a ps ids = t.bindingCosts? a ps ids
  | [], _, _ => by simp only [bindingCosts?]
  | _ :: _, [], _ => by simp only [bindingCosts?]
  | p :: ps, id :: ids, h => by
      rw [bindingCosts?, bindingCosts?, bindingCost?_congr p (h id List.mem_cons_self),
        bindingCosts?_congr ps fun m hm => h m (List.mem_cons_of_mem id hm)]

end

mutual

/-- Where no way leads back, all bound costs can be read. -/
theorem exists_bindingCost? : (p : Pattern) → {id : NodeId} → a.IsDag Node.children id →
    ∃ o, t.bindingCost? a p id = .ok o
  | .nt x, id, _ => ⟨(t.best id x).map Choice.cost, by rw [bindingCost?]; rfl⟩
  | .node k subs, id, h => by
      rcases h.exists_get? with ⟨n, hn⟩
      rw [bindingCost?_node hn]
      split
      · refine exists_bindingCosts? subs ?_
        intro child hchild
        exact h.of_below (.of_mem hn hchild)
      · exact ⟨none, rfl⟩

theorem exists_bindingCosts? : (ps : List Pattern) → {ids : List NodeId} →
    (∀ id ∈ ids, a.IsDag Node.children id) → ∃ o, t.bindingCosts? a ps ids = .ok o
  | [], _, _ => ⟨some 0, by simp only [bindingCosts?]; rfl⟩
  | _ :: _, [], _ => ⟨some 0, by simp only [bindingCosts?]; rfl⟩
  | p :: ps, id :: ids, h => by
      rcases exists_bindingCost? p (h id List.mem_cons_self) with ⟨o, ho⟩
      rcases exists_bindingCosts? ps fun m hm => h m (List.mem_cons_of_mem id hm) with ⟨o', ho'⟩
      exact ⟨_, bindingCosts?_cons ho ho'⟩

end

mutual

/-- What a table of realized costs binds is the cost of a covering. -/
theorem exists_covers : (p : Pattern) → {id : NodeId} → p.misfit? = none →
    (∀ m, a.Below Node.children id m → t.Realized g a m) →
    {k : Nat} → t.bindingCost? a p id = .ok (some k) →
    ∃ k', g.Covers a p id k' ∧ k = min k' costLimit
  | .nt x, id, _, hreal, k, h => by
      rcases bindingCost?_nt_eq_some.1 h with ⟨c, hc, rfl⟩
      rcases (hreal id (.refl id)).derives hc with ⟨k, hk, hcost⟩
      exact ⟨k, .nt hk, hcost⟩
  | .node kind subs, id, hfits, hreal, k, h => by
      have hlen := (Pattern.At.root (.node kind subs)).length_subs hfits
      rw [Pattern.misfit?, if_pos hlen] at hfits
      rcases bindingCost?_node_eq_some.1 h with ⟨n, hn, rfl, hbound⟩
      rw [← Node.length_children] at hlen
      have hchildren : ∀ child ∈ n.children,
          ∀ m, a.Below Node.children child m → t.Realized g a m := by
        intro child hchild m hm
        exact hreal m ((Arena.Below.of_mem hn hchild).trans hm)
      rcases exists_coversAll subs hfits hlen hchildren hbound with ⟨k', hk', hcost⟩
      exact ⟨k', .node hn rfl hk', hcost⟩

theorem exists_coversAll : (ps : List Pattern) → {ids : List NodeId} →
    Pattern.misfitAmong? ps = none → ps.length = ids.length →
    (∀ id ∈ ids, ∀ m, a.Below Node.children id m → t.Realized g a m) →
    {k : Nat} → t.bindingCosts? a ps ids = .ok (some k) →
    ∃ k', g.CoversAll a ps ids k' ∧ k = min k' costLimit
  | [], [], _, _, _, k, h => by
      rw [bindingCosts?] at h
      · cases h
        exact ⟨0, .nil, (Nat.zero_min _).symm⟩
      · simp
  | p :: ps, id :: ids, hfits, hlen, hreal, k, h => by
      rw [Pattern.misfitAmong?, Option.or_eq_none_iff] at hfits
      have hrest := fun m hm => hreal m (List.mem_cons_of_mem id hm)
      rcases bindingCosts?_cons_eq_some.1 h with ⟨k₁, k₂, hfirst, hothers, rfl⟩
      rcases exists_covers p hfits.1 (hreal id List.mem_cons_self) hfirst with ⟨k₁', h₁, rfl⟩
      rcases exists_coversAll ps hfits.2 (Nat.succ.inj hlen) hrest hothers with ⟨k₂', h₂, rfl⟩
      exact ⟨k₁' + k₂', .cons h₁ h₂, addCost_min_min k₁' k₂'⟩

end

mutual

/-- A pattern that matches by what is recorded covers the node, if recorded costs are realized. -/
theorem exists_covers_of_matches : (p : Pattern) → {id : NodeId} →
    (∀ m, a.Below Node.children id m → t.Realized g a m) → p.Matches a t.Records id →
    ∃ k, g.Covers a p id k
  | .nt x, id, hreal, h => by
      rcases Option.isSome_iff_exists.1 h with ⟨c, hc⟩
      rcases (hreal id (.refl id)).derives hc with ⟨k, hk, -⟩
      exact ⟨k, .nt hk⟩
  | .node kind subs, id, hreal, ⟨n, hn, hkind, hall⟩ => by
      have hchildren : ∀ child ∈ n.children,
          ∀ m, a.Below Node.children child m → t.Realized g a m := by
        intro child hchild m hm
        exact hreal m ((Arena.Below.of_mem hn hchild).trans hm)
      rcases exists_coversAll_of_matches subs hchildren hall with ⟨k, hk⟩
      exact ⟨k, .node hn hkind hk⟩

theorem exists_coversAll_of_matches : (ps : List Pattern) → {ids : List NodeId} →
    (∀ id ∈ ids, ∀ m, a.Below Node.children id m → t.Realized g a m) →
    Pattern.MatchesAll a t.Records ps ids → ∃ k, g.CoversAll a ps ids k
  | [], [], _, _ => ⟨0, .nil⟩
  | p :: ps, id :: ids, hreal, ⟨hfirst, hrest⟩ => by
      rcases exists_covers_of_matches p (hreal id List.mem_cons_self) hfirst with ⟨k, hk⟩
      rcases exists_coversAll_of_matches ps (fun m hm => hreal m (List.mem_cons_of_mem id hm))
          hrest with
        ⟨k', hk'⟩
      exact ⟨k + k', .cons hk hk'⟩

end

/-! ## Prices -/

theorem price?_of_base? {r : Rule} {id : NodeId} {base : Nat} {o : Option Nat}
    (hbase : r.cost.base? a id = .ok (some base)) (ho : t.bindingCost? a r.pattern id = .ok o) :
    t.price? a r id = .ok (o.map (addCost base)) := by
  rw [price?, hbase]
  simp only [bind, Except.bind, ho]
  rfl

theorem price?_congr {r : Rule} {id : NodeId}
    (h : ∀ m, a.Below Node.children id m → t'.best m = t.best m) :
    t'.price? a r id = t.price? a r id := by
  rw [price?, price?, bindingCost?_congr r.pattern h]

/-- Whether a rule improves on a node depends on what is recorded at the node and below it. -/
theorem Stable.congr {id : NodeId} (hstable : t.Stable g a id)
    (h : ∀ m, a.Below Node.children id m → t'.best m = t.best m) : t'.Stable g a id := by
  intro r hr hmatches k hk
  rw [h id (.refl id)]
  rw [price?_congr h] at hk
  refine hstable r hr (.mono r.pattern ?_ hmatches) k hk
  intro m x hm hx
  rwa [Records, ← h m hm]

theorem exists_price? {r : Rule} {id : NodeId} (hbase : ∃ base, r.cost.base? a id = .ok base)
    (h : a.IsDag Node.children id) : ∃ o, t.price? a r id = .ok o := by
  rcases hbase with ⟨base, hbase⟩
  cases base with
  | none => exact ⟨none, by rw [price?, hbase]; rfl⟩
  | some base =>
      rcases exists_bindingCost? (t := t) r.pattern h with ⟨o, ho⟩
      exact ⟨_, price?_of_base? hbase ho⟩

theorem price?_eq_some {r : Rule} {id : NodeId} {cost : Nat} :
    t.price? a r id = .ok (some cost) ↔
      ∃ base k, r.cost.base? a id = .ok (some base) ∧
        t.bindingCost? a r.pattern id = .ok (some k) ∧ cost = addCost base k := by
  constructor
  · intro h
    rw [price?] at h
    rcases hbase : r.cost.base? a id with f | _ | base <;>
      rcases hk : t.bindingCost? a r.pattern id with f' | _ | k <;> rw [hbase] at h <;>
      simp only [bind, Except.bind, hk] at h <;> cases h
    exact ⟨base, k, rfl, rfl, rfl⟩
  · rintro ⟨base, k, hbase, hk, rfl⟩
    rw [price?_of_base? hbase hk]
    rfl

theorem price?_le_costLimit {r : Rule} {id : NodeId} {cost : Nat}
    (h : t.price? a r id = .ok (some cost)) : cost ≤ costLimit := by
  rcases price?_eq_some.1 h with ⟨base, k, -, -, rfl⟩
  exact Nat.min_le_right _ _

/-- Where recorded costs are realized, a price is the cost of a derivation. -/
theorem covers_of_price? {r : Rule} {id : NodeId} (hfits : r.pattern.misfit? = none)
    (hreal : ∀ m, a.Below Node.children id m → t.Realized g a m) {cost : Nat}
    (h : t.price? a r id = .ok (some cost)) :
    ∃ base k, r.cost.base? a id = .ok (some base) ∧ g.Covers a r.pattern id k ∧
      cost = min (base + k) costLimit := by
  rcases price?_eq_some.1 h with ⟨base, k, hbase, hk, rfl⟩
  rcases exists_covers r.pattern hfits hreal hk with ⟨k', hk', rfl⟩
  refine ⟨base, k', hbase, hk', ?_⟩
  unfold addCost
  omega

/-! ## Least costs -/

mutual

/-- Where no rule improves on a table, no derivation is cheaper than what is recorded. -/
theorem best_le_of_derives {root : NodeId}
    (hstable : ∀ m, a.Below Node.children root m → t.Stable g a m) :
    {id : NodeId} → {x : Nonterminal} → {k : Nat} → a.Below Node.children root id →
    g.Derives a id x k → ∃ c, t.best id x = some c ∧ c.cost ≤ min k costLimit
  | id, _, _, hid, .rule hr hbase hcovers => by
      rcases bindingCost?_le_of_covers hstable hid hcovers with ⟨hmatches, k, hk, hle⟩
      rcases hstable id hid _ hr hmatches _ (price?_of_base? hbase hk) with ⟨c, hc, hcost⟩
      refine ⟨c, hc, ?_⟩
      unfold addCost at hcost
      omega

theorem bindingCost?_le_of_covers {root : NodeId}
    (hstable : ∀ m, a.Below Node.children root m → t.Stable g a m) :
    {p : Pattern} → {id : NodeId} → {k : Nat} → a.Below Node.children root id → g.Covers a p id k →
    p.Matches a t.Records id ∧ ∃ k', t.bindingCost? a p id = .ok (some k') ∧ k' ≤ k
  | _, id, _, hid, .nt hderives => by
      rcases best_le_of_derives hstable hid hderives with ⟨c, hc, hle⟩
      refine ⟨by simp [Pattern.Matches, Records, hc], c.cost, ?_, by omega⟩
      rw [bindingCost?, hc]
      rfl
  | _, id, _, hid, @Grammar.Covers.node _ _ _ subs _ n _ hn hkind hall => by
      have hchildren : ∀ child ∈ n.children, a.Below Node.children root child := by
        intro child hchild
        exact hid.trans (.of_mem hn hchild)
      rcases bindingCosts?_le_of_coversAll hstable hchildren hall with ⟨hmatches, k', hk', hle⟩
      refine ⟨⟨n, hn, hkind, hmatches⟩, k', ?_, hle⟩
      rw [bindingCost?_node hn, if_pos hkind, hk']

theorem bindingCosts?_le_of_coversAll {root : NodeId}
    (hstable : ∀ m, a.Below Node.children root m → t.Stable g a m) :
    {ps : List Pattern} → {ids : List NodeId} → {k : Nat} →
    (∀ id ∈ ids, a.Below Node.children root id) → g.CoversAll a ps ids k →
    Pattern.MatchesAll a t.Records ps ids ∧
      ∃ k', t.bindingCosts? a ps ids = .ok (some k') ∧ k' ≤ k
  | _, _, _, _, .nil => ⟨trivial, 0, by simp only [bindingCosts?]; rfl, Nat.le_refl 0⟩
  | _ :: _, id :: _, _, hids, .cons hfirst hrest => by
      have hothers := fun m hm => hids m (List.mem_cons_of_mem id hm)
      rcases bindingCost?_le_of_covers hstable (hids id List.mem_cons_self) hfirst with
        ⟨hm₁, k₁', h₁, hle₁⟩
      rcases bindingCosts?_le_of_coversAll hstable hothers hrest with ⟨hm₂, k₂', h₂, hle₂⟩
      refine ⟨⟨hm₁, hm₂⟩, _, bindingCosts?_cons h₁ h₂, ?_⟩
      -- a sum that is cut off at the limit is below the full one
      unfold addCost
      omega

end

section

variable {root : NodeId} (hstable : ∀ m, a.Below Node.children root m → t.Stable g a m)
include hstable

/-- Where every recorded cost is realized and no rule improves on one, the recorded costs are the
least ones of all derivations. -/
theorem isLeast_best (hreal : ∀ m, a.Below Node.children root m → t.Realized g a m)
    {id : NodeId} (hid : a.Below Node.children root id) {x : Nonterminal} {c : Choice}
    (hc : t.best id x = some c) :
    IsLeast {cost | ∃ k, g.Derives a id x k ∧ cost = min k costLimit} c.cost := by
  constructor
  · exact (hreal id hid).derives hc
  · rintro _ ⟨k, hk, rfl⟩
    rcases best_le_of_derives hstable hid hk with ⟨c', hc', hle⟩
    cases hc.symm.trans hc'
    exact hle

theorem best_eq_none_iff (hreal : ∀ m, a.Below Node.children root m → t.Realized g a m)
    {id : NodeId} (hid : a.Below Node.children root id) {x : Nonterminal} :
    t.best id x = none ↔ ∀ k, ¬ g.Derives a id x k := by
  constructor
  · intro hnone k hk
    rcases best_le_of_derives hstable hid hk with ⟨c, hc, -⟩
    cases hnone.symm.trans hc
  · intro hnone
    cases hbest : t.best id x with
    | none => rfl
    | some c =>
        rcases (hreal id hid).derives hbest with ⟨k, hk, -⟩
        exact absurd hk (hnone k)

end

end LabelTable
end Codegen
