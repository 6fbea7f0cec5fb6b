import Codegen.Proofs.Choice

/-!
# Relabeling — walks over arenas with shared nodes

A walk comes to a shared node once for each way that leads there, and a table may be walked over
again and again.  Whatever it meets, a walk does two things only: it changes masks and states, which
leaves the choices as they are, and it keeps rules.  So what keeping a rule maintains holds after
any number of walks.

* `Target.Moves`            : what walks do to a table and to the trace
* `Target.Sustained`        : a condition on tables that holds wherever a walk comes
* `Sustained.labelAt_moves` : a walk ends if no way comes back to where it began, and costs can be
  computed under the condition
* `Target.labelAt_ends`     : so it does where the table does not cover every node, or fails there
* `Labeling.Descends`       : the costs that the trace tells for a node fall, down to the recorded
  one
-/

namespace Codegen

/-! ## Traces -/

/-- The cost at which a rule was kept for `id` and `x`, if that is what happened. -/
def Event.keptAt? (id : NodeId) (x : Nonterminal) : Event → Option Nat
  | .labeled m y _ cost => if m = id ∧ y = x then some cost else none
  | _ => none

/-- Since `tr` the costs at which rules were kept have been falling for each node and nonterminal,
and the last of them is the recorded one. -/
def Labeling.Descends (tr : Trace) (l : Labeling) : Prop :=
  ∃ events, l.trace.toList = tr.toList ++ events ∧
    ∀ id x, (events.filterMap (Event.keptAt? id x)).Pairwise (· > ·) ∧
      (events.filterMap (Event.keptAt? id x)).getLast? = (l.table.best id x).map Choice.cost

theorem Labeling.descends_blank (nodes rules : Nat) (tr : Trace) :
    Labeling.Descends tr { table := .blank nodes rules, trace := tr } := by
  refine ⟨[], (List.append_nil _).symm, fun id x => ⟨.nil, ?_⟩⟩
  rw [LabelTable.best_blank]
  rfl

/-- The last of a list of falling numbers is the least. -/
theorem getLast?_le_of_pairwise {ks : List Nat} (h : ks.Pairwise (· > ·)) {k last : Nat}
    (hlast : ks.getLast? = some last) (hk : k ∈ ks) : last ≤ k := by
  rcases List.getLast?_eq_some_iff.1 hlast with ⟨front, rfl⟩
  rcases List.mem_append.1 hk with hfront | hend
  · have := (List.pairwise_append.1 h).2.2 k hfront last List.mem_cons_self
    omega
  · rw [List.mem_singleton.1 hend]

namespace Target

/-! ## Moves -/

/-- What walks within a set of nodes do: they change labels but not the choices in them, and keep
rules whose price improves on what is recorded. -/
inductive Moves (t : Target) (arena : Arena) (within : NodeId → Prop) : Labeling → Labeling → Prop
  | refl (l : Labeling) : Moves t arena within l l
  | relabel {l l' : Labeling} {id : NodeId} {f : Label → Label} : within id →
      (∀ old, (f old).best = old.best) →
      Moves t arena within { l with table := l.table.modify id f } l' →
      Moves t arena within l l'
  | keep {l l' : Labeling} {id : NodeId} {place : Option Place} {old : Label} {i : RuleId}
      {r : Rule} {cost : Nat} : within id → l.table.label? id = some old →
      t.grammar.rules[i]? = some r → l.table.price? arena r id = .ok (some cost) →
      l.table.improves id r.result cost = true →
      Moves t arena within ⟨t.kept place l.table id r.result { cost, rule := i },
        l.trace.push (.labeled id r.result r.name cost)⟩ l' →
      Moves t arena within l l'

/-- The table has a label for each of a set of nodes. -/
def Covered (within : NodeId → Prop) (table : LabelTable) : Prop :=
  ∀ m, within m → ∃ old, table.label? m = some old

theorem best_modify {table : LabelTable} {id : NodeId} {f : Label → Label}
    (hf : ∀ old, (f old).best = old.best) (m : NodeId) :
    (table.modify id f).best m = table.best m := by
  funext x
  rw [LabelTable.best, LabelTable.best, LabelTable.label?_modify]
  split
  · cases table.label? m with
    | none => rfl
    | some old => exact congrFun (hf old) x
  · rfl

theorem isSome_label?_modify (table : LabelTable) (id : NodeId) (f : Label → Label) (m : NodeId) :
    ((table.modify id f).label? m).isSome = (table.label? m).isSome := by
  rw [LabelTable.label?_modify]
  split
  · exact Option.isSome_map
  · rfl

theorem Covered.modify {within : NodeId → Prop} {table : LabelTable} (h : Covered within table)
    (id : NodeId) (f : Label → Label) : Covered within (table.modify id f) := by
  intro m hm
  rw [← Option.isSome_iff_exists, isSome_label?_modify, Option.isSome_iff_exists]
  exact h m hm

namespace Moves

variable {t : Target} {arena : Arena} {within within' : NodeId → Prop} {l l' l'' : Labeling}

theorem trans (h : t.Moves arena within l l') (h' : t.Moves arena within l' l'') :
    t.Moves arena within l l'' := by
  induction h with
  | refl l => exact h'
  | relabel hid hf _ ih => exact .relabel hid hf (ih h')
  | keep hid hold hr hprice himproves _ ih => exact .keep hid hold hr hprice himproves (ih h')

theorem mono (h : t.Moves arena within l l') (hsub : ∀ m, within m → within' m) :
    t.Moves arena within' l l' := by
  induction h with
  | refl l => exact .refl l
  | relabel hid hf _ ih => exact .relabel (hsub _ hid) hf ih
  | keep hid hold hr hprice himproves _ ih =>
      exact .keep (hsub _ hid) hold hr hprice himproves ih

theorem of_keeps {id : NodeId} {place : Option Place} {old : Label}
    (h : t.Keeps arena id place l l') (hid : within id) (hold : l.table.label? id = some old) :
    t.Moves arena within l l' := by
  induction h generalizing old with
  | refl l => exact .refl l
  | keep hr _ hprice himproves _ ih =>
      exact .keep hid hold hr hprice himproves (ih (label?_kept hold))

/-- No label comes or goes. -/
theorem isSome_label? (h : t.Moves arena within l l') (m : NodeId) :
    (l'.table.label? m).isSome = (l.table.label? m).isSome := by
  induction h with
  | refl l => rfl
  | relabel _ _ _ ih => rw [ih, isSome_label?_modify]
  | keep _ _ _ _ _ _ ih => rw [ih, kept, isSome_label?_modify, isSome_label?_modify]

theorem exists_label (h : t.Moves arena within l l') {m : NodeId} {old : Label}
    (hold : l.table.label? m = some old) : ∃ new, l'.table.label? m = some new := by
  rw [← Option.isSome_iff_exists, h.isSome_label?, hold]
  rfl

theorem covered (h : t.Moves arena within l l') {nodes : NodeId → Prop}
    (hcovered : Covered nodes l.table) : Covered nodes l'.table := by
  intro m hm
  rcases hcovered m hm with ⟨old, hold⟩
  exact h.exists_label hold

theorem sound (h : t.Moves arena within l l') (hsound : l.table.Sound t.grammar arena) :
    l'.table.Sound t.grammar arena := by
  induction h with
  | refl l => exact hsound
  | relabel _ hf _ ih => exact ih (hsound.of_best (best_modify hf))
  | keep _ hold hr hprice himproves _ ih =>
      exact ih (Sound.kept hold hr hprice himproves hsound)

theorem founded (h : t.Moves arena within l l') (hfounded : l.table.Founded t.grammar) :
    l'.table.Founded t.grammar := by
  induction h with
  | refl l => exact hfounded
  | relabel _ hf _ ih => exact ih (hfounded.of_best (best_modify hf))
  | keep _ hold hr hprice himproves _ ih =>
      exact ih (Founded.kept hold hr hprice himproves hfounded)

/-- What holds of the rules recorded before, and of every rule that matches where there is a label,
holds of the rules recorded afterwards. -/
theorem recorded (h : t.Moves arena within l l') (hbuilt : t.Built)
    {P : NodeId → Nonterminal → Rule → Prop}
    (hmatch : ∀ m r, (l.table.label? m).isSome = true → r ∈ t.grammar.rules →
      r.pattern.Matches arena (fun _ _ => True) m → P m r.result r)
    (hbefore : ∀ m x c r, l.table.best m x = some c → t.grammar.rules[c.rule]? = some r → P m x r) :
    ∀ m x c r, l'.table.best m x = some c → t.grammar.rules[c.rule]? = some r → P m x r := by
  -- one move after the other; only `keep` records a rule, and only at the node it is about
  induction h with
  | refl l => exact hbefore
  | relabel _ hf _ ih =>
      refine ih (fun m r hlabel => hmatch m r ?_) fun m x c r hc => hbefore m x c r ?_
      · rw [← isSome_label?_modify, hlabel]
      · rw [← best_modify hf, hc]
  | @keep l l' id place old i r cost _ hold hr hprice _ _ ih =>
      refine ih (fun m q hlabel => hmatch m q ?_) fun m x c q hc hq => ?_
      · rw [kept, isSome_label?_modify, isSome_label?_modify] at hlabel
        exact hlabel
      · by_cases hid : m = id
        · subst hid
          rw [best_kept hold] at hc
          split at hc
          · rename_i hx
            cases hc
            cases hr.symm.trans hq
            subst hx
            have hmem := List.mem_of_getElem? hq
            -- it had a price, so it matches the node as it is
            rcases LabelTable.price?_eq_some.1 hprice with ⟨base, k, -, hbound, -⟩
            have hmatches := LabelTable.matches_of_bindingCost? r.pattern (hbuilt.fits hmem) hbound
            exact hmatch m r (Option.isSome_of_eq_some hold) hmem
              (.mono r.pattern (fun _ _ _ _ => trivial) hmatches)
          · exact hbefore m x c q hc hq
        · rw [best_kept_of_ne hid] at hc
          exact hbefore m x c q hc hq

theorem noWorse (h : t.Moves arena within l l') : LabelTable.NoWorse l.table l'.table := by
  induction h with
  | refl l => exact .refl l.table
  | relabel _ hf _ ih => exact (LabelTable.NoWorse.of_best (best_modify hf)).trans ih
  | keep _ hold _ _ himproves _ ih => exact (noWorse_kept hold himproves).trans ih

/-- Outside the nodes walked over all labels stay. -/
theorem label?_of_not (h : t.Moves arena within l l') {m : NodeId} (hm : ¬ within m) :
    l'.table.label? m = l.table.label? m := by
  induction h with
  | refl l => rfl
  | @relabel l l' id f hid _ _ ih =>
      have hne : m ≠ id := by
        rintro rfl
        exact hm hid
      exact ih.trans (LabelTable.label?_modify_of_ne hne)
  | @keep l l' id place old i r cost hid _ _ _ _ _ ih =>
      have hne : m ≠ id := by
        rintro rfl
        exact hm hid
      exact ih.trans (label?_kept_of_ne hne)

theorem within_of_best (h : t.Moves arena within l l') (hblank : ∀ m x, l.table.best m x = none)
    {m : NodeId} {x : Nonterminal} {c : Choice} (hc : l'.table.best m x = some c) : within m := by
  by_contra hm
  rw [LabelTable.best_congr (h.label?_of_not hm), hblank] at hc
  cases hc

/-- Each rule that is kept adds its cost to the trace, and that cost is below the last one. -/
theorem descends (h : t.Moves arena within l l') {tr : Trace} (hdesc : l.Descends tr) :
    l'.Descends tr := by
  induction h with
  | refl l => exact hdesc
  | relabel _ hf _ ih =>
      rcases hdesc with ⟨events, htrace, hcosts⟩
      refine ih ⟨events, htrace, fun m x => ?_⟩
      rw [best_modify hf]
      exact hcosts m x
  | @keep l l' id place old i r cost _ hold _ _ himproves _ ih =>
      rcases hdesc with ⟨events, htrace, hcosts⟩
      refine ih ⟨events ++ [.labeled id r.result r.name cost], ?_, fun m x => ?_⟩
      · rw [Array.toList_push, htrace, List.append_assoc]
      · rcases hcosts m x with ⟨hfall, hlast⟩
        rw [List.filterMap_append]
        by_cases hat : id = m ∧ r.result = x
        · rcases hat with ⟨rfl, rfl⟩
          have hevent : [Event.labeled id r.result r.name cost].filterMap
              (Event.keptAt? id r.result) = [cost] := by
            simp [Event.keptAt?]
          rw [hevent, best_kept hold, if_pos rfl, List.getLast?_concat]
          refine ⟨List.pairwise_append.2 ⟨hfall, List.pairwise_singleton _ _, ?_⟩, rfl⟩
          intro k hk k' hk'
          rw [List.mem_singleton.1 hk']
          -- there is a last cost, namely the recorded one, and the new cost is below it
          cases hbest : l.table.best id r.result with
          | none =>
              rw [hbest, Option.map_none, List.getLast?_eq_none_iff] at hlast
              rw [hlast] at hk
              cases hk
          | some c =>
              rw [hbest, Option.map_some] at hlast
              exact Nat.lt_of_lt_of_le (lt_of_improves himproves hbest)
                (getLast?_le_of_pairwise hfall hlast hk)
        · have hevent : [Event.labeled id r.result r.name cost].filterMap (Event.keptAt? m x) =
              [] := by
            simp [Event.keptAt?, hat]
          have hbest : (t.kept place l.table id r.result { cost, rule := i }).best m x =
              l.table.best m x := by
            by_cases hm : m = id
            · subst hm
              rw [best_kept hold, if_neg fun hx => hat ⟨rfl, hx.symm⟩]
            · rw [best_kept_of_ne hm]
          rw [hevent, List.append_nil, hbest]
          exact ⟨hfall, hlast⟩

end Moves

/-! ## Runs that succeed -/

section

variable {t : Target} {arena : Arena} {id : NodeId} {place : Option Place} {l l' : Labeling}

theorem relabel_eq_ok {f : Label → Label} (h : (LabelM.relabel id f).run l = .ok () l') :
    (∃ old, l.table.label? id = some old) ∧ l' = { l with table := l.table.modify id f } := by
  rw [LabelM.relabel, run_bind_of_ok (EStateM.run_get l)] at h
  split at h
  · rename_i hcovers
    refine ⟨⟨_, Array.getElem?_eq_getElem (of_decide_eq_true hcovers)⟩, ?_⟩
    cases h
    rfl
  · cases h

theorem ofExcept_eq_ok {α : Type} {e : Except Fault α} {v : α}
    (h : (LabelM.ofExcept e).run l = .ok v l') : e = .ok v ∧ l' = l := by
  cases e with
  | ok u =>
      cases h
      exact ⟨rfl, rfl⟩
  | error f => cases h

theorem moves_of_relabel {f : Label → Label} (h : (LabelM.relabel id f).run l = .ok () l')
    (hf : ∀ old, (f old).best = old.best) :
    t.Moves arena (fun _ => True) l l' := by
  rw [(relabel_eq_ok h).2]
  exact .relabel trivial hf (.refl _)

theorem moves_of_consider {i : RuleId} {r : Rule} (hr : t.grammar.rules[i]? = some r) {kept : Bool}
    (h : (t.consider arena id place i r).run l = .ok kept l') :
    t.Moves arena (fun _ => True) l l' := by
  rw [consider, run_bind_of_ok (EStateM.run_get l)] at h
  dsimp only at h
  split at h
  · cases h
    exact .refl _
  · rcases run_bind_eq_ok.1 h with ⟨o, l₁, hprice, hrest⟩
    rcases ofExcept_eq_ok hprice with ⟨hprice, rfl⟩
    cases o with
    | none =>
        cases hrest
        exact .refl _
    | some cost =>
        dsimp only at hrest
        split at hrest
        · cases hrest
          exact .refl _
        · rename_i himproves
          rcases run_bind_eq_ok.1 hrest with ⟨_, l₂, hset, hrest⟩
          rcases relabel_eq_ok hset with ⟨⟨old, hold⟩, rfl⟩
          rw [run_bind_of_ok (run_log _ _),
            run_bind_of_ok (run_relabel (LabelTable.label?_modify_self hold) _)] at hrest
          cases hrest
          exact .keep trivial hold hr hprice (by simpa using himproves) (.refl _)

theorem moves_of_round {rules : List Rule} {i : RuleId}
    (hrules : ∀ j : Nat, rules[j]? = t.grammar.rules[i + j]?) {kept : Bool}
    (h : (t.round arena id place rules i).run l = .ok kept l') :
    t.Moves arena (fun _ => True) l l' := by
  induction rules generalizing i l kept with
  | nil =>
      cases h
      exact .refl _
  | cons r rest ih =>
      have hrest : ∀ j : Nat, rest[j]? = t.grammar.rules[i + 1 + j]? := by
        intro j
        rw [Nat.add_right_comm]
        exact hrules (j + 1)
      rw [round] at h
      rcases run_bind_eq_ok.1 h with ⟨_, l₁, hfirst, h⟩
      rcases run_bind_eq_ok.1 h with ⟨_, l₂, hlater, h⟩
      cases h
      exact (moves_of_consider (hrules 0).symm hfirst).trans (ih hrest hlater)

theorem moves_of_rounds {fuel : Nat} (h : (t.rounds arena id place fuel).run l = .ok () l') :
    t.Moves arena (fun _ => True) l l' := by
  induction fuel generalizing l with
  | zero => cases h
  | succ fuel ih =>
      rw [rounds] at h
      rcases run_bind_eq_ok.1 h with ⟨again, l₁, hround, h⟩
      have hmoves := moves_of_round (by simp) hround
      cases again with
      | true => exact hmoves.trans (ih h)
      | false =>
          cases h
          exact hmoves

theorem moves_of_combine {children : List NodeId}
    (h : (t.combine id children).run l = .ok () l') : t.Moves arena (fun _ => True) l l' := by
  cases children with
  | nil =>
      cases h
      exact .refl _
  | cons first others =>
      rw [combine, run_bind_of_ok (EStateM.run_get l)] at h
      exact moves_of_relabel h fun old => funext (Label.best_accept old _)

theorem moves_of_forM {α : Type} {walk : α → LabelM Unit}
    (hwalk : ∀ item l l', (walk item).run l = .ok () l' → t.Moves arena (fun _ => True) l l')
    {items : List α} (h : (items.forM walk).run l = .ok () l') :
    t.Moves arena (fun _ => True) l l' := by
  induction items generalizing l with
  | nil =>
      cases h
      exact .refl _
  | cons first rest ih =>
      rw [List.forM_eq_forM, List.forM_cons] at h
      rcases run_bind_eq_ok.1 h with ⟨_, l₁, hfirst, h⟩
      exact (hwalk first l l₁ hfirst).trans (ih h)

/-- Whatever the arena, a walk that succeeds has made moves. -/
theorem moves_of_labelAt {fuel : Nat} (h : (t.labelAt arena fuel id place).run l = .ok () l') :
    t.Moves arena (fun _ => True) l l' := by
  induction fuel generalizing id place l l' with
  | zero => cases h
  | succ fuel ih =>
      rw [labelAt] at h
      rcases run_bind_eq_ok.1 h with ⟨n, l₁, hnode, hrest⟩
      rcases ofExcept_eq_ok hnode with ⟨-, rfl⟩
      dsimp only at hrest
      rcases run_bind_eq_ok.1 hrest with ⟨_, l₂, hstate, hrest⟩
      rcases run_bind_eq_ok.1 hrest with ⟨_, l₃, hchildren, hrest⟩
      rcases run_bind_eq_ok.1 hrest with ⟨_, l₄, haccept, hrest⟩
      rcases run_bind_eq_ok.1 hrest with ⟨_, l₅, hcombine, hsettle⟩
      rw [settle, run_bind_of_ok (EStateM.run_get l₅)] at hsettle
      exact (moves_of_relabel hstate fun _ => rfl).trans
        ((moves_of_forM (fun _ _ _ hwalk => ih hwalk) hchildren).trans
          ((moves_of_relabel haccept fun old => funext (Label.best_accept old _)).trans
            ((moves_of_combine hcombine).trans (moves_of_rounds hsettle))))

end

/-! ## Walks -/

/-- From a child all ways are shorter by one level. -/
theorem shorter_of_child {arena : Arena} {id child : NodeId} {n : Node} {slot fuel : Nat}
    (hn : arena.get? id = some n) (hslot : n.children[slot]? = some child)
    (hfuel : ∀ v m, arena.Path Node.children id v m → v.length < 2 * (fuel + 1)) :
    ∀ v m, arena.Path Node.children child v m → v.length < 2 * fuel :=
  (Arena.Path.step hn hslot (.root child)).shorter nofun hfuel

/-- The walk over some children of a node of kind `kind` at a place. -/
def walkChildren (t : Target) (arena : Arena) (fuel : Nat) (place : Option Place) (kind : NodeKind)
    (children : List (NodeId × Nat)) : LabelM Unit :=
  children.forM fun (child, slot) => t.labelAt arena fuel child
    (some { parent := t.automaton.enter place (.kind kind), slot })

/-- What the walk does at a node when it has come back from the children. -/
def comeBack (t : Target) (arena : Arena) (id : NodeId) (place : Option Place) (n : Node) :
    LabelM Unit := do
  LabelM.relabel id (·.accept (t.automaton.accepting (t.automaton.enter place (.kind n.kind))))
  t.combine id n.children
  t.settle arena id place

/-- On the way down only the state of a node is set. -/
theorem run_labelAt {t : Target} {arena : Arena} {fuel : Nat} {id : NodeId} {place : Option Place}
    {n : Node} {l : Labeling} {old : Label} (hn : arena.get? id = some n)
    (hold : l.table.label? id = some old) :
    (t.labelAt arena (fuel + 1) id place).run l = (do
      t.walkChildren arena fuel place n.kind n.children.zipIdx
      t.comeBack arena id place n).run
        { l with
          table := l.table.modify id
            ({ · with state := t.automaton.enter place (.kind n.kind) }) } := by
  rw [labelAt, run_bind_of_ok (run_ofExcept (Arena.node_eq_ok_iff.2 hn) l)]
  dsimp only
  rw [run_bind_of_ok (run_relabel hold _)]
  rfl

theorem state_moves (t : Target) (arena : Arena) {within : NodeId → Prop} {id : NodeId}
    (hid : within id) (state : StateId) (l : Labeling) :
    t.Moves arena within l { l with table := l.table.modify id ({ · with state }) } := by
  refine .relabel hid ?_ (.refl _)
  intro old
  rfl

theorem accept_moves (t : Target) (arena : Arena) {within : NodeId → Prop} {id : NodeId}
    (hid : within id) (accepting : Array DepthMask) (l : Labeling) :
    t.Moves arena within l { l with table := l.table.modify id (·.accept accepting) } :=
  .relabel hid (fun old => funext (Label.best_accept old accepting)) (.refl _)

/-! ## Conditions that walks maintain -/

/-- What a walk does at a node in its place maintains a condition on tables, and under the condition
the costs that it asks for can be computed. -/
structure Steady (t : Target) (arena : Arena) (holds : LabelTable → Prop) (id : NodeId)
    (place : Option Place) : Prop where
  dag : arena.IsDag Node.children id
  label {table : LabelTable} : holds table → ∃ old, table.label? id = some old
  state {table : LabelTable} (state : StateId) : holds table →
    holds (table.modify id ({ · with state }))
  arrive {table : LabelTable} {n : Node} : arena.get? id = some n → holds table →
    holds (table.modify id
      (·.accept (t.automaton.accepting (t.automaton.enter place (.kind n.kind)))))
  combine {table : LabelTable} {n : Node} {first : NodeId} {others : List NodeId} :
    arena.get? id = some n → n.children = first :: others → holds table →
    holds (table.modify id
      (·.accept ((Array.range t.grammar.size).map (agreement table first others))))
  keep {table : LabelTable} {i : RuleId} {r : Rule} {cost : Nat} :
    t.grammar.rules[i]? = some r → table.price? arena r id = .ok (some cost) → holds table →
    holds (t.kept place table id r.result { cost, rule := i })
  priced {table : LabelTable} {i : RuleId} {r : Rule} : holds table →
    t.grammar.rules[i]? = some r → (table.word id i).getLsbD 0 = true →
    ∃ base, r.cost.base? arena id = .ok base

/-- A condition is maintained at every node that a walk comes to. -/
structure Sustained (t : Target) (arena : Arena) (visits : NodeId → Option Place → Prop)
    (holds : LabelTable → Prop) : Prop where
  steady {id : NodeId} {place : Option Place} : visits id place → t.Steady arena holds id place
  child {id c : NodeId} {place : Option Place} {n : Node} {slot : Nat} : visits id place →
    arena.get? id = some n → n.children[slot]? = some c →
    visits c (some { parent := t.automaton.enter place (.kind n.kind), slot })

namespace Steady

variable {t : Target} {arena : Arena} {holds : LabelTable → Prop} {id : NodeId}
  {place : Option Place} (h : t.Steady arena holds id place) {within : NodeId → Prop}
  (hid : within id) {l l' : Labeling}
include h

theorem keeps (hkeeps : t.Keeps arena id place l l') (hl : holds l.table) : holds l'.table := by
  induction hkeeps with
  | refl l => exact hl
  | keep hr _ hprice _ _ ih => exact ih (h.keep hr hprice hl)

theorem priceable (hl : holds l.table) : t.Priceable arena id place l :=
  fun _ _ _ hkeeps hr hbit => h.priced (h.keeps hkeeps hl) hr hbit

include hid

theorem combine_moves {n : Node} (hn : arena.get? id = some n) (hl : holds l.table) :
    ∃ l', (t.combine id n.children).run l = .ok () l' ∧ t.Moves arena within l l' ∧
      holds l'.table := by
  rcases h.label hl with ⟨old, hold⟩
  cases hchildren : n.children with
  | nil => exact ⟨l, rfl, .refl l, hl⟩
  | cons first others =>
      refine ⟨_, ?_, accept_moves t arena hid _ l, h.combine hn hchildren hl⟩
      rw [Target.combine, run_bind_of_ok (EStateM.run_get l)]
      exact run_relabel hold _

theorem comeBack_moves {n : Node} (hn : arena.get? id = some n) (hl : holds l.table) :
    ∃ l', (t.comeBack arena id place n).run l = .ok () l' ∧ t.Moves arena within l l' ∧
      holds l'.table := by
  rcases h.label hl with ⟨old, hold⟩
  have haccept := accept_moves t arena hid
    (t.automaton.accepting (t.automaton.enter place (.kind n.kind))) l
  rcases h.combine_moves hid (l := { l with table := l.table.modify id _ }) hn (h.arrive hn hl) with
    ⟨l₂, hrun₂, hmoves₂, hl₂⟩
  rcases h.label hl₂ with ⟨old₂, hold₂⟩
  rcases settle_keeps h.dag (h.priceable hl₂) hold₂ with ⟨l', hrun', hkeeps, -⟩
  refine ⟨l', ?_, haccept.trans (hmoves₂.trans (.of_keeps hkeeps hid hold₂)), h.keeps hkeeps hl₂⟩
  rw [comeBack, run_bind_of_ok (run_relabel hold _), run_bind_of_ok hrun₂, hrun']

end Steady

/-- If each of several walks makes moves and maintains a condition, so do all of them in a row. -/
theorem forM_moves {α : Type} {t : Target} {arena : Arena} {within : NodeId → Prop}
    {holds : LabelTable → Prop} {walk : α → LabelM Unit} {items : List α}
    (h : ∀ item ∈ items, ∀ l, holds l.table →
      ∃ l', (walk item).run l = .ok () l' ∧ t.Moves arena within l l' ∧ holds l'.table)
    {l : Labeling} (hl : holds l.table) :
    ∃ l', (items.forM walk).run l = .ok () l' ∧ t.Moves arena within l l' ∧ holds l'.table := by
  induction items generalizing l with
  | nil => exact ⟨l, rfl, .refl l, hl⟩
  | cons first rest ih =>
      rcases h first List.mem_cons_self l hl with ⟨l₁, hrun₁, hmoves₁, hl₁⟩
      rcases ih (fun item hitem => h item (List.mem_cons_of_mem first hitem)) hl₁ with
        ⟨l', hrun', hmoves', hl'⟩
      refine ⟨l', ?_, hmoves₁.trans hmoves', hl'⟩
      rw [List.forM_eq_forM, List.forM_cons, run_bind_of_ok hrun₁]
      exact hrun'

namespace Sustained

variable {t : Target} {arena : Arena} {visits : NodeId → Option Place → Prop}
  {holds : LabelTable → Prop} (h : t.Sustained arena visits holds)
include h

/-- The walk over the subtree of a node ends if it is no higher than the fuel. -/
theorem labelAt_moves {fuel : Nat} {id : NodeId} {place : Option Place} (hid : visits id place)
    (hfuel : ∀ v m, arena.Path Node.children id v m → v.length < 2 * fuel) {l : Labeling}
    (hl : holds l.table) :
    ∃ l', (t.labelAt arena fuel id place).run l = .ok () l' ∧
      t.Moves arena (arena.Below Node.children id) l l' ∧ holds l'.table := by
  induction fuel generalizing id place l with
  | zero => exact absurd (hfuel [] id (.root id)) (Nat.not_lt_zero _)
  | succ fuel ih =>
      have hsteady := h.steady hid
      rcases hsteady.dag.exists_get? with ⟨n, hn⟩
      rcases hsteady.label hl with ⟨old, hold⟩
      have hself : arena.Below Node.children id id := .refl id
      have hstate := state_moves t arena hself (t.automaton.enter place (.kind n.kind)) l
      -- each child is walked over with one level less
      have hwalk : ∀ item ∈ n.children.zipIdx, ∀ l₁ : Labeling, holds l₁.table →
          ∃ l', ((fun (child, slot) => t.labelAt arena fuel child
              (some { parent := t.automaton.enter place (.kind n.kind), slot })) item).run l₁ =
                .ok () l' ∧
            t.Moves arena (arena.Below Node.children id) l₁ l' ∧ holds l'.table := by
        rintro ⟨child, slot⟩ hitem l₁ hl₁
        have hslot := List.mem_zipIdx_iff_getElem?.1 hitem
        rcases ih (h.child hid hn hslot) (shorter_of_child hn hslot hfuel) hl₁ with
          ⟨l', hrun, hmoves, hl'⟩
        exact ⟨l', hrun, hmoves.mono fun m hm => (Arena.Below.child hn hslot).trans hm, hl'⟩
      rcases forM_moves hwalk (l := { l with table := l.table.modify id _ })
          (hsteady.state (t.automaton.enter place (.kind n.kind)) hl) with
        ⟨l₂, hrun₂, hmoves₂, hl₂⟩
      rcases hsteady.comeBack_moves hself hn hl₂ with ⟨l', hrun', hmoves', hl'⟩
      refine ⟨l', ?_, hstate.trans (hmoves₂.trans hmoves'), hl'⟩
      rw [run_labelAt hn hold, walkChildren, run_bind_of_ok hrun₂, hrun']

theorem label_moves {root : NodeId} (hroot : visits root none) {l : Labeling}
    (hl : holds l.table) :
    ∃ l', (t.label arena root).run l = .ok () l' ∧
      t.Moves arena (arena.Below Node.children root) l l' ∧ holds l'.table := by
  refine h.labelAt_moves hroot ?_ hl
  intro v m hv
  have := (h.steady hroot).dag.length_lt hv
  omega

theorem labelAll_moves {roots : List NodeId} (hroots : ∀ root ∈ roots, visits root none)
    {l : Labeling} (hl : holds l.table) :
    ∃ l', (t.labelAll arena roots).run l = .ok () l' ∧
      t.Moves arena (fun m => ∃ root ∈ roots, arena.Below Node.children root m) l l' ∧
      holds l'.table := by
  refine forM_moves ?_ hl
  intro root hroot l hl
  rcases h.label_moves (hroots root hroot) hl with ⟨l', hrun, hmoves, hl'⟩
  exact ⟨l', hrun, hmoves.mono fun m hm => ⟨root, hroot, hm⟩, hl'⟩

end Sustained

/-! ## Costs that can be computed everywhere -/

/-- If all costs can be computed, nothing is needed but a label for each node. -/
theorem steady_of_total {t : Target} {arena : Arena} {within : NodeId → Prop} {id : NodeId}
    (hdag : arena.IsDag Node.children id) (htotal : t.grammar.Total arena id)
    (place : Option Place) (hid : within id) : t.Steady arena (Covered within) id place where
  dag := hdag
  label hcovered := hcovered id hid
  state _ hcovered := hcovered.modify id _
  arrive _ hcovered := hcovered.modify id _
  combine _ _ hcovered := hcovered.modify id _
  keep _ _ hcovered := (hcovered.modify id _).modify id _
  priced _ hr _ := htotal _ (List.mem_of_getElem? hr) id (.refl id)

theorem sustained_of_total {t : Target} {arena : Arena} {within : NodeId → Prop}
    (hdag : ∀ m, within m → arena.IsDag Node.children m)
    (htotal : ∀ m, within m → t.grammar.Total arena m)
    (hbelow : ∀ m c, within m → arena.Below Node.children m c → within c) :
    t.Sustained arena (fun m _ => within m) (Covered within) where
  steady hid := steady_of_total (hdag _ hid) (htotal _ hid) _ hid
  child hid hn hslot := hbelow _ _ hid (.child hn hslot)

theorem label_moves {t : Target} {arena : Arena} {root : NodeId}
    (hdag : arena.IsDag Node.children root) (htotal : t.grammar.Total arena root) {l : Labeling}
    (hcovered : Covered (arena.Below Node.children root) l.table) :
    ∃ l', (t.label arena root).run l = .ok () l' ∧
      t.Moves arena (arena.Below Node.children root) l l' := by
  rcases (sustained_of_total (fun m hm => hdag.of_below hm) (fun m hm => htotal.of_below hm)
      fun m c hm hc => hm.trans hc).label_moves (.refl root) hcovered with
    ⟨l', hrun, hmoves, -⟩
  exact ⟨l', hrun, hmoves⟩

/-- One rule for negated numbers, with a cost that can be computed for negations only. -/
def guardedTarget : Target where
  grammar :=
    { rules :=
        [ ⟨"negate", .node .unary [.leaf .literal], .reg, .computed fun arena id => do
            match ← arena.kind id with
            | .unary => return some 1
            | _ => throw (.outsideArena id), .keep⟩ ]
      start := .reg }
  automaton := .ofPatterns [.node .unary [.leaf .literal]]
  settings := {}

-- In `-5 + (5)` with one node for the number, the group takes over that its only child is matched
-- below a negation.  The walk then asks for the cost at the group, where the pattern does not
-- match.
example : endState? ((guardedTarget.label
    ⟨#[.literal 5, .unary .neg 0, .grouping 0, .binary .add 1 2]⟩ 3).run
      { table := .blank 4 1 }) = none := by
  decide +kernel

/-- Labeling any list of roots ends, without a cycle below any of them. -/
theorem labelAll_moves {t : Target} {arena : Arena} {roots : List NodeId}
    (hdag : ∀ root ∈ roots, arena.IsDag Node.children root)
    (htotal : ∀ root ∈ roots, t.grammar.Total arena root) {l : Labeling}
    (hcovered : Covered (fun m => ∃ root ∈ roots, arena.Below Node.children root m) l.table) :
    ∃ l', (t.labelAll arena roots).run l = .ok () l' ∧
      t.Moves arena (fun m => ∃ root ∈ roots, arena.Below Node.children root m) l l' := by
  have hsustained : t.Sustained arena
      (fun m _ => ∃ root ∈ roots, arena.Below Node.children root m)
      (Covered fun m => ∃ root ∈ roots, arena.Below Node.children root m) := by
    refine sustained_of_total ?_ ?_ ?_
    · rintro m ⟨root, hroot, hm⟩
      exact (hdag root hroot).of_below hm
    · rintro m ⟨root, hroot, hm⟩
      exact (htotal root hroot).of_below hm
    · rintro m c ⟨root, hroot, hm⟩ hc
      exact ⟨root, hroot, hm.trans hc⟩
  rcases hsustained.labelAll_moves (fun root hroot => ⟨root, hroot, .refl root⟩) hcovered with
    ⟨l', hrun, hmoves, -⟩
  exact ⟨l', hrun, hmoves⟩

theorem covered_blank {within : NodeId → Prop} {nodes : Nat} (h : ∀ m, within m → m < nodes)
    (rules : Nat) : Covered within (.blank nodes rules) :=
  fun m hm => ⟨_, LabelTable.label?_blank (h m hm)⟩

/-- Labeling any list of roots in a blank table that covers the arena. -/
theorem labelAll_blank_moves {t : Target} {arena : Arena} {roots : List NodeId}
    (hdag : ∀ root ∈ roots, arena.IsDag Node.children root)
    (htotal : ∀ root ∈ roots, t.grammar.Total arena root) {nodes : Nat}
    (hcovers : arena.size ≤ nodes) (tr : Trace) :
    ∃ l, (t.labelAll arena roots).run { table := .blank nodes t.grammar.size, trace := tr } =
        .ok () l ∧
      t.Moves arena (fun m => ∃ root ∈ roots, arena.Below Node.children root m)
        { table := .blank nodes t.grammar.size, trace := tr } l := by
  refine labelAll_moves hdag htotal (covered_blank ?_ t.grammar.size)
  rintro m ⟨root, hroot, hm⟩
  exact Nat.lt_of_lt_of_le ((hdag root hroot).inside m hm) hcovers

theorem run_labelAll_append (t : Target) (arena : Arena) (before after : List NodeId)
    (l : Labeling) :
    (t.labelAll arena (before ++ after)).run l =
      (t.labelAll arena before >>= fun _ => t.labelAll arena after).run l := by
  rw [labelAll, List.forM_eq_forM, List.forM_append]
  rfl

/-! ## Walks that leave the table -/

/-- A walk from `l` ends, with moves or at a node that the table does not cover. -/
def WalkEnds (t : Target) (arena : Arena) (l : Labeling) :
    EStateM.Result Fault Labeling Unit → Prop
  | .ok _ l' => t.Moves arena (fun _ => True) l l'
  | .error f _ => ∃ m, f = .outsideTable m ∧ l.table.label? m = none

/-- Moves do not change which nodes are covered. -/
theorem WalkEnds.after {t : Target} {arena : Arena} {l l₁ : Labeling}
    {result : EStateM.Result Fault Labeling Unit} (hmoves : t.Moves arena (fun _ => True) l l₁)
    (h : t.WalkEnds arena l₁ result) : t.WalkEnds arena l result := by
  cases result with
  | ok _ l' => exact hmoves.trans h
  | error f l' =>
      rcases h with ⟨m, hm, hnone⟩
      refine ⟨m, hm, ?_⟩
      rw [← Option.not_isSome_iff_eq_none, ← hmoves.isSome_label?, Option.not_isSome_iff_eq_none]
      exact hnone

theorem WalkEnds.bind {t : Target} {arena : Arena} {l : Labeling} {x : LabelM Unit}
    {f : Unit → LabelM Unit} (hx : t.WalkEnds arena l (x.run l))
    (hf : ∀ l₁, t.Moves arena (fun _ => True) l l₁ → t.WalkEnds arena l₁ ((f ()).run l₁)) :
    t.WalkEnds arena l ((x >>= f).run l) := by
  rw [EStateM.run_bind]
  cases hrun : x.run l with
  | ok _ l₁ =>
      rw [hrun] at hx
      exact (hf l₁ hx).after hx
  | error e l₁ =>
      rw [hrun] at hx
      exact hx

theorem forM_ends {α : Type} {t : Target} {arena : Arena} {walk : α → LabelM Unit}
    {items : List α} (h : ∀ item ∈ items, ∀ l, t.WalkEnds arena l ((walk item).run l))
    (l : Labeling) : t.WalkEnds arena l ((items.forM walk).run l) := by
  induction items generalizing l with
  | nil => exact .refl l
  | cons first rest ih =>
      rw [List.forM_eq_forM, List.forM_cons]
      refine (h first List.mem_cons_self l).bind ?_
      intro l₁ _
      exact ih (fun item hitem => h item (List.mem_cons_of_mem first hitem)) l₁

/-- A walk without a cycle comes to an end, whatever the table covers. -/
theorem labelAt_ends {t : Target} {arena : Arena} {fuel : Nat} {id : NodeId}
    (place : Option Place) (hdag : arena.IsDag Node.children id)
    (htotal : t.grammar.Total arena id)
    (hfuel : ∀ v m, arena.Path Node.children id v m → v.length < 2 * fuel) (l : Labeling) :
    t.WalkEnds arena l ((t.labelAt arena fuel id place).run l) := by
  induction fuel generalizing id place l with
  | zero => exact absurd (hfuel [] id (.root id)) (Nat.not_lt_zero _)
  | succ fuel ih =>
      rcases hdag.exists_get? with ⟨n, hn⟩
      cases hold : l.table.label? id with
      | none =>
          -- the walk stops where it would first write
          rw [labelAt, run_bind_of_ok (run_ofExcept (Arena.node_eq_ok_iff.2 hn) l)]
          dsimp only
          rw [EStateM.run_bind, run_relabel_none hold]
          exact ⟨id, rfl, hold⟩
      | some old =>
          have hself : arena.Below Node.children id id := .refl id
          have hstate := (state_moves t arena hself (t.automaton.enter place (.kind n.kind)) l).mono
            fun _ _ => trivial
          rw [run_labelAt hn hold]
          refine WalkEnds.after hstate (WalkEnds.bind (forM_ends ?_ _) ?_)
          · rintro ⟨child, slot⟩ hitem l₁
            have hslot := List.mem_zipIdx_iff_getElem?.1 hitem
            exact ih _ (hdag.child hn hslot) (htotal.of_below (.child hn hslot))
              (shorter_of_child hn hslot hfuel) l₁
          · intro l₂ hmoves
            have hcovered : Covered (id = ·) l₂.table := by
              rintro m rfl
              exact (hstate.trans hmoves).exists_label hold
            have hsteady := steady_of_total hdag htotal place (Eq.refl id)
            rcases hsteady.comeBack_moves hself hn hcovered with ⟨l', hrun, hmoves', -⟩
            rw [hrun]
            exact hmoves'.mono fun _ _ => trivial

theorem label_ends {t : Target} {arena : Arena} {root : NodeId}
    (hdag : arena.IsDag Node.children root) (htotal : t.grammar.Total arena root)
    (l : Labeling) : t.WalkEnds arena l ((t.label arena root).run l) := by
  refine labelAt_ends none hdag htotal ?_ l
  intro v m hv
  have := hdag.length_lt hv
  omega

end Target
end Codegen
