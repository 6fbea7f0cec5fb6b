import Codegen.Proofs.Relabeling
import Codegen.Proofs.Selecting

/-!
# Narrowing — reductions that come to an end

A reduction follows child slots and chain rules, and on the way it points slots to nodes that stand
for values.  Chain rules come to an end at every node.  As for the slots: if the node that stands
for a value leads to no earlier node but those below the node it stands for, then no way to an
earlier node is ever added, and what is left to follow are the ways there were in the beginning.

* `Arena.Narrows`              : nodes may be added, but no ways between those that were there
* `Arena.Narrows.splice`       : what pointing a slot to a value does
* `Emission.Local`             : a procedure that has to do with the matched node alone
* `Target.terminates_of_best`  : a recorded reduction ends
-/

namespace Codegen

/-! ## Ways between nodes -/

namespace Arena

variable {a b c : Arena} {id m k v : NodeId} {n n' : Node} {slot : Nat}

/-- A way leads from a child of `m` to `k`. -/
def Under (a : Arena) (m k : NodeId) : Prop :=
  ∃ n, a.get? m = some n ∧ ∃ child ∈ n.children, a.Below Node.children child k

/-- All nodes below `m` are in the arena. -/
def Inside (a : Arena) (m : NodeId) : Prop :=
  ∀ k, a.Below Node.children m k → k < a.size

theorem Under.below (h : a.Under m k) : a.Below Node.children m k := by
  rcases h with ⟨n, hn, child, hchild, hbelow⟩
  exact (Below.of_mem hn hchild).trans hbelow

theorem Under.trans_below (h : a.Under m id) (h' : a.Below Node.children id k) :
    a.Under m k := by
  rcases h with ⟨n, hn, child, hchild, hbelow⟩
  exact ⟨n, hn, child, hchild, hbelow.trans h'⟩

theorem Below.eq_or_under (h : a.Below Node.children m k) : m = k ∨ a.Under m k := by
  rcases h with ⟨w, hw⟩
  cases hw with
  | root => exact .inl rfl
  | @step _ child _ n slot w hn hchild hw =>
      exact .inr ⟨n, hn, child, List.mem_of_getElem? hchild, w, hw⟩

theorem Below.trans_under (h : a.Below Node.children m id) (h' : a.Under id k) :
    a.Under m k := by
  rcases h.eq_or_under with rfl | hunder
  · exact h'
  · exact hunder.trans_below h'.below

theorem Inside.of_below (h : a.Inside m) (hk : a.Below Node.children m k) : a.Inside k :=
  fun _ hbelow => h _ (hk.trans hbelow)

theorem Inside.lt_size (h : a.Inside m) : m < a.size := h m (.refl m)

theorem Inside.exists_get? (h : a.Inside m) : ∃ n, a.get? m = some n :=
  ⟨_, Array.getElem?_eq_getElem h.lt_size⟩

/-- The nodes of `a` are in `b`; from a node that has all its nodes no way leads out, and between
nodes of `a` there are no ways in `b` that are not in `a`. -/
structure Narrows (a b : Arena) : Prop where
  size : a.size ≤ b.size
  inside : ∀ m, a.Inside m → b.Inside m
  under : ∀ m k, m < a.size → k < a.size → b.Under m k → a.Under m k

namespace Narrows

theorem refl (a : Arena) : Narrows a a :=
  ⟨Nat.le_refl _, fun _ h => h, fun _ _ _ _ h => h⟩

theorem trans (h : Narrows a b) (h' : Narrows b c) : Narrows a c where
  size := h.size.trans h'.size
  inside m hm := h'.inside m (h.inside m hm)
  under m k hm hk hunder :=
    h.under m k hm hk
      (h'.under m k (Nat.lt_of_lt_of_le hm h.size) (Nat.lt_of_lt_of_le hk h.size) hunder)

theorem below (h : Narrows a b) (hm : m < a.size) (hk : k < a.size)
    (hbelow : b.Below Node.children m k) : a.Below Node.children m k := by
  rcases hbelow.eq_or_under with rfl | hunder
  · exact .refl m
  · exact (h.under m k hm hk hunder).below

end Narrows

/-- The slots of a node that differ after one was set lead to the new child. -/
theorem mem_children_set {child : NodeId} (hset : n.setChild? slot v = some n')
    (hchild : child ∈ n'.children) : child ∈ n.children ∨ child = v := by
  rw [Node.children_setChild? hset] at hchild
  exact List.mem_or_eq_of_mem_set hchild

/-- A way in the arena with one slot set either avoids the slot, or leads to its node and, after its
last use, on from the new child. -/
theorem below_set (hn : b.get? id = some n) (hset : n.setChild? slot v = some n')
    (h : (b.set id n').Below Node.children m k) :
    b.Below Node.children m k ∨ b.Below Node.children m id ∧ b.Below Node.children v k := by
  rcases h with ⟨w, hw⟩
  induction hw with
  | root m => exact .inl (.refl m)
  | @step m child k q slot' w hq hchild _ ih =>
      by_cases hm : m = id
      · subst hm
        rw [get?_set_self (lt_size hn)] at hq
        cases hq
        rcases mem_children_set hset (List.mem_of_getElem? hchild) with hold | rfl
        · have hbelow := Below.of_mem hn hold
          exact ih.imp hbelow.trans fun h => ⟨hbelow.trans h.1, h.2⟩
        · rcases ih with hk | ⟨-, hk⟩ <;> exact .inr ⟨.refl m, hk⟩
      · rw [get?_set_of_ne _ hm] at hq
        have hbelow := Below.child hq hchild
        exact ih.imp hbelow.trans fun h => ⟨hbelow.trans h.1, h.2⟩

theorem under_set (hn : b.get? id = some n) (hset : n.setChild? slot v = some n')
    (h : (b.set id n').Under m k) :
    b.Under m k ∨ b.Below Node.children m id ∧ b.Below Node.children v k := by
  rcases h with ⟨q, hq, child, hchild, hbelow⟩
  have hrest := below_set hn hset hbelow
  by_cases hm : m = id
  · subst hm
    rw [get?_set_self (lt_size hn)] at hq
    cases hq
    rcases mem_children_set hset hchild with hold | rfl
    · exact hrest.imp (fun h => ⟨n, hn, child, hold, h⟩) fun h => ⟨.refl m, h.2⟩
    · rcases hrest with hk | ⟨-, hk⟩ <;> exact .inr ⟨.refl m, hk⟩
  · rw [get?_set_of_ne _ hm] at hq
    exact hrest.imp (fun h => ⟨q, hq, child, hchild, h⟩)
      fun h => ⟨(Below.of_mem hq hchild).trans h.1, h.2⟩

/-- A slot of `id` is pointed from `child` to a node that leads to no earlier node but those below
`child`: then again no way is added. -/
theorem Narrows.splice (h : Narrows a b) {child : NodeId} (hid : id < a.size)
    (hunder : ∀ k, a.Below Node.children child k → a.Under id k) (hn : b.get? id = some n)
    (hset : n.setChild? slot v = some n') (hinside : b.Inside v)
    (hvalue : ∀ k < a.size, b.Below Node.children v k → a.Below Node.children child k) :
    Narrows a (b.set id n') where
  size := by
    rw [size_set]
    exact h.size
  inside m hm k hk := by
    rw [size_set]
    rcases below_set hn hset hk with hk | ⟨-, hk⟩
    · exact h.inside m hm k hk
    · exact hinside k hk
  under m k hm hk hset' := by
    rcases under_set hn hset hset' with hold | ⟨hmid, hvk⟩
    · exact h.under m k hm hk hold
    · exact (h.below hm hid hmid).trans_under (hunder k (hvalue k hk hvk))

/-- A leaf is appended: from nodes that were there no way leads on through it. -/
theorem below_push (hleaf : n.children = []) (hk : k < a.size)
    (h : (a.push n).Below Node.children m k) : a.Below Node.children m k := by
  rcases h with ⟨w, hw⟩
  induction hw with
  | root m => exact .refl m
  | @step m child k q slot w hq hchild _ ih =>
      rw [get?_push] at hq
      split at hq
      · cases hq
        rw [hleaf] at hchild
        cases hchild
      · exact (Below.child hq hchild).trans (ih hk)

theorem Inside.push (h : a.Inside m) (n : Node) : (a.push n).Inside m := by
  rintro k ⟨w, hw⟩
  induction hw with
  | root m =>
      rw [size_push]
      exact Nat.lt_succ_of_lt h.lt_size
  | @step m child k q slot w hq hchild _ ih =>
      rw [get?_push, if_neg (Nat.ne_of_lt h.lt_size)] at hq
      exact ih (h.of_below (.child hq hchild))

theorem Narrows.push (a : Arena) (hleaf : n.children = []) : Narrows a (a.push n) where
  size := by
    rw [size_push]
    exact Nat.le_succ _
  inside m hm := hm.push n
  under m k hm hk hunder := by
    rcases hunder with ⟨q, hq, child, hchild, hbelow⟩
    rw [get?_push, if_neg (Nat.ne_of_lt hm)] at hq
    exact ⟨q, hq, child, hchild, below_push hleaf hk hbelow⟩

end Arena

/-! ## What a procedure may do -/

namespace Selection

/-- The labels are the same, and no ways between nodes that were there are added. -/
structure Narrows (s s' : Selection) : Prop where
  table : s'.table = s.table
  arena : s.arena.Narrows s'.arena

/-- Moreover the node `v` leads to no node that was there but those below `id`. -/
structure Yields (s : Selection) (id v : NodeId) (s' : Selection) : Prop extends s.Narrows s' where
  inside : s'.arena.Inside v
  below : ∀ k < s.arena.size, s'.arena.Below Node.children v k → s.arena.Below Node.children id k

variable {s s' s'' : Selection} {id v u : NodeId}

theorem Narrows.refl (s : Selection) : s.Narrows s := ⟨rfl, .refl _⟩

theorem Narrows.trans (h : s.Narrows s') (h' : s'.Narrows s'') : s.Narrows s'' :=
  ⟨h'.table.trans h.table, h.arena.trans h'.arena⟩

theorem Yields.refl (h : s.arena.Inside id) : s.Yields id id s :=
  ⟨.refl s, h, fun _ _ hk => hk⟩

theorem Narrows.yields (h : s.Narrows s') (hid : s.arena.Inside id) : s.Yields id id s' :=
  ⟨h, h.arena.inside id hid, fun _ hk hbelow => h.arena.below hid.lt_size hk hbelow⟩

theorem Yields.trans (h : s.Yields id v s') (h' : s'.Yields v u s'') : s.Yields id u s'' where
  toNarrows := h.toNarrows.trans h'.toNarrows
  inside := h'.inside
  below k hk hbelow := h.below k hk (h'.below k (Nat.lt_of_lt_of_le hk h.arena.size) hbelow)

/-- What computes into a new register leads nowhere. -/
theorem yields_leaving (s : Selection) (code : List Instr) (id : NodeId) :
    s.Yields id s.arena.size (s.leaving code) := by
  have hleaf : (Node.vreg s.fresh).children = [] := rfl
  have hself : ∀ k, (s.arena.push (.vreg s.fresh)).Below Node.children s.arena.size k →
      k = s.arena.size := by
    rintro k ⟨w, hw⟩
    cases hw with
    | root => rfl
    | step hn hchild _ =>
        rw [Arena.get?_push, if_pos rfl] at hn
        cases hn
        cases hchild
  refine ⟨⟨s.issued.table_emitted code, ?_⟩, ?_, ?_⟩ <;> rw [s.arena_leaving code]
  · exact .push s.arena hleaf
  · intro k hk
    rw [hself k hk, Arena.size_push]
    exact Nat.lt_succ_self _
  · intro k hk hbelow
    exact absurd (hself k hbelow) (Nat.ne_of_lt hk)

end Selection

/-- A procedure that has to do with the matched node alone: it keeps the labels, adds no way between
nodes that were there, and returns a node that leads to none of them but those below the matched
one; when it fails, then in a way that is allowed. -/
def Emission.Local (allowed : Failure → Prop) (e : Emission) : Prop :=
  ∀ R id s, s.arena.Inside id → Finishes allowed (s.Yields id) ((e R id).run s)

theorem Emission.keep_local (allowed : Failure → Prop) : Emission.keep.Local allowed :=
  fun _ _ _ hid => Selection.Yields.refl hid

namespace Target

/-! ## Bound children -/

section

variable {t : Target} {allowed : Failure → Prop} {table : LabelTable} {a : Arena} {fuel : Nat}
  {top : NodeId}

/-- Reducing `id` to `x` finishes in every state that has the labels of `table` and no ways that `a`
does not have. -/
def Terminates (t : Target) (allowed : Failure → Prop) (table : LabelTable) (a : Arena) (fuel : Nat)
    (id : NodeId) (x : Nonterminal) : Prop :=
  ∀ s, s.table = table → a.Narrows s.arena → s.arena.Inside id →
    Finishes allowed (s.Yields id) ((t.reduce fuel id x).run s)

/-- From the node `id` no ways lead to nodes of `a` but to those under `top`. -/
structure Within (a : Arena) (top : NodeId) (b : Arena) (id : NodeId) : Prop where
  inside : b.Inside id
  under : ∀ k < a.size, b.Under id k → a.Under top k

theorem Within.narrows {b c : Arena} {id : NodeId} (h : Within a top b id) (hab : a.Narrows b)
    (hbc : b.Narrows c) : Within a top c id where
  inside := hbc.inside id h.inside
  under k hk hunder := by
    have hkb := Nat.lt_of_lt_of_le hk hab.size
    exact h.under k hk (hbc.under id k h.inside.lt_size hkb hunder)

theorem Within.child {b : Arena} {id child : NodeId} {n : Node} (h : Within a top b id)
    (hn : b.get? id = some n) (hchild : child ∈ n.children) : Within a top b child where
  inside := h.inside.of_below (.of_mem hn hchild)
  under k hk hunder := h.under k hk ⟨n, hn, child, hchild, hunder.below⟩

/-- A bound child is read, or the failure is told. -/
theorem boundChild_finishes (herror : ∀ e, allowed (.error e)) (rule : String) {id : NodeId}
    {n : Node} (slot : Nat) {s : Selection} (hn : s.arena.get? id = some n) :
    Finishes allowed (fun child s' => s = s' ∧ child ∈ n.children)
      ((boundChild rule id slot).run s) := by
  rw [boundChild, run_bind_of_ok (SelectM.run_child? hn)]
  cases hchild : n.children[slot]? with
  | some child => exact ⟨rfl, List.mem_of_getElem? hchild⟩
  | none =>
      dsimp only
      rw [run_bind_of_ok (SelectM.run_kind hn)]
      exact herror _

mutual

theorem bindSub_finishes (herror : ∀ e, allowed (.error e))
    (hreduce : ∀ c y, (c < a.size → a.Under top c) → t.Terminates allowed table a fuel c y)
    (rule : String) : (p : Pattern) → {id : NodeId} → {slot : Nat} → {s : Selection} →
    s.table = table → a.Narrows s.arena → Within a top s.arena id →
    Finishes allowed (fun _ s' => s.Narrows s')
      ((bindSub (t.reduce fuel) rule p id slot).run s)
  | .nt x, id, slot, s, htable, hnarrows, hwithin => by
      rcases hwithin.inside.exists_get? with ⟨n, hn⟩
      rw [bindSub]
      refine (boundChild_finishes herror rule slot hn).bind ?_
      rintro child _ ⟨rfl, hchild⟩
      have hunder : ∀ k, s.arena.Below Node.children child k → s.arena.Under id k :=
        fun k hk => ⟨n, hn, child, hchild, hk⟩
      refine (hreduce child x (fun hlt => hwithin.under child hlt (hunder child (.refl child))) s
        htable hnarrows (hwithin.child hn hchild).inside).bind ?_
      intro v s₁ hyields
      -- the node is still there, with or without the slot
      rcases (hyields.arena.inside id hwithin.inside).exists_get? with ⟨n₁, hn₁⟩
      rw [SelectM.setChild, run_bind_of_ok (SelectM.run_node hn₁)]
      cases hset : n₁.setChild? slot v with
      | none => exact hyields.toNarrows
      | some n' =>
          exact ⟨hyields.table, hyields.arena.splice hwithin.inside.lt_size hunder hn₁ hset
            hyields.inside hyields.below⟩
  | .node kind subs, id, slot, s, htable, hnarrows, hwithin => by
      rcases hwithin.inside.exists_get? with ⟨n, hn⟩
      rw [bindSub]
      refine (boundChild_finishes herror rule slot hn).bind ?_
      rintro child _ ⟨rfl, hchild⟩
      exact bindSubs_finishes herror hreduce rule subs htable hnarrows (hwithin.child hn hchild)

theorem bindSubs_finishes (herror : ∀ e, allowed (.error e))
    (hreduce : ∀ c y, (c < a.size → a.Under top c) → t.Terminates allowed table a fuel c y)
    (rule : String) : (ps : List Pattern) → {id : NodeId} → {slot : Nat} → {s : Selection} →
    s.table = table → a.Narrows s.arena → Within a top s.arena id →
    Finishes allowed (fun _ s' => s.Narrows s')
      ((bindSubs (t.reduce fuel) rule ps id slot).run s)
  | [], id, slot, s, _, _, _ => by
      rw [bindSubs]
      exact Selection.Narrows.refl s
  | p :: ps, id, slot, s, htable, hnarrows, hwithin => by
      rw [bindSubs]
      refine (bindSub_finishes herror hreduce rule p htable hnarrows hwithin).bind ?_
      intro _ s₁ hfirst
      refine (bindSubs_finishes herror hreduce rule ps (hfirst.table.trans htable)
        (hnarrows.trans hfirst.arena) (hwithin.narrows hnarrows hfirst.arena)).mono ?_
      intro _ s' hrest
      exact hfirst.trans hrest

end

end

/-! ## Reductions -/

/-- Where nothing is recorded, a reduction is refused at once. -/
theorem terminates_of_none {t : Target} {allowed : Failure → Prop} {table : LabelTable} {a : Arena}
    (herror : ∀ e, allowed (.error e)) {id : NodeId} {x : Nonterminal}
    (hbest : table.best id x = none) {fuel : Nat} :
    t.Terminates allowed table a (fuel + 1) id x := by
  intro s htable _ hinside
  rcases hinside.exists_get? with ⟨n, hn⟩
  rw [run_reduce_none (htable ▸ hbest) hn]
  exact herror _

section

variable {t : Target} {allowed : Failure → Prop} {table : LabelTable} {a : Arena}
  (herror : ∀ e, allowed (.error e)) (hlocal : ∀ r ∈ t.grammar.rules, r.emit.Local allowed)
  (hsound : table.Sound t.grammar a)
  (hrecorded : ∀ m x c, table.best m x = some c → m < a.size)
include herror hlocal hsound hrecorded

/-- A recorded reduction finishes: a chain rule shortens the chain, and any other rule leads down to
nodes from which all ways are shorter. -/
theorem terminates_of_chain {fuel : Nat} (height : Nat) {id : NodeId} {x : Nonterminal}
    {xs : List Nonterminal} (hchain : table.Chain t.grammar id x xs)
    (hheight : ∀ w m, a.Path Node.children id w m → w.length < 2 * height)
    (hfuel : 3 * height + xs.length ≤ fuel + 2) : t.Terminates allowed table a fuel id x := by
  induction fuel generalizing height id x xs with
  | zero =>
      have hroot := hheight [] id (.root id)
      cases hchain <;> simp only [List.length_cons] at hroot hfuel <;> omega
  | succ fuel ih =>
      intro s htable hnarrows hinside
      cases hchain with
      | @chain _ y ys c r hc hr hpattern hchain =>
          simp only [List.length_cons] at hfuel
          rw [run_reduce_some (htable ▸ hc) hr, bound, hpattern]
          refine (ih height hchain hheight (by omega) s htable hnarrows hinside).bind ?_
          intro v s₁ hyields
          refine (hlocal r (List.mem_of_getElem? hr) _ v (s₁.applied id x r.name)
            hyields.inside).mono ?_
          intro u s' hemit
          exact hyields.trans ⟨⟨hemit.table, hemit.arena⟩, hemit.inside, hemit.below⟩
      | @rule _ c r kind subs hc hr hpattern =>
          have hroot := hheight [] id (.root id)
          simp only [List.length_cons, List.length_nil] at hfuel hroot
          -- what hangs in a slot by now is a node of the tree further down, or a new one, for which
          -- nothing is recorded
          have hreduce : ∀ k y, (k < a.size → a.Under id k) →
              t.Terminates allowed table a fuel k y := by
            intro k y hunder
            cases hbest : table.best k y with
            | none =>
                obtain ⟨fuel, rfl⟩ : ∃ fuel', fuel = fuel' + 1 := ⟨fuel - 1, by omega⟩
                exact terminates_of_none herror hbest
            | some c' =>
                rcases hsound.founded.exists_chain hbest with ⟨ys, hchain, hnodup⟩
                have hlen : ys.length ≤ 3 := Nonterminal.length_le_of_nodup hnodup
                rcases hunder (hrecorded k y c' hbest) with ⟨n, hn, child, hchild, u, hu⟩
                rcases List.mem_iff_getElem?.1 hchild with ⟨slot, hslot⟩
                have hdown : a.Path Node.children id _ k := .step hn hslot hu
                have hshorter := hdown.shorter (List.cons_ne_nil _ _) hheight
                exact ih (height - 1) hchain hshorter (by omega)
          have hwithin : Within a id s.arena id :=
            ⟨hinside, fun k hk hunder => hnarrows.under id k (hrecorded id x c hc) hk hunder⟩
          rw [run_reduce_some (htable ▸ hc) hr, bound, hpattern, bind_assoc]
          refine (bindSubs_finishes herror hreduce r.name subs htable hnarrows hwithin).bind ?_
          intro _ s₁ hbound
          have hinside₁ := hbound.arena.inside id hinside
          refine (hlocal r (List.mem_of_getElem? hr) _ id (s₁.applied id x r.name) hinside₁).mono ?_
          intro u s' hemit
          exact (hbound.yields hinside).trans
            ⟨⟨hemit.table, hemit.arena⟩, hemit.inside, hemit.below⟩

theorem terminates_of_best {fuel : Nat} {id : NodeId} {x : Nonterminal} {c : Choice}
    (hdag : a.IsDag Node.children id) (hbest : table.best id x = some c)
    (hfuel : 3 * a.size < fuel) : t.Terminates allowed table a fuel id x := by
  rcases hsound.founded.exists_chain hbest with ⟨xs, hchain, hnodup⟩
  have hlen : xs.length ≤ 3 := Nonterminal.length_le_of_nodup hnodup
  refine terminates_of_chain herror hlocal hsound hrecorded a.size hchain ?_ (by omega)
  intro w m hw
  exact hdag.length_lt hw

end

end Target
end Codegen
