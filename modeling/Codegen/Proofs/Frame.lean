import Codegen.Proofs.Outcome
import Codegen.Proofs.Production

/-!
# Frame — what a selection leaves as it is

A selection writes into the arena while it reads from it: slots are pointed to the nodes that stand
for their values, a shared node is spliced once and met again, and a call starts over at each of its
arguments.  Whatever the arena, and wherever a run breaks off, it changes no more than it may.

* `Arena.Frames`            : the same nodes, but for slots below a root that lead to locations
* `Selection.Frames`        : moreover what is added to the code and the registers is counted
* `X64.Kindred`             : a table whose rules are for the kinds of the nodes
* `X64.reduce_frames`       : what a reduction keeps and returns, by induction on its nesting
* `Target.selectRoot_frame` : a selection changes only what it may, however it ends
-/

namespace Codegen

/-! ## Arenas -/

namespace Arena

/-- A register or a memory cell is at the position. -/
def IsLocation (a : Arena) (id : NodeId) : Prop :=
  ∃ n, a.get? id = some n ∧ n.isLocation = true

/-- Whatever is in the slot is a location. -/
def SlotLocated (a : Arena) (id : NodeId) (slot : Nat) : Prop :=
  ∀ n v, a.get? id = some n → n.children[slot]? = some v → a.IsLocation v

/-- The nodes of `a` are in `b`, the same but for their child slots; a slot that differs belongs to
a node below `root` and leads to a location.  All nodes that are new are locations. -/
structure Frames (a : Arena) (root : NodeId) (b : Arena) : Prop where
  kept : ∀ id n, a.get? id = some n → ∃ n', b.get? id = some n' ∧ n'.shape = n.shape ∧
    ∀ (slot : Nat) (v : NodeId), n'.children[slot]? = some v →
      n.children[slot]? = some v ∨ a.Below Node.links root id ∧ b.IsLocation v
  added : ∀ id n, a.size ≤ id → b.get? id = some n → n.isLocation = true

/-- What a selection comes to: a node below the root, or a location. -/
def Meets (a : Arena) (root : NodeId) (b : Arena) (id : NodeId) : Prop :=
  a.Below Node.links root id ∨ b.IsLocation id

variable {a b : Arena} {root id c v : NodeId} {n n' : Node} {slot : Nat}

theorem IsLocation.push (h : b.IsLocation v) (n : Node) : (b.push n).IsLocation v := by
  rcases h with ⟨q, hq, hlocation⟩
  refine ⟨q, ?_, hlocation⟩
  rw [get?_push, if_neg (Nat.ne_of_lt (lt_size hq)), hq]

theorem isLocation_size (b : Arena) (hn : n.isLocation = true) : (b.push n).IsLocation b.size :=
  ⟨n, by rw [get?_push, if_pos rfl], hn⟩

/-- A location has no slot that could be set. -/
theorem ne_of_isLocation (hv : b.IsLocation v) (hn : b.get? id = some n)
    (hset : n.setChild? slot c = some n') : v ≠ id := by
  rintro rfl
  rcases hv with ⟨q, hq, hlocation⟩
  cases hn.symm.trans hq
  have hsome := n.isSome_setChild? slot c
  rw [hset, Node.children_of_isLocation hlocation] at hsome
  simp at hsome

theorem IsLocation.set (h : b.IsLocation v) (hn : b.get? id = some n)
    (hset : n.setChild? slot c = some n') : (b.set id n').IsLocation v := by
  have hne := ne_of_isLocation h hn hset
  rcases h with ⟨q, hq, hlocation⟩
  exact ⟨q, by rw [get?_set_of_ne b hne, hq], hlocation⟩

namespace Frames

theorem refl (a : Arena) (root : NodeId) : a.Frames root a where
  kept _ n hn := ⟨n, hn, rfl, fun _ _ hv => .inl hv⟩
  added _ _ hid hn := absurd (lt_size hn) (Nat.not_lt.2 hid)

theorem kind_eq (h : a.Frames root b) (hn : a.get? id = some n) (hn' : b.get? id = some n') :
    n'.kind = n.kind := by
  rcases h.kept id n hn with ⟨q, hq, hshape, -⟩
  cases hn'.symm.trans hq
  rw [← Node.kind_shape, hshape, Node.kind_shape]

/-- A node that is no location has been there before. -/
theorem exists_old (h : a.Frames root b) (hid : a.Meets root b id) (hn : b.get? id = some n)
    (hlocation : n.isLocation = false) :
    a.Below Node.links root id ∧ ∃ n₀, a.get? id = some n₀ := by
  constructor
  · rcases hid with hid | ⟨q, hq, hlocation'⟩
    · exact hid
    · cases hn.symm.trans hq
      cases hlocation.symm.trans hlocation'
  · rcases Nat.lt_or_ge id a.size with hlt | hge
    · exact ⟨_, Array.getElem?_eq_getElem hlt⟩
    · cases hlocation.symm.trans (h.added id n hge hn)

/-- From a node below the root the slots lead to other nodes below it, or to locations. -/
theorem child (h : a.Frames root b) (hid : a.Meets root b id) (hn : b.get? id = some n)
    (hc : n.children[slot]? = some c) : a.Below Node.links root id ∧ a.Meets root b c := by
  have hlocation : n.isLocation = false := by
    refine Bool.eq_false_iff.2 fun hlocation => ?_
    rw [Node.children_of_isLocation hlocation] at hc
    cases hc
  rcases h.exists_old hid hn hlocation with ⟨hbelow, n₀, hn₀⟩
  rcases h.kept id n₀ hn₀ with ⟨q, hq, -, hslots⟩
  cases hn.symm.trans hq
  refine ⟨hbelow, (hslots slot c hc).imp (fun hold => ?_) And.right⟩
  exact hbelow.trans (.child hn₀ (Node.links_of_children hold))

/-- The arguments of a call are those it had before. -/
theorem argument (h : a.Frames root b) (hid : a.Meets root b id) {callee : String}
    {args : List NodeId} (hn : b.get? id = some (.call callee args)) :
    ∀ arg ∈ args, a.Below Node.links root arg := by
  rcases h.exists_old hid hn rfl with ⟨hbelow, n₀, hn₀⟩
  rcases h.kept id n₀ hn₀ with ⟨q, hq, hshape, -⟩
  cases hn.symm.trans hq
  have hkind := h.kind_eq hn₀ hn
  cases n₀ with
  | call callee' args' =>
      cases hshape
      exact fun arg harg => hbelow.trans (.of_mem hn₀ harg)
  | _ => cases hkind

theorem push (h : a.Frames root b) (hn : n.isLocation = true) : a.Frames root (b.push n) where
  kept id n₀ hn₀ := by
    rcases h.kept id n₀ hn₀ with ⟨n', hn', hshape, hslots⟩
    refine ⟨n', ?_, hshape, fun slot v hv => ?_⟩
    · rw [get?_push, if_neg (Nat.ne_of_lt (lt_size hn')), hn']
    · exact (hslots slot v hv).imp_right (And.imp_right fun hv => hv.push n)
  added id q hid hq := by
    rw [get?_push] at hq
    split at hq
    · cases hq
      exact hn
    · exact h.added id q hid hq

/-- A slot of a node below the root is pointed to a location, or to where it leads already. -/
theorem set (h : a.Frames root b) (hn : b.get? id = some n) (hset : n.setChild? slot v = some n')
    (hv : n.children[slot]? = some v ∨ a.Below Node.links root id ∧ b.IsLocation v) :
    a.Frames root (b.set id n') where
  kept m m₀ hm₀ := by
    rcases h.kept m m₀ hm₀ with ⟨q, hq, hshape, hslots⟩
    have hold : ∀ (slot : Nat) (u : NodeId), q.children[slot]? = some u →
        m₀.children[slot]? = some u ∨
          a.Below Node.links root m ∧ (b.set id n').IsLocation u :=
      fun slot u hu => (hslots slot u hu).imp_right (And.imp_right fun hu => hu.set hn hset)
    by_cases hm : m = id
    · subst hm
      cases hn.symm.trans hq
      refine ⟨n', get?_set_self (lt_size hn) n', ?_, fun i u hu => ?_⟩
      · rw [Node.shape_setChild? hset, hshape]
      · rw [Node.children_setChild? hset, List.getElem?_set] at hu
        split at hu
        · -- the slot that is set
          rename_i hi
          subst hi
          split at hu
          · cases hu
            rcases hv with hsame | ⟨hbelow, hlocation⟩
            · exact hold _ _ hsame
            · exact .inr ⟨hbelow, hlocation.set hn hset⟩
          · cases hu
        · exact hold i u hu
    · exact ⟨q, by rw [get?_set_of_ne b hm, hq], hshape, hold⟩
  added m q hm hq := by
    by_cases hid : m = id
    · subst hid
      have hlocation := h.added m n hm hn
      exact absurd rfl (ne_of_isLocation ⟨n, hn, hlocation⟩ hn hset)
    · rw [get?_set_of_ne b hid] at hq
      exact h.added m q hm hq

end Frames

end Arena

/-! ## Selections -/

/-- From `s` to `s'` the arena changes only where it may in the selection of `root`, and what is
added to the instructions and registers is counted. -/
structure Selection.Frames (s : Selection) (root : NodeId) (s' : Selection) : Prop
    extends s.Counts s' where
  arena : s.arena.Frames root s'.arena

namespace Selection.Frames

variable {s₀ s s' : Selection} {root id v : NodeId} {slot : Nat}

theorem refl (s : Selection) (root : NodeId) : s.Frames root s := ⟨.refl s, .refl s.arena root⟩

/-- The labels and the trace are free to change, and how often rules were applied. -/
theorem labels (h : s₀.Frames root s) (table : LabelTable) (trace : Trace) (applied : Tally) :
    s₀.Frames root { s with table, trace, stats := { s.stats with applied } } where
  toCounts := h.toCounts.trans (.of_same rfl rfl rfl rfl rfl)
  arena := h.arena

theorem emitted (h : s₀.Frames root s) (code : List Instr) : s₀.Frames root (s.emitted code) where
  toCounts := h.toCounts.trans (.emitted s code)
  arena := by
    rw [arena_emitted]
    exact h.arena

theorem produces (h : s₀.Frames root s) (h' : s.Produces v s') :
    s₀.Frames root s' ∧ s'.arena.IsLocation v := by
  rcases h'.arena with ⟨n, hn, harena⟩
  refine ⟨⟨h.toCounts.trans h'.toCounts, ?_⟩, ?_⟩
  · rw [harena]
    exact h.arena.push hn
  · rw [harena, h'.value]
    exact Arena.isLocation_size _ hn

/-- A slot is set; what it leads to is in its place afterwards. -/
theorem setChild (h : s₀.Frames root s)
    (hv : ∀ n, s.arena.get? id = some n → n.children[slot]? = some v ∨
      s₀.arena.Below Node.links root id ∧ s.arena.IsLocation v) :
    Ensures (s₀.Frames root)
      (fun _ s' => s'.table = s.table ∧
        (s.arena.IsLocation v → s'.arena.SlotLocated id slot))
      ((SelectM.setChild id slot v).run s) := by
  rw [SelectM.setChild]
  refine (SelectM.node_ensures s id).read h fun n hn => ?_
  cases hset : n.setChild? slot v with
  | none =>
      refine ⟨h, rfl, fun _ n' u hn' hu => ?_⟩
      -- there is no such slot
      cases hn.symm.trans hn'
      have hsome := n.isSome_setChild? slot v
      rw [hset] at hsome
      have hlt : slot < n.children.length := (List.getElem?_eq_some_iff.1 hu).1
      rw [decide_eq_true hlt] at hsome
      cases hsome
  | some n' =>
      refine ⟨⟨h.toCounts.trans (.of_same rfl rfl rfl rfl rfl), h.arena.set hn hset (hv n hn)⟩,
        rfl, fun hlocation q u hq hu => ?_⟩
      have hself : (s.arena.set id n').get? id = some n' :=
        Arena.get?_set_self (Arena.lt_size hn) n'
      cases hself.symm.trans hq
      rw [Node.children_setChild? hset, List.getElem?_set_self'] at hu
      rcases Option.map_eq_some_iff.1 hu with ⟨_, -, rfl⟩
      exact hlocation.set hn hset

end Selection.Frames

namespace X64

open SelectM

variable {t : Target} {a b : Arena} {s₀ s s' : Selection} {root id c v : NodeId} {x : Nonterminal}
  {fuel : Nat} {reduce : NodeId → Nonterminal → SelectM NodeId} {r : Rule}

/-! ## Labels -/

/-- Labels are for nodes of `a`; the rule recorded for a nonterminal has it as its result, and what
its pattern asks for at the top is the kind of the node. -/
structure Kindred (a : Arena) (table : LabelTable) : Prop where
  label : ∀ m, (table.label? m).isSome = true → m < a.size
  rule : ∀ m x choice r, table.best m x = some choice → rules[choice.rule]? = some r →
    r.result = x ∧ ∀ k subs, r.pattern = .node k subs → ∃ n, a.get? m = some n ∧ n.kind = k

theorem kindred_blank (a : Arena) (width : Nat) : Kindred a (.blank a.size width) where
  label m hm := by
    rw [LabelTable.label?, LabelTable.blank, Array.getElem?_replicate] at hm
    split at hm
    · assumption
    · cases hm
  rule m x choice r hbest := by
    rw [LabelTable.best_blank] at hbest
    cases hbest

/-- The kinds do not change, so walks at any time find rules for them. -/
theorem Kindred.moves (hbuilt : t.Built) (hgrammar : t.grammar = grammar)
    (hframes : a.Frames root b) {within : NodeId → Prop} {l l' : Labeling}
    (hmoves : t.Moves b within l l') (h : Kindred a l.table) : Kindred a l'.table where
  label m hm := by
    rw [hmoves.isSome_label?] at hm
    exact h.label m hm
  rule := by
    have hrecorded := hmoves.recorded hbuilt (P := fun m x r => r.result = x ∧
      ∀ k subs, r.pattern = .node k subs → ∃ n, a.get? m = some n ∧ n.kind = k)
    rw [hgrammar] at hrecorded
    refine hrecorded (fun m r hlabel _ hmatches => ⟨rfl, fun k subs hpattern => ?_⟩) h.rule
    rw [hpattern, Pattern.Matches] at hmatches
    rcases hmatches with ⟨n, hn, hkind, -⟩
    have hn₀ : a.get? m = some _ := Array.getElem?_eq_getElem (h.label m hlabel)
    exact ⟨_, hn₀, (hframes.kind_eq hn₀ hn).symm.trans hkind⟩

theorem relabel_frames (hbuilt : t.Built) (hgrammar : t.grammar = grammar)
    (h : s₀.Frames root s) (htable : Kindred s₀.arena s.table) (id : NodeId) :
    Ensures (s₀.Frames root) (fun _ s' => Kindred s₀.arena s'.table ∧ s'.arena = s.arena)
      ((t.relabel id).run s) := by
  cases hrun : (t.label s.arena id).run ⟨s.table, s.trace⟩ with
  | ok u l =>
      rw [Target.run_relabel_of_ok hrun]
      have hmoves := Target.moves_of_labelAt hrun
      exact ⟨h.labels l.table l.trace s.stats.applied,
        Kindred.moves hbuilt hgrammar h.arena hmoves htable, rfl⟩
  | error f l =>
      rw [Target.run_relabel_of_error hrun]
      exact h.labels l.table l.trace s.stats.applied

/-! ## What a pattern binds -/

/-- What stands for the value of a node: for an immediate the node itself, and otherwise a
location. -/
structure Replaces (a : Arena) (s : Selection) (id : NodeId) (x : Nonterminal) (v : NodeId)
    (s' : Selection) : Prop where
  table : Kindred a s'.table
  imm : x = .imm → v = id ∧ s'.arena = s.arena
  location : x ≠ .imm → s'.arena.IsLocation v

/-- Reducing keeps to the frame at nodes below the root and at what stands for them. -/
def Framed (s₀ : Selection) (root : NodeId) (reduce : NodeId → Nonterminal → SelectM NodeId) :
    Prop :=
  ∀ c x s, s₀.Frames root s → Kindred s₀.arena s.table → s₀.arena.Meets root s.arena c →
    Ensures (s₀.Frames root) (Replaces s₀.arena s c x) ((reduce c x).run s)

theorem boundChild_frames (rule : String) (slot : Nat) (h : s₀.Frames root s)
    (hid : s₀.arena.Meets root s.arena id) :
    Ensures (· = s)
      (fun c _ => (∃ n, s.arena.get? id = some n ∧ n.children[slot]? = some c) ∧
        s₀.arena.Below Node.links root id ∧ s₀.arena.Meets root s.arena c)
      ((Target.boundChild rule id slot).run s) := by
  rw [Target.boundChild]
  refine (child?_ensures s id slot).read rfl ?_
  rintro _ ⟨n, hn, rfl⟩
  cases hc : n.children[slot]? with
  | some c => exact ⟨rfl, ⟨n, hn, hc⟩, h.arena.child hid hn hc⟩
  | none => exact (kind_ensures s id).read rfl fun _ _ => rfl

mutual

theorem bindSub_frames (hreduce : Framed s₀ root reduce) (rule : String) :
    (p : Pattern) → {id : NodeId} → (slot : Nat) → {s : Selection} → s₀.Frames root s →
    Kindred s₀.arena s.table → s₀.arena.Meets root s.arena id →
    Ensures (s₀.Frames root)
      (fun _ s' => Kindred s₀.arena s'.table ∧ s₀.arena.Below Node.links root id ∧
        ∀ x, p = .nt x → x ≠ .imm → s'.arena.SlotLocated id slot)
      ((Target.bindSub reduce rule p id slot).run s)
  | .nt x, id, slot, s, h, htable, hid => by
      rw [Target.bindSub]
      refine (boundChild_frames rule slot h hid).read h ?_
      rintro c ⟨⟨n, hn, hslot⟩, hbelow, hc⟩
      refine (hreduce c x s h htable hc).bind fun v s₁ h₁ hv => ?_
      -- an immediate stays where it is, and everything else is a location
      have hplace : ∀ n', s₁.arena.get? id = some n' → n'.children[slot]? = some v ∨
          s₀.arena.Below Node.links root id ∧ s₁.arena.IsLocation v := by
        intro n' hn'
        by_cases hx : x = .imm
        · rcases hv.imm hx with ⟨rfl, harena⟩
          rw [harena] at hn'
          cases hn.symm.trans hn'
          exact .inl hslot
        · exact .inr ⟨hbelow, hv.location hx⟩
      refine (h₁.setChild hplace).mono (fun _ h' => h') ?_
      rintro _ s' - ⟨htable', hlocated⟩
      refine ⟨htable' ▸ hv.table, hbelow, fun y hy himm => hlocated (hv.location ?_)⟩
      cases hy
      exact himm
  | .node _ subs, id, slot, s, h, htable, hid => by
      rw [Target.bindSub]
      refine (boundChild_frames rule slot h hid).read h ?_
      rintro c ⟨-, hbelow, hc⟩
      refine (bindSubs_frames hreduce rule subs 0 h htable hc).mono (fun _ h' => h') ?_
      rintro _ s' - ⟨htable', -⟩
      exact ⟨htable', hbelow, fun x hx => by cases hx⟩

/-- Of the slots that are bound the last is known to hold a location, for nothing is reduced after
it. -/
theorem bindSubs_frames (hreduce : Framed s₀ root reduce) (rule : String) :
    (ps : List Pattern) → {id : NodeId} → (slot : Nat) → {s : Selection} → s₀.Frames root s →
    Kindred s₀.arena s.table → s₀.arena.Meets root s.arena id →
    Ensures (s₀.Frames root)
      (fun _ s' => Kindred s₀.arena s'.table ∧ s₀.arena.Meets root s'.arena id ∧
        ∀ x, ps.getLast? = some (.nt x) → x ≠ .imm →
          s'.arena.SlotLocated id (slot + ps.length - 1))
      ((Target.bindSubs reduce rule ps id slot).run s)
  | [], id, slot, s, h, htable, hid => by
      rw [Target.bindSubs]
      exact ⟨h, htable, hid, fun x hx => by cases hx⟩
  | [p], id, slot, s, h, htable, hid => by
      rw [Target.bindSubs]
      refine (bindSub_frames hreduce rule p slot h htable hid).bind ?_
      rintro _ s₁ h₁ ⟨htable₁, hbelow, hlocated⟩
      rw [Target.bindSubs]
      refine ⟨h₁, htable₁, .inl hbelow, fun x hx => hlocated x ?_⟩
      exact Option.some.inj hx
  | p :: q :: ps, id, slot, s, h, htable, hid => by
      rw [Target.bindSubs]
      refine (bindSub_frames hreduce rule p slot h htable hid).bind ?_
      rintro _ s₁ h₁ ⟨htable₁, hbelow, -⟩
      refine (bindSubs_frames hreduce rule (q :: ps) (slot + 1) h₁ htable₁ (.inl hbelow)).mono
        (fun _ h' => h') ?_
      rintro _ s' - ⟨htable', hid', hlocated⟩
      refine ⟨htable', hid', fun x hx himm => ?_⟩
      have hlast := hlocated x hx himm
      rw [Nat.add_right_comm] at hlast
      exact hlast

end

/-! ## Procedures -/

/-- A location stands for the value. -/
def Located (a : Arena) (v : NodeId) (s' : Selection) : Prop :=
  Kindred a s'.table ∧ s'.arena.IsLocation v

/-- Selecting a node below the root keeps to the frame and ends with a location. -/
def SelectFramed (s₀ : Selection) (root : NodeId) (R : Reducer) : Prop :=
  ∀ c s, s₀.arena.Below Node.links root c → s₀.Frames root s → Kindred s₀.arena s.table →
    Ensures (s₀.Frames root) (Located s₀.arena) ((R.select c .reg).run s)

theorem select_frames (hbuilt : t.Built) (hgrammar : t.grammar = grammar)
    (hreduce : Framed s₀ root reduce) : SelectFramed s₀ root ⟨t.selectWith reduce, reduce⟩ := by
  intro c s hc h htable
  dsimp only
  rw [Target.selectWith, run_bind_of_ok (EStateM.run_get s)]
  split
  · refine (relabel_frames hbuilt hgrammar h htable c).bind ?_
    rintro _ s₁ h₁ ⟨htable₁, -⟩
    refine (hreduce c .reg s₁ h₁ htable₁ (.inl hc)).mono (fun _ h' => h') ?_
    exact fun v s' _ hv => ⟨hv.table, hv.location (by decide)⟩
  · exact (kind_ensures s c).read h fun _ _ => h

section Emit

variable {R : Reducer} (hselect : SelectFramed s₀ root R) (h : s₀.Frames root s)
  (htable : Kindred s₀.arena s.table)
include hselect h htable

/-- By induction on the arguments: each is selected as a tree of its own, or the call breaks off. -/
theorem values_frames {args : List NodeId}
    (hargs : ∀ arg ∈ args, s₀.arena.Below Node.links root arg) :
    Ensures (s₀.Frames root) (fun _ s' => Kindred s₀.arena s'.table)
      ((args.mapM fun arg => do operand (← R.select arg .reg)).run s) := by
  induction args generalizing s with
  | nil => exact ⟨h, htable⟩
  | cons arg args ih =>
      rw [List.mapM_cons, bind_assoc]
      refine (hselect arg s (hargs arg List.mem_cons_self) h htable).bind fun v s₁ h₁ hv => ?_
      refine (operand_ensures s₁ v).read h₁ fun o _ => ?_
      have hrest := ih h₁ hv.1 fun arg' harg' => hargs arg' (List.mem_cons_of_mem _ harg')
      exact hrest.bind fun values s₂ h₂ htable₂ => ⟨h₂, htable₂⟩

theorem call_frames (hid : s₀.arena.Meets root s.arena id) :
    Ensures (s₀.Frames root) (Located s₀.arena) ((call R id).run s) := by
  rw [call]
  refine (node_ensures s id).read h fun n hn => ?_
  cases n with
  | call callee args =>
      refine (values_frames hselect h htable (h.arena.argument hid hn)).bind ?_
      intro values s₁ h₁ htable₁
      rw [run_leaving fun dst => callSequence callee values dst]
      have hproduces := Selection.Produces.leaving s₁ (callSequence callee values s₁.fresh)
      have hframes := h₁.produces hproduces
      exact ⟨hframes.1, hproduces.table ▸ htable₁, hframes.2⟩
  | _ => exact h

/-- The procedure of a rule that does not reduce to an immediate ends with a location: one that it
has produced, the node itself, or what is in the slot that was bound last. -/
theorem emit_frames (hr : r ∈ rules) (himm : r.result ≠ .imm)
    (hid : s₀.arena.Meets root s.arena id)
    (hkind : ∀ k subs, r.pattern = .node k subs → ∃ n, s.arena.get? id = some n ∧ n.kind = k)
    (hlast : ∀ k subs x, r.pattern = .node k subs → subs.getLast? = some (.nt x) → x ≠ .imm →
      s.arena.SlotLocated id (0 + subs.length - 1)) :
    Ensures (s₀.Frames root) (Located s₀.arena) ((r.emit R id).run s) := by
  cases works hr with
  | @keep _ k x _ hleaf =>
      rcases hkind k [] rfl with ⟨n, hn, rfl⟩
      refine ⟨h, htable, n, hn, ?_⟩
      cases n <;> simp_all [Node.kind, Node.isLocation]
  | inner =>
      refine (inner_attempts R).ensures h ?_
      rintro v _ ⟨rfl, n, hn, hv⟩
      exact ⟨h, htable, hlast _ _ .reg rfl rfl (by decide) n v hn hv⟩
  | store =>
      refine (store_attempts R).ensures h ?_
      rintro v _ ⟨i, n, rfl, hn, hv, -⟩
      have hlocation := hlast _ _ .reg rfl rfl (by decide) n v hn hv
      exact ⟨h.emitted [i], htable, hlocation⟩
  | call => exact call_frames hselect h htable hid
  | produce hattempts =>
      refine (hattempts R id s).ensures h fun v s' hproduces => ?_
      have hframes := h.produces hproduces
      exact ⟨hframes.1, hproduces.table ▸ htable, hframes.2⟩

end Emit

/-! ## Reductions -/

/-- What the pattern of a rule binds is reduced; at a node pattern the node itself is matched, and
its last slot is known to hold a location. -/
theorem bound_frames (hreduce : Framed s₀ root (t.reduce fuel)) (h : s₀.Frames root s)
    (htable : Kindred s₀.arena s.table)
    (hid : s₀.arena.Meets root s.arena id) :
    Ensures (s₀.Frames root)
      (fun v s' => Kindred s₀.arena s'.table ∧ s₀.arena.Meets root s'.arena v ∧
        ∀ k subs, r.pattern = .node k subs → v = id ∧
          ∀ x, subs.getLast? = some (.nt x) → x ≠ .imm →
            s'.arena.SlotLocated id (0 + subs.length - 1))
      ((t.bound fuel r id).run s) := by
  unfold Target.bound
  cases hpattern : r.pattern with
  | nt y =>
      refine (hreduce id y s h htable hid).mono (fun _ h' => h') fun v s' _ hv => ?_
      refine ⟨hv.table, ?_, fun k subs hnode => by cases hnode⟩
      by_cases hy : y = .imm
      · rcases hv.imm hy with ⟨rfl, harena⟩
        rw [harena]
        exact hid
      · exact .inr (hv.location hy)
  | node k subs =>
      refine (bindSubs_frames hreduce r.name subs 0 h htable hid).bind ?_
      rintro _ s' h' ⟨htable', hid', hlocated⟩
      refine ⟨h', htable', hid', fun k' subs' hnode => ⟨rfl, ?_⟩⟩
      cases hnode
      exact hlocated

/-- A rule is applied: its pattern is bound, and then its procedure runs. -/
theorem rule_frames (hbuilt : t.Built) (hgrammar : t.grammar = grammar)
    (hreduce : Framed s₀ root (t.reduce fuel)) (hr : r ∈ rules) (h : s₀.Frames root s)
    (htable : Kindred s₀.arena s.table)
    (hid : s₀.arena.Meets root s.arena id)
    (hkind : ∀ k subs, r.pattern = .node k subs → ∃ n, s₀.arena.get? id = some n ∧ n.kind = k) :
    Ensures (s₀.Frames root) (Replaces s₀.arena s id r.result)
      ((do
        let bound ← t.bound fuel r id
        SelectM.log (.reduced id r.result r.name)
        SelectM.tally r.name
        r.emit ⟨t.selectWith (t.reduce fuel), t.reduce fuel⟩ bound).run s) := by
  by_cases himm : r.result = .imm
  · -- a literal is taken as it is
    rcases rule_imm hr himm with ⟨hpattern, hemit⟩
    have hbound : (t.bound fuel r id).run s = .ok id s := by
      unfold Target.bound
      rw [hpattern]
      rfl
    rw [run_bind_of_ok hbound, hemit]
    refine ⟨h.labels s.table (s.trace.push (.reduced id r.result r.name))
      (s.stats.applied.add r.name), htable, fun _ => ⟨rfl, rfl⟩, fun hne => absurd himm hne⟩
  · refine (bound_frames (r := r) hreduce h htable hid).bind ?_
    rintro v s₁ h₁ ⟨htable₁, hv, hnode⟩
    have happlied : s₀.Frames root (s₁.applied id r.result r.name) := h₁.labels _ _ _
    have hkind₁ : ∀ k subs, r.pattern = .node k subs →
        ∃ n, s₁.arena.get? v = some n ∧ n.kind = k := by
      intro k subs hpattern
      rcases hnode k subs hpattern with ⟨rfl, -⟩
      rcases hkind k subs hpattern with ⟨n, hn, rfl⟩
      rcases h₁.arena.kept v n hn with ⟨n', hn', -⟩
      exact ⟨n', hn', h₁.arena.kind_eq hn hn'⟩
    have hlast : ∀ k subs x, r.pattern = .node k subs → subs.getLast? = some (.nt x) → x ≠ .imm →
        s₁.arena.SlotLocated v (0 + subs.length - 1) := by
      intro k subs x hpattern
      rcases hnode k subs hpattern with ⟨rfl, hlocated⟩
      exact hlocated x
    have hselect := select_frames hbuilt hgrammar hreduce
    have hemit := emit_frames hselect happlied htable₁ hr himm hv hkind₁ hlast
    refine hemit.mono (fun _ h' => h') fun u s' _ hu => ?_
    exact ⟨hu.1, fun hx => absurd hx himm, fun _ => hu.2⟩

/-- By induction on the nesting that is left: what a rule binds is reduced with less. -/
theorem reduce_frames (hbuilt : t.Built) (hgrammar : t.grammar = grammar) (s₀ : Selection)
    (root : NodeId) (fuel : Nat) : Framed s₀ root (t.reduce fuel) := by
  induction fuel with
  | zero => exact fun _ _ _ h _ _ => h
  | succ fuel ih =>
      intro id x s h htable hid
      cases hbest : s.table.best id x with
      | none =>
          rw [Target.reduce, run_bind_of_ok (EStateM.run_get s)]
          simp only [hbest]
          exact (kind_ensures s id).read h fun _ _ => h
      | some choice =>
          cases hr : t.grammar.rules[choice.rule]? with
          | none =>
              rw [Target.reduce, run_bind_of_ok (EStateM.run_get s)]
              simp only [hbest, hr]
              exact h
          | some r =>
              rw [Target.run_reduce_some hbest hr]
              rw [hgrammar] at hr
              rcases htable.rule id x choice r hbest hr with ⟨rfl, hkind⟩
              exact rule_frames hbuilt hgrammar ih (List.mem_of_getElem? hr) h htable hid hkind

end X64

/-! ## Trees -/

namespace Target

/-- The selection of a tree, before it is counted. -/
def reduceRoot (t : Target) (root : NodeId) : SelectM NodeId := do
  modify fun s => { s with table := .blank s.arena.size t.grammar.size }
  t.relabel root
  t.reduce (t.nesting (← get).arena) root t.grammar.start

theorem selectRoot_eq (t : Target) (root : NodeId) :
    t.selectRoot root = (do
      let value ← t.reduceRoot root
      modify fun s => { s with stats := { s.stats with trees := s.stats.trees + 1 } }
      return value) := by
  simp only [selectRoot, reduceRoot, bind_assoc]

theorem reduceRoot_frames {settings : Settings} {t : Target} (ht : Target.x64 settings = .ok t)
    (root : NodeId) (s : Selection) :
    Ensures (s.Frames root) (fun _ _ => True) ((t.reduceRoot root).run s) := by
  rcases built_of_build ht with ⟨hgrammar, hbuilt⟩
  have hblank : (modify fun s : Selection =>
      { s with table := .blank s.arena.size t.grammar.size } : SelectM PUnit).run s =
        .ok () { s with table := .blank s.arena.size t.grammar.size } := rfl
  have hframes : s.Frames root { s with table := .blank s.arena.size t.grammar.size } :=
    (Selection.Frames.refl s root).labels _ s.trace s.stats.applied
  rw [reduceRoot, run_bind_of_ok hblank]
  refine (X64.relabel_frames hbuilt hgrammar hframes (X64.kindred_blank _ _) root).bind ?_
  rintro _ s₁ h₁ ⟨htable₁, -⟩
  rw [run_bind_of_ok (EStateM.run_get s₁)]
  have hreduce := X64.reduce_frames hbuilt hgrammar s root (t.nesting s₁.arena)
  exact (hreduce root _ s₁ h₁ htable₁ (.inl (.refl root))).mono (fun _ h' => h')
    fun _ _ _ _ => trivial

/-- However a selection ends, it has kept the old nodes but for slots of nodes below the root, which
lead to locations where they differ; it has appended nothing but locations, has added to the end of
the instructions, and what is counted has stayed in step; the tree is counted if it succeeds. -/
theorem selectRoot_frame {settings : Settings} {t : Target} (ht : Target.x64 settings = .ok t)
    (root : NodeId) (s : Selection) :
    let s' := (t.selectRoot root).final s
    s.arena.Frames root s'.arena ∧
      s.stream.toList <+: s'.stream.toList ∧
      (s.stats.instrs = s.stream.size → s'.stats.instrs = s'.stream.size) ∧
      (s.stats.vregs = s.nextReg → s'.stats.vregs = s'.nextReg) ∧
      (∀ v s₁, (t.selectRoot root).run s = .ok v s₁ → s₁.stats.trees = s.stats.trees + 1) ∧
      ∀ e s₁, (t.selectRoot root).run s = .error e s₁ → s₁.stats.trees = s.stats.trees := by
  have hframes := reduceRoot_frames ht root s
  rw [SelectM.final]
  cases hrun : (t.reduceRoot root).run s with
  | ok v s₁ =>
      rw [hrun] at hframes
      have hcounted : (t.selectRoot root).run s =
          .ok v { s₁ with stats := { s₁.stats with trees := s₁.stats.trees + 1 } } := by
        rw [selectRoot_eq, run_bind_of_ok hrun]
        rfl
      rw [hcounted]
      refine ⟨hframes.1.arena, hframes.1.stream_isPrefix, hframes.1.instrs_eq, hframes.1.vregs_eq,
        fun v' s' hok => ?_, fun e s' herror => by cases herror⟩
      cases hok
      exact congrArg (· + 1) hframes.1.trees
  | error e s₁ =>
      rw [hrun] at hframes
      have hbroken : (t.selectRoot root).run s = .error e s₁ := by
        rw [selectRoot_eq, run_bind_of_error hrun]
      rw [hbroken]
      refine ⟨hframes.arena, hframes.stream_isPrefix, hframes.instrs_eq, hframes.vregs_eq,
        (fun v s' hok => by cases hok), fun e' s' herror => ?_⟩
      cases herror
      exact hframes.trees

/-- The sum `(x + 5) + f(-fp, 5 = fp)` with its root at 7; it is refused at the second argument,
when the slots of the first sum and of the first argument have been set. -/
def refusedSum : Arena :=
  ⟨#[.literal 5, .var ⟨"x", -8⟩, .binary .add 1 0, .framePointer, .unary .neg 3, .assign 0 3,
    .call "f" [4, 5], .binary .add 2 6]⟩

theorem selectRoot_frame_refusedSum :
    ∃ t s e, Target.x64 {} = .ok t ∧ (t.selectRoot 7).run { arena := refusedSum } = .error e s ∧
      (s.arena.get? 2, s.arena.get? 4, s.arena.get? 7) =
        (some (.binary .add 9 0), some (.unary .neg 11), some (.binary .add 10 6)) ∧
      refusedSum.Frames 7 s.arena ∧ s.stats.instrs = s.stream.size ∧
      s.stats.vregs = s.nextReg ∧ s.stats.trees = 0 := by
  have hslots : ∃ t, Target.x64 {} = .ok t ∧
      (endState? ((t.selectRoot 7).run { arena := refusedSum })).isSome = false ∧
      (((t.selectRoot 7).final { arena := refusedSum }).arena.get? 2,
        ((t.selectRoot 7).final { arena := refusedSum }).arena.get? 4,
        ((t.selectRoot 7).final { arena := refusedSum }).arena.get? 7) =
        (some (.binary .add 9 0), some (.unary .neg 11), some (.binary .add 10 6)) :=
    ⟨_, rfl, by decide +kernel, by decide +kernel⟩
  rcases hslots with ⟨t, ht, hfails, hslots⟩
  have hframe := selectRoot_frame ht 7 { arena := refusedSum }
  rw [SelectM.final] at hframe hslots
  cases hrun : (t.selectRoot 7).run { arena := refusedSum } with
  | ok v s =>
      rw [hrun] at hfails
      cases hfails
  | error e s =>
      rw [hrun] at hframe hslots
      rcases hframe with ⟨harena, -, hinstrs, hvregs, -, htrees⟩
      exact ⟨t, s, e, ht, hrun, hslots, harena, hinstrs rfl, hvregs rfl, htrees e s rfl⟩

end Target
end Codegen
