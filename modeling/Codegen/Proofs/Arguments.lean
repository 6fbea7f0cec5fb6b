import Codegen.Proofs.Coverage

/-!
# Arguments — call arguments that cannot be selected

A pattern sees a call as a leaf, so the arguments of a call are trees of their own, which are
labeled and reduced when the call is.  They come up from left to right, an argument before those
nested inside it.

* `Node.links`       : the children of a node, or the arguments of a call
* `Arena.Alike`      : two arenas have the same nodes below a node
* `Arena.BlockedAt`  : the ways to call arguments that are blocked
* `Precedes`         : the order of ways from left to right
* `Ways.First`       : the first of a set of ways
-/

namespace Codegen

/-! ## Links -/

/-- The nodes that a node leads on to: the arguments of a call, and the children of any other. -/
def Node.links : Node → List NodeId
  | .call _ args => args
  | n => n.children

theorem Node.links_of_ne_call {n : Node} (h : n.kind ≠ .call) : n.links = n.children := by
  cases n with
  | call => exact absurd rfl h
  | _ => rfl

theorem Node.links_of_children {n : Node} {slot : Nat} {c : NodeId}
    (h : n.children[slot]? = some c) : n.links[slot]? = some c := by
  cases n with
  | call => simp [children] at h
  | _ => exact h

theorem Node.children_of_links {n : Node} (h : n.links = []) : n.children = [] := by
  cases n with
  | call => rfl
  | _ => exact h

namespace Arena

variable {links : Node → List NodeId} {a a' : Arena} {id m : NodeId} {n : Node} {w : List Symbol}

theorem Path.toLinks (h : Path Node.children a id w m) : Path Node.links a id w m := by
  induction h with
  | root id => exact .root id
  | step hn hc _ ih => exact .step hn (Node.links_of_children hc) ih

/-- A way through children leaves no call. -/
theorem Path.not_call (h : Path Node.children a id w m) : .kind .call ∉ w := by
  induction h with
  | root => exact List.not_mem_nil
  | @step _ _ _ n _ _ _ hc _ ih =>
      simp only [List.mem_cons, Symbol.kind.injEq, reduceCtorEq, false_or, not_or]
      refine ⟨fun hkind => ?_, ih⟩
      cases n with
      | call => simp [Node.children] at hc
      | _ => cases hkind

theorem Below.toLinks (h : Below Node.children a id m) : Below Node.links a id m := by
  rcases h with ⟨w, hw⟩
  exact ⟨w, hw.toLinks⟩

/-! ## Arenas that agree below a node -/

/-- The nodes below `id` are the same in both arenas. -/
def Alike (links : Node → List NodeId) (a a' : Arena) (id : NodeId) : Prop :=
  ∀ m, Below links a id m → a'.get? m = a.get? m

namespace Alike

theorem child (h : Alike links a a' id) {slot : Nat} {c : NodeId} (hn : a.get? id = some n)
    (hc : (links n)[slot]? = some c) : Alike links a a' c :=
  fun m hm => h m ((Below.child hn hc).trans hm)

theorem of_below (h : Alike links a a' id) {c : NodeId} (hc : Below links a id c) :
    Alike links a a' c :=
  fun m hm => h m (hc.trans hm)

theorem path_iff (h : Alike links a a' id) : Path links a' id w m ↔ Path links a id w m := by
  constructor
  · intro hw
    induction hw with
    | root id => exact .root id
    | step hn hc _ ih =>
        have hn' := (h _ (.refl _)).symm.trans hn
        exact .step hn' hc (ih (h.child hn' hc))
  · intro hw
    induction hw with
    | root id => exact .root id
    | step hn hc _ ih => exact .step ((h _ (.refl _)).trans hn) hc (ih (h.child hn hc))

theorem below_iff (h : Alike links a a' id) : Below links a' id m ↔ Below links a id m :=
  exists_congr fun _ => h.path_iff

theorem children (h : Alike Node.links a a' id) : Alike Node.children a a' id :=
  fun m hm => h m hm.toLinks

theorem misplaced_iff (h : Alike Node.children a a' id) (hm : Below Node.children a id m) :
    a'.Misplaced m ↔ a.Misplaced m := by
  unfold Misplaced
  rw [h m hm]
  refine exists_congr fun target => exists_congr fun value => exists_congr fun n => ?_
  refine and_congr_right fun hassign => ?_
  have hslot : (Node.assign target value).children[0]? = some target := rfl
  rw [h target (hm.trans (.child hassign hslot))]

theorem blocked_iff (h : Alike Node.links a a' id) : a'.Blocked id ↔ a.Blocked id := by
  refine exists_congr fun m => ?_
  rw [h.children.below_iff]
  exact and_congr_right h.children.misplaced_iff

end Alike

/-! ## Blocked arguments -/

/-- `w` leads from `id` down to an argument of a call, and the argument is blocked. -/
inductive BlockedAt (a : Arena) : NodeId → List Symbol → NodeId → Prop
  | argument {id arg : NodeId} {callee : String} {args : List NodeId} {slot : Nat} :
      a.get? id = some (.call callee args) → args[slot]? = some arg → a.Blocked arg →
        BlockedAt a id [.kind .call, .child slot] arg
  | step {id c arg : NodeId} {n : Node} {slot : Nat} {w : List Symbol} :
      a.get? id = some n → n.links[slot]? = some c → BlockedAt a c w arg →
        BlockedAt a id (.kind n.kind :: .child slot :: w) arg

theorem BlockedAt.path (h : BlockedAt a id w m) : Path Node.links a id w m := by
  induction h with
  | argument hn harg => exact .step (n := .call _ _) hn harg (.root _)
  | step hn hc _ ih => exact .step hn hc ih

theorem BlockedAt.blocked (h : BlockedAt a id w m) : a.Blocked m := by
  induction h with
  | argument _ _ hblocked => exact hblocked
  | step _ _ _ ih => exact ih

/-- An assignment to something that is no place blocks the node or an argument of a call. -/
theorem exists_misplaced_iff :
    (∃ m, Below Node.links a id m ∧ a.Misplaced m) ↔
      a.Blocked id ∨ ∃ w arg, BlockedAt a id w arg := by
  constructor
  · rintro ⟨m, ⟨w, hw⟩, hm⟩
    induction hw with
    | root id => exact .inl ⟨id, .refl id, hm⟩
    | @step id c _ n slot _ hn hc _ ih =>
        rcases ih hm with hblocked | ⟨w, arg, hw⟩
        · -- a blocked child blocks the node, unless the node is a call
          cases n with
          | call callee args => exact .inr ⟨_, c, .argument hn hc hblocked⟩
          | _ => exact .inl (hblocked.of_below (.child hn hc))
        · exact .inr ⟨_, arg, .step hn hc hw⟩
  · rintro (⟨m, hm, hmisplaced⟩ | ⟨w, arg, hw⟩)
    · exact ⟨m, hm.toLinks, hmisplaced⟩
    · rcases hw.blocked with ⟨m, hm, hmisplaced⟩
      exact ⟨m, Below.trans ⟨w, hw.path⟩ hm.toLinks, hmisplaced⟩

theorem Alike.blockedAt_iff {arg : NodeId} (h : Alike Node.links a a' id) :
    BlockedAt a' id w arg ↔ BlockedAt a id w arg := by
  constructor
  · intro hw
    induction hw with
    | @argument _ _ callee args slot hn harg hblocked =>
        have hn' := (h _ (.refl _)).symm.trans hn
        have hlinks : (Node.call callee args).links[slot]? = some _ := harg
        exact .argument hn' harg ((h.child hn' hlinks).blocked_iff.1 hblocked)
    | step hn hc _ ih =>
        have hn' := (h _ (.refl _)).symm.trans hn
        exact .step hn' hc (ih (h.child hn' hc))
  · intro hw
    induction hw with
    | @argument _ _ callee args slot hn harg hblocked =>
        have hlinks : (Node.call callee args).links[slot]? = some _ := harg
        exact .argument ((h _ (.refl _)).trans hn) harg ((h.child hn hlinks).blocked_iff.2 hblocked)
    | step hn hc _ ih => exact .step ((h _ (.refl _)).trans hn) hc (ih (h.child hn hc))

end Arena

/-! ## The order of ways -/

/-- The slots that a way leaves its nodes by. -/
def slots (w : List Symbol) : List Nat :=
  w.filterMap fun
    | .child slot => some slot
    | _ => none

/-- From left to right, and a way before its continuations. -/
def Precedes : List Nat → List Nat → Prop
  | [], _ => True
  | _ :: _, [] => False
  | i :: v, j :: w => i < j ∨ i = j ∧ Precedes v w

/-- A set of ways, each with the node that it leads to. -/
abbrev Ways := List Symbol → NodeId → Prop

namespace Ways

/-- `w` is the first of a set of ways, and leads to `m`. -/
structure First (W : Ways) (w : List Symbol) (m : NodeId) : Prop where
  mem : W w m
  precedes : ∀ w' m', W w' m' → Precedes (slots w) (slots w')

variable {W : Ways} {k : NodeKind} {slot : Nat} {w : List Symbol} {m : NodeId}

/-- The ways that go on after leaving a node of kind `k` by a slot. -/
def under (k : NodeKind) (slot : Nat) (W : Ways) : Ways :=
  fun w m => ∃ v, w = .kind k :: .child slot :: v ∧ W v m

/-- The ways that leave a node of kind `k` by one of several slots, from `slot` on. -/
def among (k : NodeKind) (W : NodeId → Ways) : Nat → List NodeId → Ways
  | _, [], _, _ => False
  | slot, c :: rest, w, m => under k slot (W c) w m ∨ among k W (slot + 1) rest w m

theorem among_iff {W : NodeId → Ways} {ids : List NodeId} :
    among k W slot ids w m ↔
      ∃ (i : Nat) (c : NodeId), ids[i]? = some c ∧ under k (slot + i) (W c) w m := by
  induction ids generalizing slot with
  | nil => simp [among]
  | cons c rest ih =>
      rw [among, ih]
      constructor
      · rintro (hfirst | ⟨i, c', hc', hunder⟩)
        · exact ⟨0, c, rfl, hfirst⟩
        · exact ⟨i + 1, c', hc', by rwa [Nat.add_right_comm] at hunder⟩
      · rintro ⟨_ | i, c', hc', hunder⟩
        · cases hc'
          exact .inl hunder
        · exact .inr ⟨i, c', hc', by rwa [Nat.add_right_comm]⟩

/-- The ways by a slot come before those by later ones. -/
theorem under_precedes_among {W' : NodeId → Ways} {ids : List NodeId} {w' : List Symbol}
    {m' : NodeId} (h : under k slot W w m) (h' : among k W' (slot + 1) ids w' m') :
    Precedes (slots w) (slots w') := by
  rcases h with ⟨v, rfl, -⟩
  rcases among_iff.1 h' with ⟨i, c, -, v', rfl, -⟩
  exact .inl (by omega)

theorem First.under (h : First W w m) (k : NodeKind) (slot : Nat) :
    First (W.under k slot) (.kind k :: .child slot :: w) m where
  mem := ⟨w, rfl, h.mem⟩
  precedes := by
    rintro _ m' ⟨v, rfl, hv⟩
    exact .inr ⟨rfl, h.precedes v m' hv⟩

end Ways

/-! ## Ways to blocked arguments, slot by slot -/

namespace Arena

variable {a : Arena} {id arg : NodeId} {n : Node} {w : List Symbol}

/-- The ways to blocked arguments from an argument on, the argument itself included. -/
def EnteredAt (a : Arena) (id : NodeId) (w : List Symbol) (arg : NodeId) : Prop :=
  w = [] ∧ arg = id ∧ a.Blocked id ∨ a.BlockedAt id w arg

theorem blockedAt_iff (hn : a.get? id = some n) (hcall : n.kind ≠ .call) :
    a.BlockedAt id w arg ↔ Ways.among n.kind a.BlockedAt 0 n.children w arg := by
  rw [Ways.among_iff, ← Node.links_of_ne_call hcall]
  constructor
  · intro h
    cases h with
    | argument hn' =>
        cases hn.symm.trans hn'
        exact absurd rfl hcall
    | @step _ c _ _ slot w hn' hc hw =>
        cases hn.symm.trans hn'
        exact ⟨slot, c, hc, w, by rw [Nat.zero_add], hw⟩
  · rintro ⟨slot, c, hc, v, rfl, hv⟩
    rw [Nat.zero_add]
    exact .step hn hc hv

theorem blockedAt_call_iff {callee : String} {args : List NodeId}
    (hn : a.get? id = some (.call callee args)) :
    a.BlockedAt id w arg ↔ Ways.among .call a.EnteredAt 0 args w arg := by
  rw [Ways.among_iff]
  constructor
  · intro h
    cases h with
    | @argument _ _ _ _ slot hn' harg hblocked =>
        cases hn.symm.trans hn'
        exact ⟨slot, arg, harg, [], by rw [Nat.zero_add], .inl ⟨rfl, rfl, hblocked⟩⟩
    | @step _ c _ _ slot w hn' hc hw =>
        cases hn.symm.trans hn'
        exact ⟨slot, c, hc, w, by rw [Nat.zero_add]; rfl, .inr hw⟩
  · rintro ⟨slot, c, hc, v, rfl, ⟨rfl, rfl, hblocked⟩ | hv⟩
    · rw [Nat.zero_add]
      exact .argument hn hc hblocked
    · rw [Nat.zero_add]
      exact .step (n := .call callee args) hn hc hv

theorem Alike.enteredAt_iff {a' : Arena} (h : Alike Node.links a a' id) :
    a'.EnteredAt id w arg ↔ a.EnteredAt id w arg := by
  unfold EnteredAt
  rw [h.blocked_iff, h.blockedAt_iff]

end Arena

end Codegen
