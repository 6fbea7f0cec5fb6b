import Codegen.Proofs.Reducing
import Codegen.Proofs.Sites

/-!
# Outcome — how the parts of a selection end

A part of a selection has to do with some call arguments.  If none of them is blocked then it ends
with a result; otherwise the first one that is blocked is refused.  When one part follows another,
the arguments of the first come first.

* `Ends`               : a run ends as the ways to blocked arguments say
* `X64.Confined`       : a run changes the nodes and the labels of a part of the tree only
* `X64.Intact`         : in a part of the tree nothing has been done yet
* `X64.Held`           : what a pattern binds has been reduced and is at its place
* `X64.bindSubs_ends`  : binding the children of a node
-/

namespace Codegen

/-! ## Ends -/

/-- A run ends as the ways to blocked arguments say: if there are none then with a result that has
the property `Q`, and otherwise with a refusal of the argument that the first one leads to. -/
inductive Ends (a : Arena) (W : Ways) {α : Type} (Q : α → Selection → Prop) :
    EStateM.Result Failure Selection α → Prop
  | ok {v : α} {s : Selection} : (∀ w m, ¬ W w m) → Q v s → Ends a W Q (.ok v s)
  | refused {w : List Symbol} {m : NodeId} {n : Node} {s : Selection} :
      W.First w m → a.get? m = some n → Ends a W Q (.error (.error (.noRule m n.kind .reg)) s)

namespace Ends

variable {a : Arena} {W W' : Ways} {α β : Type} {Q : α → Selection → Prop}
  {Q' : β → Selection → Prop} {result : EStateM.Result Failure Selection α} {x : SelectM α}
  {f : α → SelectM β} {s : Selection}

theorem congr (hW : ∀ w m, W' w m ↔ W w m) (h : Ends a W Q result) : Ends a W' Q result := by
  have heq : W' = W := funext fun w => funext fun m => propext (hW w m)
  rwa [heq]

theorem mono {P : α → Selection → Prop} (hQ : ∀ v s, Q v s → P v s) (h : Ends a W Q result) :
    Ends a W P result := by
  cases h with
  | ok hnone hv => exact .ok hnone (hQ _ _ hv)
  | refused hfirst hn => exact .refused hfirst hn

theorem under (h : Ends a W Q result) (k : NodeKind) (slot : Nat) :
    Ends a (W.under k slot) Q result := by
  cases h with
  | ok hnone hv =>
      refine .ok ?_ hv
      rintro _ m ⟨v, rfl, hw⟩
      exact hnone v m hw
  | refused hfirst hn => exact .refused (hfirst.under k slot) hn

/-- The arguments that the first part has to do with come before those of the second. -/
theorem bind (hx : Ends a W Q (x.run s)) (hf : ∀ v s₁, Q v s₁ → Ends a W' Q' ((f v).run s₁))
    (horder : ∀ w m w' m', W w m → W' w' m' → Precedes (slots w) (slots w')) :
    Ends a (fun w m => W w m ∨ W' w m) Q' ((x >>= f).run s) := by
  rw [EStateM.run_bind]
  generalize x.run s = result at hx
  cases hx with
  | @ok v s₁ hnone hv =>
      refine (hf v s₁ hv).congr fun w m => ?_
      exact or_iff_right (hnone w m)
  | refused hfirst hn =>
      -- the second part is not reached, and all its ways come later
      refine .refused ⟨.inl hfirst.mem, ?_⟩ hn
      rintro w' m' (hw' | hw')
      · exact hfirst.precedes w' m' hw'
      · exact horder _ _ _ _ hfirst.mem hw'

/-- A second part without arguments of its own. -/
theorem andThen (hx : Ends a W Q (x.run s))
    (hf : ∀ v s₁, Q v s₁ → ∃ v' s', (f v).run s₁ = .ok v' s' ∧ Q' v' s') :
    Ends a W Q' ((x >>= f).run s) := by
  rw [EStateM.run_bind]
  generalize x.run s = result at hx
  cases hx with
  | @ok v s₁ hnone hv =>
      rcases hf v s₁ hv with ⟨v', s', hrun, hv'⟩
      change Ends a W Q' ((f v).run s₁)
      rw [hrun]
      exact .ok hnone hv'
  | refused hfirst hn => exact .refused hfirst hn

theorem exists_ok (h : Ends a W Q result) (hnone : ∀ w m, ¬ W w m) :
    ∃ v s, result = .ok v s ∧ Q v s := by
  cases h with
  | @ok v s _ hv => exact ⟨v, s, rfl, hv⟩
  | refused hfirst => exact absurd hfirst.mem (hnone _ _)

theorem exists_refused (h : Ends a W Q result) (hsome : ∃ w m, W w m) :
    ∃ w m n s, W.First w m ∧ a.get? m = some n ∧
      result = .error (.error (.noRule m n.kind .reg)) s := by
  cases h with
  | ok hnone =>
      rcases hsome with ⟨w, m, hw⟩
      exact absurd hw (hnone w m)
  | @refused w m n s hfirst hn => exact ⟨w, m, n, s, hfirst, hn, rfl⟩

/-- Only the nodes that are refused are looked up. -/
theorem of_alike {a' : Arena} {id : NodeId} (halike : Arena.Alike Node.links a a' id)
    (hbelow : ∀ w m, W w m → a.Below Node.links id m) (h : Ends a' W Q result) :
    Ends a W Q result := by
  cases h with
  | ok hnone hv => exact .ok hnone hv
  | refused hfirst hn =>
      exact .refused hfirst ((halike _ (hbelow _ _ hfirst.mem)).symm.trans hn)

end Ends

/-! ## What is changed -/

namespace X64

/-- From `s` to `s'` nodes may be appended; those that were there and are not touched are the same,
and so are their labels.  A leaf of `a` is the same even if it is touched, but then labeling may
have come to it. -/
structure Confined (t : Target) (a : Arena) (site : NodeId → List Symbol)
    (touched : NodeId → Prop) (s s' : Selection) : Prop where
  size : s.arena.size ≤ s'.arena.size
  nodes : ∀ m < s.arena.size, (touched m → a.Leaf m) → s'.arena.get? m = s.arena.get? m
  labels : ∀ m, ¬ touched m → s'.table.label? m = s.table.label? m
  leaves : ∀ m, a.Leaf m → Ripens t a site s.table s'.table m

namespace Confined

variable {t : Target} {a : Arena} {site : NodeId → List Symbol} {touched touched' : NodeId → Prop}
  {s s' s'' : Selection} {code : List Instr}

theorem refl (s : Selection) : Confined t a site touched s s :=
  ⟨Nat.le_refl _, fun _ _ _ => rfl, fun _ _ => rfl, fun _ _ => .inl rfl⟩

theorem trans (h : Confined t a site touched s s') (h' : Confined t a site touched s' s'') :
    Confined t a site touched s s'' where
  size := Nat.le_trans h.size h'.size
  nodes m hm htouched :=
    (h'.nodes m (Nat.lt_of_lt_of_le hm h.size) htouched).trans (h.nodes m hm htouched)
  labels m htouched := (h'.labels m htouched).trans (h.labels m htouched)
  leaves m hleaf := (h.leaves m hleaf).trans (h'.leaves m hleaf)

theorem mono (hsub : ∀ m, touched m → touched' m) (h : Confined t a site touched s s') :
    Confined t a site touched' s s' where
  size := h.size
  nodes m hm htouched := h.nodes m hm fun hm' => htouched (hsub m hm')
  labels m htouched := h.labels m fun hm' => htouched (hsub m hm')
  leaves := h.leaves

/-- A step that only appends. -/
theorem of_extends (h : s.Extends (fun _ => False) s' code) : Confined t a site touched s s' where
  size := h.size
  nodes m hm _ := h.same m hm not_false
  labels m _ := by rw [h.table]
  leaves m _ := .inl (by rw [h.table])

/-- A step that replaces a node which is not a leaf. -/
theorem replaced {id c : NodeId} {n : Node} {slot : Nat} (hn : a.get? id = some n)
    (hc : n.links[slot]? = some c) (s : Selection) (n' : Node) :
    Confined t a site (· = id) s { s with arena := s.arena.set id n' } where
  size := by rw [Arena.size_set]
  nodes m _ hleaf := by
    refine Arena.get?_set_of_ne _ ?_ n'
    rintro rfl
    exact Arena.not_leaf hn hc (hleaf rfl)
  labels _ _ := rfl
  leaves _ _ := .inl rfl

theorem applied (s : Selection) (id : NodeId) (x : Nonterminal) (rule : String) :
    Confined t a site touched s (s.applied id x rule) :=
  ⟨Nat.le_refl _, fun _ _ _ => rfl, fun _ _ => rfl, fun _ _ => .inl rfl⟩

/-- The leaves are looked up where the nodes are the same. -/
theorem of_alike (hbuilt : t.Built) (hgrammar : t.grammar = grammar) {b : Arena} {c : NodeId}
    (halike : a.Alike Node.links b c) (hbelow : ∀ m, touched m → a.Below Node.links c m)
    (h : Confined t b site touched s s') : Confined t a site touched s s' where
  size := h.size
  nodes m hm hleaf :=
    h.nodes m hm fun htouched => (hleaf htouched).of_get? (halike m (hbelow m htouched))
  labels := h.labels
  leaves m hleaf := by
    by_cases htouched : touched m
    · have hsame := halike m (hbelow m htouched)
      exact (h.leaves m (hleaf.of_get? hsame)).of_get? hbuilt hgrammar hsame.symm
    · exact .inl (h.labels m htouched)

end Confined

/-- The part of the state that belongs to the subtree of `id` is as it was: the nodes are those of
`a`, and the labels those of `table`, but for leaves that labeling has come to since. -/
structure Intact (t : Target) (a : Arena) (site : NodeId → List Symbol) (table : LabelTable)
    (id : NodeId) (s : Selection) : Prop where
  nodes : a.Alike Node.links s.arena id
  labels : ∀ m, a.Below Node.links id m → Ripens t a site table s.table m
  size : a.size ≤ s.arena.size

/-- The nodes that can stand for the value of `id`: those of its subtree, and new ones. -/
def Owns (a : Arena) (id m : NodeId) : Prop := a.Below Node.links id m ∨ a.size ≤ m

/-- The node `v` stands for the value of `id`, an operand of the form `x`. -/
structure Stands (a b : Arena) (id : NodeId) (x : Nonterminal) (v : NodeId) : Prop where
  owned : Owns a id v
  operand : ∃ o, b.operand? v = some o ∧ Fits a id x o

/-- Reducing `id` ends, and if with a node then with one that stands for its value. -/
def Reduces (t : Target) (a : Arena) (site : NodeId → List Symbol) (table : LabelTable)
    (fuel : Nat) (id : NodeId) (x : Nonterminal) : Prop :=
  ∀ s, Intact t a site table id s → Ends a (a.BlockedAt id)
    (fun v s' => Confined t a site (a.Below Node.links id) s s' ∧ Stands a s'.arena id x v)
    ((t.reduce fuel id x).run s)

variable {t : Target} {a b b' : Arena} {site : NodeId → List Symbol} {table : LabelTable}
  {fuel : Nat} {id c top : NodeId} {n : Node} {slot : Nat} {s s' : Selection}
  {touched : NodeId → Prop}

theorem Intact.refl (s : Selection) (id : NodeId) : Intact t s.arena site s.table id s :=
  ⟨fun _ _ => rfl, fun _ _ => .inl rfl, Nat.le_refl _⟩

theorem Intact.of_below (h : Intact t a site table id s) (hc : a.Below Node.links id c) :
    Intact t a site table c s where
  nodes m hm := h.nodes m (hc.trans hm)
  labels m hm := h.labels m (hc.trans hm)
  size := h.size

theorem Intact.confined (h : Intact t a site table id s) (hsited : a.Sited site id)
    (hconfined : Confined t a site touched s s')
    (hapart : ∀ m, a.Below Node.links id m → touched m → a.Leaf m) :
    Intact t a site table id s' where
  nodes m hm := by
    have hlt := Nat.lt_of_lt_of_le (hsited.inside m hm) h.size
    exact (hconfined.nodes m hlt (hapart m hm)).trans (h.nodes m hm)
  labels m hm := by
    refine (h.labels m hm).trans ?_
    by_cases htouched : touched m
    · exact hconfined.leaves m (hapart m hm htouched)
    · exact .inl (hconfined.labels m htouched)
  size := Nat.le_trans h.size hconfined.size

theorem Owns.of_below {m : NodeId} (h : Owns a c m) (hc : a.Below Node.links id c) :
    Owns a id m :=
  h.imp_left hc.trans

section

variable {m : NodeId} (hsited : a.Sited site id) (hn : a.get? id = some n)
  (hc : n.links[slot]? = some c) (h : Owns a c m)
include hsited hn hc h

/-- What belongs to a child is not the node itself. -/
theorem Owns.ne_parent : m ≠ id := by
  rintro rfl
  rcases h with hm | hm
  · exact hsited.not_below_child hn hc hm
  · exact Nat.not_lt.2 hm (hsited.inside m (.refl m))

/-- What belongs to a child and is below another one is a leaf. -/
theorem Owns.leaf {slot' : Nat} {c' : NodeId} (hc' : n.links[slot']? = some c')
    (hne : slot ≠ slot') (hm' : a.Below Node.links c' m) : a.Leaf m := by
  rcases h with hm | hm
  · exact hsited.leaf_of_slots hn hc hc' hne hm hm'
  · have hbelow : a.Below Node.links id m := (Arena.Below.child hn hc').trans hm'
    exact absurd (hsited.inside m hbelow) (Nat.not_lt.2 hm)

end

end X64

/-! ## Nodes without their children -/

/-- The node with nothing in its child slots. -/
def Node.shape : Node → Node
  | .binary op _ _ => .binary op 0 0
  | .compare op _ _ => .compare op 0 0
  | .logical op _ _ => .logical op 0 0
  | .assign _ _ => .assign 0 0
  | .unary op _ => .unary op 0
  | .grouping _ => .grouping 0
  | .deref _ => .deref 0
  | .signExtend _ => .signExtend 0
  | n => n

theorem Node.shape_setChild? {n m : Node} {index : Nat} {new : NodeId}
    (h : n.setChild? index new = some m) : m.shape = n.shape := by
  unfold setChild? at h
  split at h <;> simp_all [shape] <;> subst h <;> rfl

theorem Node.kind_shape (n : Node) : n.shape.kind = n.kind := by
  cases n <;> rfl

theorem Node.shape_of_children {n : Node} (h : n.children = []) : n.shape = n := by
  cases n <;> first
    | rfl
    | cases h

/-! ## What a pattern binds -/

namespace X64

variable {t : Target} {a b b' : Arena} {site : NodeId → List Symbol} {table : LabelTable}
  {fuel : Nat} {id c top v : NodeId} {n : Node} {slot : Nat} {s s' : Selection}

mutual

/-- The arena `b` has, at `v`, what the pattern binds at the node `id` of `a`: a node that stands
for its value, or the node itself with such nodes at the positions below. -/
def Held (a b : Arena) : Pattern → NodeId → NodeId → Prop
  | .nt x, id, v => Stands a b id x v
  | .node kind subs, id, v => v = id ∧ ∃ n n', a.get? id = some n ∧ b.get? id = some n' ∧
      n.kind = kind ∧ n'.shape = n.shape ∧ HeldAll a b subs n.children n'.children

def HeldAll (a b : Arena) : List Pattern → List NodeId → List NodeId → Prop
  | [], [], [] => True
  | p :: ps, id :: ids, v :: vs => Held a b p id v ∧ HeldAll a b ps ids vs
  | _, _, _ => False

end

theorem HeldAll.nil {ids vs : List NodeId} (h : HeldAll a b [] ids vs) : ids = [] ∧ vs = [] := by
  cases ids <;> cases vs <;> simp_all [HeldAll]

theorem HeldAll.cons {p : Pattern} {ps : List Pattern} {ids vs : List NodeId}
    (h : HeldAll a b (p :: ps) ids vs) :
    ∃ id ids' v vs', ids = id :: ids' ∧ vs = v :: vs' ∧ Held a b p id v ∧
      HeldAll a b ps ids' vs' := by
  cases ids with
  | nil => simp [HeldAll] at h
  | cons id ids =>
      cases vs with
      | nil => simp [HeldAll] at h
      | cons v vs => exact ⟨id, ids, v, vs, rfl, rfl, h⟩

mutual

/-- What is bound stays bound while other nodes change. -/
theorem Held.kept : (p : Pattern) → {id v : NodeId} →
    (∀ m < b.size, Owns a id m → b'.get? m = b.get? m) → Held a b p id v → Held a b' p id v
  | .nt x, id, v, hsame, ⟨howned, o, ho, hfits⟩ => by
      refine ⟨howned, o, ?_, hfits⟩
      rw [← ho, Arena.operand?, Arena.operand?, hsame v (lt_size_of_operand? ho) howned]
  | .node kind subs, id, v, hsame, ⟨hv, n, n', hn, hn', hkind, hshape, hall⟩ => by
      refine ⟨hv, n, n', hn, ?_, hkind, hshape, HeldAll.kept subs ?_ hall⟩
      · rw [hsame id (Arena.lt_size hn') (.inl (.refl id)), hn']
      · intro c hc m hm howned
        exact hsame m hm (howned.of_below (Arena.Below.of_mem hn hc).toLinks)

theorem HeldAll.kept : (ps : List Pattern) → {ids vs : List NodeId} →
    (∀ id ∈ ids, ∀ m < b.size, Owns a id m → b'.get? m = b.get? m) →
    HeldAll a b ps ids vs → HeldAll a b' ps ids vs
  | [], [], [], _, _ => trivial
  | p :: ps, _ :: _, _ :: _, hsame, ⟨hfirst, hrest⟩ =>
      ⟨Held.kept p (hsame _ List.mem_cons_self) hfirst,
        HeldAll.kept ps (fun id hid => hsame id (List.mem_cons_of_mem _ hid)) hrest⟩

end

/-- The child in a slot is replaced by the node that stands for its value. -/
theorem setChild_held {n' : Node} {x : Nonterminal} {vs rest : List NodeId}
    (hsited : a.Sited site id) (hn : a.get? id = some n) (hc : n.children[slot]? = some c)
    (hsize : a.size ≤ s.arena.size) (hn' : s.arena.get? id = some n')
    (hchildren : n'.children = vs ++ c :: rest) (hslot : vs.length = slot)
    (hstands : Stands a s.arena c x v) :
    ∃ s', (SelectM.setChild id slot v).run s = .ok () s' ∧ Confined t a site (· = id) s s' ∧
      ∃ n'', s'.arena.get? id = some n'' ∧ n''.shape = n'.shape ∧
        n''.children = vs ++ v :: rest ∧ Stands a s'.arena c x v := by
  have hset : ∃ n'', n'.setChild? slot v = some n'' := by
    rw [← Option.isSome_iff_exists, Node.isSome_setChild?, hchildren, ← hslot]
    simp
  rcases hset with ⟨n'', hset⟩
  have hid := Nat.lt_of_lt_of_le (hsited.inside id (.refl id)) hsize
  have hlink := Node.links_of_children hc
  have hne := hstands.owned.ne_parent hsited hn hlink
  refine ⟨_, SelectM.run_setChild hn' hset, .replaced hn hlink s n'', n'',
    Arena.get?_set_self hid n'', Node.shape_setChild? hset, ?_, hstands.owned, ?_⟩
  · rw [Node.children_setChild? hset, hchildren, ← hslot, List.set_append_right _ _ (Nat.le_refl _),
      Nat.sub_self]
    rfl
  · rcases hstands.operand with ⟨o, ho, hfits⟩
    refine ⟨o, ?_, hfits⟩
    rw [← ho, Arena.operand?, Arena.operand?, Arena.get?_set_of_ne _ hne]

mutual

/-- What a sub-pattern binds in one slot of a node is reduced. -/
theorem bindSub_ends (hsited : a.Sited site top)
    (hreduces : ∀ m, a.Below Node.children top m → m ≠ top → ∀ y, table.Records m y →
      Reduces t a site table fuel m y) (rule : String) :
    (p : Pattern) → p.avoids .call = true → {id c : NodeId} → {n n' : Node} →
    {slot : Nat} → {vs rest : List NodeId} → {s : Selection} → a.Below Node.children top id →
    a.get? id = some n → n.children[slot]? = some c → p.Matches a table.Records c →
    Intact t a site table c s → s.arena.get? id = some n' → n'.children = vs ++ c :: rest →
    vs.length = slot →
    Ends a (a.BlockedAt c)
      (fun _ s' => Confined t a site (fun m => m = id ∨ a.Below Node.links c m) s s' ∧
        ∃ v n'', s'.arena.get? id = some n'' ∧ n''.shape = n'.shape ∧
          n''.children = vs ++ v :: rest ∧ Held a s'.arena p c v)
      ((Target.bindSub (t.reduce fuel) rule p id slot).run s)
  | .nt x, _, id, c, n, n', slot, vs, rest, s, hid, hn, hc, hmatches, hintact, hn', hchildren,
      hslot => by
      have hlink := Node.links_of_children hc
      have hid' := hsited.of_below hid.toLinks
      have hbound : n'.children[slot]? = some c := by simp [hchildren, ← hslot]
      have hlt := Nat.lt_of_lt_of_le (hid'.inside id (.refl id)) hintact.size
      have hne : c ≠ top := by
        rintro rfl
        exact hid'.not_below_child hn hlink hid.toLinks
      rw [Target.bindSub, run_bind_of_ok (Target.run_boundChild hn' hbound)]
      refine (hreduces c (hid.trans (.child hn hc)) hne x hmatches s hintact).andThen ?_
      rintro v s₁ ⟨hconfined, hstands⟩
      -- the node itself is not below its child, so its slots are as they were
      have hn₁ : s₁.arena.get? id = some n' :=
        (hconfined.nodes id hlt fun h => absurd h (hid'.not_below_child hn hlink)).trans hn'
      rcases setChild_held hid' hn hc (Nat.le_trans hintact.size hconfined.size) hn₁ hchildren
          hslot hstands with
        ⟨s₂, hrun, hconfined', n'', hn'', hshape, hchildren', hstands'⟩
      refine ⟨(), s₂, hrun, ?_, v, n'', hn'', hshape, hchildren', hstands'⟩
      exact (hconfined.mono fun m hm => .inr hm).trans (hconfined'.mono fun m hm => .inl hm)
  | .node kind subs, havoids, id, c, n, n', slot, vs, rest, s, hid, hn, hc, ⟨m, hm, hkind, hall⟩,
      hintact, hn', hchildren, hslot => by
      rw [Pattern.avoids, Bool.and_eq_true, decide_eq_true_eq] at havoids
      have hlink := Node.links_of_children hc
      have hid' := hsited.of_below hid.toLinks
      have hbound : n'.children[slot]? = some c := by simp [hchildren, ← hslot]
      have hlt := Nat.lt_of_lt_of_le (hid'.inside id (.refl id)) hintact.size
      have hbelow : ∀ c' ∈ m.children, a.Below Node.links c c' :=
        fun c' hc' => (Arena.Below.of_mem hm hc').toLinks
      rw [Target.bindSub, run_bind_of_ok (Target.run_boundChild hn' hbound)]
      have hnone : ([] : List NodeId).length = 0 := rfl
      have hsubs := bindSubs_ends hsited hreduces rule subs havoids.2 (hid.trans (.child hn hc)) hm
        (List.nil_append _).symm hall (fun c' hc' => hintact.of_below (hbelow c' hc'))
        ((hintact.nodes c (.refl c)).trans hm) (List.nil_append _).symm hnone hnone
      have hcall : m.kind ≠ .call := by
        rw [hkind]
        exact havoids.1
      refine (hsubs.congr fun w arg => Arena.blockedAt_iff hm hcall).mono ?_
      rintro _ s₁ ⟨hconfined, vs', m', hm', hshape, hchildren', hheld⟩
      have hconfined' : Confined t a site (a.Below Node.links c) s s₁ := by
        refine hconfined.mono ?_
        rintro k (rfl | ⟨c', hc', hk⟩)
        · exact .refl k
        · exact (hbelow c' hc').trans hk
      have hn₁ := hconfined'.nodes id hlt fun h => absurd h (hid'.not_below_child hn hlink)
      refine ⟨hconfined'.mono fun k hk => .inr hk, c, n', hn₁.trans hn', rfl, hchildren, rfl, m, m',
        hm, hm', hkind, hshape, ?_⟩
      rwa [hchildren']

/-- What the sub-patterns bind from a slot on is reduced. -/
theorem bindSubs_ends (hsited : a.Sited site top)
    (hreduces : ∀ m, a.Below Node.children top m → m ≠ top → ∀ y, table.Records m y →
      Reduces t a site table fuel m y) (rule : String) :
    (ps : List Pattern) → Pattern.avoidsAll .call ps = true → {id : NodeId} →
    {n n' : Node} → {slot : Nat} → {done vs rest : List NodeId} → {s : Selection} →
    a.Below Node.children top id → a.get? id = some n → n.children = done ++ rest →
    Pattern.MatchesAll a table.Records ps rest → (∀ c ∈ rest, Intact t a site table c s) →
    s.arena.get? id = some n' → n'.children = vs ++ rest → done.length = slot → vs.length = slot →
    Ends a (Ways.among n.kind a.BlockedAt slot rest)
      (fun _ s' =>
        Confined t a site (fun m => m = id ∨ ∃ c ∈ rest, a.Below Node.links c m) s s' ∧
        ∃ vs' n'', s'.arena.get? id = some n'' ∧ n''.shape = n'.shape ∧
          n''.children = vs ++ vs' ∧ HeldAll a s'.arena ps rest vs')
      ((Target.bindSubs (t.reduce fuel) rule ps id slot).run s)
  | [], _, id, n, n', slot, done, vs, [], s, _, _, _, _, _, hn', hchildren, _, _ => by
      rw [Target.bindSubs]
      refine .ok (fun _ _ => not_false) ⟨.refl s, [], n', hn', rfl, hchildren, trivial⟩
  | p :: ps, havoids, id, n, n', slot, done, vs, c :: rest, s, hid, hn, hdone, ⟨hfirst, hrest⟩,
      hintact, hn', hchildren, hslot, hslot' => by
      rw [Pattern.avoidsAll, Bool.and_eq_true] at havoids
      have hid' := hsited.of_below hid.toLinks
      have hlinks : ∀ (i : Nat) (c' : NodeId), (c :: rest)[i]? = some c' →
          n.links[slot + i]? = some c' := by
        intro i c' hc'
        refine Node.links_of_children ?_
        rw [hdone, ← hslot, List.getElem?_append_right (by omega), Nat.add_sub_cancel_left]
        exact hc'
      have hc : n.children[slot]? = some c := by simp [hdone, ← hslot]
      -- no later child has anything to do with the first one, but for leaves
      have hapart : ∀ m, Owns a c m → (m = id ∨ ∃ c' ∈ rest, a.Below Node.links c' m) →
          a.Leaf m := by
        rintro m howned (heq | ⟨c', hc', hm⟩)
        · exact absurd heq (howned.ne_parent hid' hn (hlinks 0 c rfl))
        · rcases List.mem_iff_getElem?.1 hc' with ⟨i, hi⟩
          have hlink := hlinks (i + 1) c' hi
          exact howned.leaf hid' hn (hlinks 0 c rfl) hlink (by omega) hm
      rw [Target.bindSubs]
      have hsub := bindSub_ends hsited hreduces rule p havoids.1 hid hn hc hfirst
        (hintact c List.mem_cons_self) hn' hchildren hslot'
      refine (hsub.under n.kind slot).bind ?_ fun _ _ _ _ => Ways.under_precedes_among
      rintro _ s₁ ⟨hconfined, v, n₁, hn₁, hshape₁, hchildren₁, hheld⟩
      -- nor has what was done for the first child anything to do with the later ones
      have hintact₁ : ∀ c' ∈ rest, Intact t a site table c' s₁ := by
        intro c' hc'
        rcases List.mem_iff_getElem?.1 hc' with ⟨i, hi⟩
        have hlink := hlinks (i + 1) c' hi
        refine (hintact c' (List.mem_cons_of_mem c hc')).confined
          (hid'.of_below (.child hn hlink)) hconfined ?_
        rintro m hm (heq | hm')
        · exact absurd heq (hid'.ne_of_below_child hn hlink hm)
        · exact hid'.leaf_of_slots hn hlink (hlinks 0 c rfl) (by omega) hm hm'
      have hdone₁ : n.children = (done ++ [c]) ++ rest := by
        rw [hdone, List.append_assoc, List.singleton_append]
      have hvs₁ : n₁.children = (vs ++ [v]) ++ rest := by
        rw [hchildren₁, List.append_assoc, List.singleton_append]
      refine (bindSubs_ends hsited hreduces rule ps havoids.2 hid hn hdone₁ hrest hintact₁ hn₁ hvs₁
        (by simp [hslot]) (by simp [hslot'])).mono ?_
      rintro _ s₂ ⟨hconfined', vs', n₂, hn₂, hshape₂, hchildren₂, hheld'⟩
      refine ⟨?_, v :: vs', n₂, hn₂, hshape₂.trans hshape₁, by simp [hchildren₂], ?_, hheld'⟩
      · refine (hconfined.mono ?_).trans (hconfined'.mono ?_)
        · rintro m (heq | hm)
          · exact .inl heq
          · exact .inr ⟨c, List.mem_cons_self, hm⟩
        · rintro m (heq | ⟨c', hc', hm⟩)
          · exact .inl heq
          · exact .inr ⟨c', List.mem_cons_of_mem c hc', hm⟩
      · exact Held.kept p (fun m hm howned => hconfined'.nodes m hm (hapart m howned)) hheld

end

end X64
end Codegen
