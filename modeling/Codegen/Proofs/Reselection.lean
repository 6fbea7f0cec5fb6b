import Codegen.Proofs.Sharing
import Codegen.Proofs.Translation

/-!
# Reselection — selecting in an arena again

A selection leaves the arena with operands in place of children, and the next one has to do with
what it finds.  That is enough: what could be selected before can be selected afterwards, whether it
contains nodes that were selected, is contained in them, or is one of them.

* `Arena.Sustains`                : what can be selected in an arena can be selected in another
* `X64.selectRoot_sustains`       : one selection
* `X64.selectRoots_sustains`      : any number of selections
* `Target.selectRoot_repeatedly`  : any nodes of a tree, in any order
-/

namespace Codegen

/-- Trees in `a` are trees in `b`, those without misplaced assignments still have none, and operands
are what they were. -/
structure Arena.Sustains (a b : Arena) : Prop where
  keeps : a.Keeps b
  tree : ∀ m, a.IsTree Node.links m → b.IsTree Node.links m
  clear : ∀ m, a.IsTree Node.links m → a.Clear m → b.Clear m

theorem Arena.Sustains.refl (a : Arena) : a.Sustains a :=
  ⟨.refl a, fun _ htree => htree, fun _ _ hclear => hclear⟩

theorem Arena.Sustains.trans {a b c : Arena} (h : a.Sustains b) (h' : b.Sustains c) :
    a.Sustains c where
  keeps := h.keeps.trans h'.keeps
  tree m htree := h'.tree m (h.tree m htree)
  clear m htree hclear := h'.clear m (h.tree m htree) (h.clear m htree hclear)

namespace X64

variable {settings : Settings} {t : Target} {s s' : Selection} {root v : NodeId} {ids : List NodeId}

theorem Translated.sustains {x : Nonterminal} (h : Translated s.arena root x s v s') :
    s.arena.Sustains s'.arena := by
  rcases h.value with ⟨o, hwrote, -⟩
  rcases h.grafted with ⟨owner, hgrafted, -⟩
  exact ⟨hwrote.keeps, fun m htree => hgrafted.isTree htree,
    fun m htree hclear => hgrafted.clear htree hclear⟩

/-- One selection succeeds with a register, and takes nothing away from later ones. -/
theorem selectRoot_sustains (ht : Target.x64 settings = .ok t)
    (htree : s.arena.IsTree Node.links root) (hclear : s.arena.Clear root) :
    ∃ v s' reg, (t.selectRoot root).run s = .ok v s' ∧ s'.arena.operand? v = some (.vreg reg) ∧
      s.arena.Sustains s'.arena := by
  rcases selectRoot_of_clear ht htree.nearTree hclear with ⟨v, s', hrun⟩
  have htranslated := selectRoot_writes ht htree
  rw [hrun] at htranslated
  rcases htranslated.value with ⟨o, hwrote, ho⟩
  rcases hwrote.code with ⟨code, -, hcode⟩
  rcases (List.forall₂_cons.1 hcode.shapes).1.exists_vreg with ⟨reg, rfl⟩
  exact ⟨v, s', reg, hrun, ho, htranslated.sustains⟩

/-- Selections one after the other: each of them leaves the trees of those that follow. -/
theorem selectRoots_sustains (ht : Target.x64 settings = .ok t)
    (htree : ∀ id ∈ ids, s.arena.IsTree Node.links id) (hclear : ∀ id ∈ ids, s.arena.Clear id) :
    ∃ values s', (ids.mapM t.selectRoot).run s = .ok values s' ∧ values.length = ids.length ∧
      (∀ v ∈ values, ∃ reg, s'.arena.operand? v = some (.vreg reg)) ∧
      s.arena.Sustains s'.arena := by
  induction ids generalizing s with
  | nil => exact ⟨[], s, rfl, rfl, nofun, .refl _⟩
  | cons id ids ih =>
      have hid := List.mem_cons_self (a := id) (l := ids)
      have hothers : ∀ m ∈ ids, m ∈ id :: ids := fun m => List.mem_cons_of_mem id
      rcases selectRoot_sustains ht (htree id hid) (hclear id hid) with
        ⟨v, s₁, reg, hrun, hreg, hsustains⟩
      have htree₁ : ∀ m ∈ ids, s₁.arena.IsTree Node.links m :=
        fun m hm => hsustains.tree m (htree m (hothers m hm))
      have hclear₁ : ∀ m ∈ ids, s₁.arena.Clear m :=
        fun m hm => hsustains.clear m (htree m (hothers m hm)) (hclear m (hothers m hm))
      rcases ih htree₁ hclear₁ with ⟨values, s₂, hruns, hlength, hregs, hsustains'⟩
      refine ⟨v :: values, s₂, ?_, ?_, ?_, hsustains.trans hsustains'⟩
      · rw [List.mapM_cons, run_bind_of_ok hrun, run_bind_of_ok hruns]
        rfl
      · rw [List.length_cons, List.length_cons, hlength]
      · intro u hu
        rcases List.mem_cons.1 hu with rfl | hu
        · exact ⟨reg, hsustains'.keeps u _ hreg⟩
        · exact hregs u hu

end X64

namespace Target

/-- In a tree whose assignments are all to places, call arguments included, any nodes can be
selected one after the other, the root among them, in any order and as often as one likes: every
selection succeeds, and its result is the node of a register and remains that.  The tree, with
operands in it now, is still a tree whose assignments are to places. -/
theorem selectRoot_repeatedly {settings : Settings} {t : Target} (ht : Target.x64 settings = .ok t)
    {s : Selection} {root : NodeId} (htree : s.arena.IsTree Node.links root)
    (hplaced : ∀ m, s.arena.Below Node.links root m → ¬ s.arena.Misplaced m)
    {ids : List NodeId} (hids : ∀ id ∈ ids, s.arena.Below Node.links root id) :
    ∃ values s', (ids.mapM t.selectRoot).run s = .ok values s' ∧ values.length = ids.length ∧
      (∀ v ∈ values, ∃ reg, s'.arena.get? v = some (.vreg reg)) ∧
      s'.arena.IsTree Node.links root ∧
      ∀ m, s'.arena.Below Node.links root m → ¬ s'.arena.Misplaced m := by
  have hclear : s.arena.Clear root := hplaced
  rcases X64.selectRoots_sustains ht (fun id hid => htree.of_below (hids id hid))
      (fun id hid => hclear.of_below (hids id hid)) with
    ⟨values, s', hrun, hlength, hregs, hsustains⟩
  refine ⟨values, s', hrun, hlength, ?_, hsustains.tree root htree,
    hsustains.clear root htree hclear⟩
  intro v hv
  rcases hregs v hv with ⟨reg, hreg⟩
  exact ⟨reg, get?_of_operand? hreg⟩

/-- The assignment `x = f(-y, 3)`, with its root at 5. -/
def storedCall : Arena :=
  ⟨#[.var ⟨"x", -8⟩, .var ⟨"y", -16⟩, .unary .neg 1, .literal 3, .call "f" [2, 3], .assign 0 4]⟩

theorem selectRoot_repeatedly_storedCall :
    storedCall.IsTree Node.links 5 ∧
      (∀ m, storedCall.Below Node.links 5 m → ¬ storedCall.Misplaced m) ∧
      (∀ id ∈ [4, 5, 2, 5], storedCall.Below Node.links 5 id) ∧
      ∃ t values s', Target.x64 {} = .ok t ∧
        ([4, 5, 2, 5].mapM t.selectRoot).run { arena := storedCall } = .ok values s' ∧
        values.length = 4 ∧ ∀ v ∈ values, ∃ reg, s'.arena.get? v = some (.vreg reg) := by
  have htree : storedCall.IsTree Node.links 5 := by decide
  have hplaced : ∀ m, storedCall.Below Node.links 5 m → ¬ storedCall.Misplaced m := by
    rintro m - ⟨target, value, n, hm, hn, hplace⟩
    have hall : ∀ n ∈ storedCall.nodes, n.kind = .assign → n.children = [0, 4] := by decide
    cases hall _ (Array.mem_of_getElem? hm) rfl
    cases hn
    exact hplace (.inl rfl)
  have hcall : storedCall.Below Node.links 5 4 :=
    .of_mem (n := .assign 0 4) rfl (by decide)
  have hnegation : storedCall.Below Node.links 5 2 :=
    hcall.trans (.of_mem (n := .call "f" [2, 3]) rfl (by decide))
  have hids : ∀ id ∈ [4, 5, 2, 5], storedCall.Below Node.links 5 id := by
    intro id hid
    simp only [List.mem_cons, List.not_mem_nil, or_false] at hid
    rcases hid with rfl | rfl | rfl | rfl
    · exact hcall
    · exact .refl 5
    · exact hnegation
    · exact .refl 5
  rcases @selectRoot_repeatedly {} _ rfl { arena := storedCall } 5 htree hplaced _ hids with
    ⟨values, s', hrun, hlength, hregs, -⟩
  exact ⟨htree, hplaced, hids, _, values, s', rfl, hrun, hlength, hregs⟩

end Target
end Codegen
