import Codegen.Proofs.Preservation
import Codegen.Proofs.Session
import Codegen.Proofs.Translation

/-!
# Capture — which registers selected code overwrites

Registers are issued by a counter that knows nothing of the registers in the arena.  So the code of
trees overwrites the registers from where the counter began to where it ends, all of them and no
others, and a register that a node names is lost if and only if it is among them.

* `X64.Overwrites`                  : code overwrites what the counter has passed
* `X64.selectRoots_overwrites`      : any number of selections
* `Target.selectRoots_captures_iff` : when registers of the arena are overwritten
* `Target.selectRoots_captures`     : a sum whose value is lost
-/

namespace Codegen

namespace X64

variable {settings : Settings} {t : Target} {g : Arena} {s s' s'' : Selection} {root : NodeId}
  {roots : List NodeId} {goals : List Goal} {os : List Operand}

/-- Code has been appended that overwrites the registers that were issued meanwhile. -/
structure Overwrites (s s' : Selection) : Prop where
  le : s.nextReg ≤ s'.nextReg
  code : ∃ code, s'.stream.toList = s.stream.toList ++ code ∧
    ∀ v, v ∈ written code ↔ s.nextReg ≤ v ∧ v < s'.nextReg

theorem Overwrites.refl (s : Selection) : Overwrites s s where
  le := Nat.le_refl _
  code := by
    refine ⟨[], (List.append_nil _).symm, fun v => ?_⟩
    simp only [written, List.filterMap_nil, List.not_mem_nil, false_iff]
    omega

theorem Overwrites.trans (h : Overwrites s s') (h' : Overwrites s' s'') : Overwrites s s'' where
  le := h.le.trans h'.le
  code := by
    rcases h.code with ⟨code, hstream, hwritten⟩
    rcases h'.code with ⟨code', hstream', hwritten'⟩
    refine ⟨code ++ code', ?_, fun v => ?_⟩
    · rw [hstream', hstream, List.append_assoc]
    · have hle := h.le
      have hle' := h'.le
      rw [written, List.filterMap_append, List.mem_append, hwritten, hwritten']
      omega

theorem Wrote.overwrites (h : Wrote g goals os s s') : Overwrites s s' := by
  rcases h.code with ⟨code, hstream, hcode⟩
  exact ⟨hcode.le, code, hstream, fun v => hcode.mem_written_iff⟩

/-- Selecting trees one after the other, up to the first that is refused. -/
theorem selectRoots_overwrites (ht : Target.x64 settings = .ok t)
    (htree : ∀ root ∈ roots, s.arena.IsTree Node.links root) :
    Overwrites s ((roots.forM fun root => discard (t.selectRoot root)).final s) := by
  induction roots generalizing s with
  | nil => exact .refl s
  | cons root roots ih =>
      have hwrites := selectRoot_writes ht (htree root List.mem_cons_self)
      rw [List.forM, discard, LawfulFunctor.map_const, Function.comp_apply, bind_map_left]
      cases hrun : (t.selectRoot root).run s with
      | ok v s₁ =>
          rw [hrun] at hwrites
          rcases hwrites.value with ⟨o, hwrote, -⟩
          rcases hwrites.grafted with ⟨owner, hgrafted, -⟩
          rw [SelectM.final_bind_of_ok hrun]
          -- with operands in them the other trees are trees still
          refine hwrote.overwrites.trans (ih fun root' hroot' => ?_)
          exact hgrafted.isTree (htree root' (List.mem_cons_of_mem _ hroot'))
      | error e s₁ =>
          -- the refusal ends the run, but what was emitted before stays
          rw [hrun] at hwrites
          rcases hwrites with ⟨goals, os, hwrote, -⟩
          rw [SelectM.final_bind_of_error hrun]
          exact hwrote.overwrites

end X64

namespace Target

open Machine X64

/-- However the selection of trees one after the other ends, the code that it has appended
overwrites the registers that it has issued, all of them and no others.  So no register that a node
of the arena as it was names is overwritten, if and only if none of them has been issued: each is
below where the counter began, or not below where it ended. -/
theorem selectRoots_captures_iff {settings : Settings} {t : Target}
    (ht : Target.x64 settings = .ok t) {s s' : Selection} {roots : List NodeId}
    (htree : ∀ root ∈ roots, s.arena.IsTree Node.links root)
    (hs' : (roots.forM fun root => discard (t.selectRoot root)).final s = s') :
    ∃ code, s'.stream.toList = s.stream.toList ++ code ∧
      (∀ v, v ∈ written code ↔ s.nextReg ≤ v ∧ v < s'.nextReg) ∧
      ((∀ m n reg, s.arena.get? m = some n → n.reg? = some reg → reg.index ∉ written code) ↔
        ∀ m n reg, s.arena.get? m = some n → n.reg? = some reg →
          reg.index < s.nextReg ∨ s'.nextReg ≤ reg.index) := by
  subst hs'
  rcases (selectRoots_overwrites ht htree).code with ⟨code, hstream, hwritten⟩
  refine ⟨code, hstream, hwritten, ?_⟩
  simp only [hwritten, not_and_or, Nat.not_le, Nat.not_lt]

/-- The sum of the frame pointer and a register, with its root at 2. -/
def pointerSum (index : Nat) : Arena :=
  ⟨#[.vreg ⟨index, none⟩, .framePointer, .binary .add 1 0]⟩

/-- Three registers are issued for the sum and for the pointer by itself, so the eighth is safe. -/
theorem selectRoots_captures_iff_pointerSum :
    (∀ root ∈ [2, 1], (pointerSum 7).IsTree Node.links root) ∧
      ∃ t s', Target.x64 {} = .ok t ∧
        ([2, 1].forM fun root => discard (t.selectRoot root)).final { arena := pointerSum 7 } = s' ∧
        ∀ v, v ∈ written s'.stream.toList ↔ v < 3 := by
  have htree : ∀ root ∈ [2, 1], (pointerSum 7).IsTree Node.links root := by decide
  have hissued : ∃ t, Target.x64 {} = .ok t ∧
      (([2, 1].forM fun root => discard (t.selectRoot root)).final
        { arena := pointerSum 7 }).nextReg = 3 :=
    ⟨_, rfl, by decide +kernel⟩
  rcases hissued with ⟨t, ht, hissued⟩
  rcases @selectRoots_captures_iff {} t ht { arena := pointerSum 7 } _ [2, 1] htree rfl with
    ⟨code, hstream, hwritten, -⟩
  rw [hissued] at hwritten
  refine ⟨htree, t, _, ht, rfl, fun v => ?_⟩
  rw [hstream]
  exact (hwritten v).trans (and_iff_right (Nat.zero_le v))

/-- The first register issued is the one that is added, so twice the frame pointer comes out. -/
theorem selectRoots_captures :
    (pointerSum 0).IsTree Node.links 2 ∧
      Evaluates id ⟨1000, fun _ => 5⟩ (pointerSum 0) (.binary .add 1 0) (fun p => p) 1005
        (fun p => p) ∧
      ∃ t s', Target.x64 {} = .ok t ∧
        ([2].forM fun root => discard (t.selectRoot root)).final { arena := pointerSum 0 } = s' ∧
        0 ∈ written s'.stream.toList ∧
        (exec (interpretation id) byIndex s'.stream.toList identityState).map (·.file 1) =
          some 2000 := by
  refine ⟨by decide, .binary rfl .framePointer rfl .vreg rfl, ?_⟩
  have hstream : ∃ t, Target.x64 {} = .ok t ∧
      (([2].forM fun root => discard (t.selectRoot root)).final
        { arena := pointerSum 0 }).stream.toList =
        [.move (.vreg (temporary 0)) (.fixed .rbp),
          .move (.vreg (temporary 1)) (.vreg (temporary 0)),
          .binary .add (.vreg (temporary 1)) (.vreg (temporary 0))] :=
    ⟨_, rfl, by decide +kernel⟩
  rcases hstream with ⟨t, ht, hstream⟩
  refine ⟨t, _, ht, rfl, ?_, ?_⟩
  · rw [hstream]
    decide
  · rw [hstream]
    rfl

end Target
end Codegen
