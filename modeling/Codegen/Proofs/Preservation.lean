import Codegen.Proofs.Reducing

/-!
# Preservation — selected instructions compute what the tree means

Labeling records a rule for every node of a tree that is needed, and reducing the root by the
recorded rules ends within the nesting that is allowed.  Running the instructions that were appended
leaves the value of the tree in the register that the root is reduced to, and the memory that
evaluating the tree leaves.

* `X64.handles`             : all recorded reductions succeed
* `Target.exec_selectRoot`  : selection preserves meaning
-/

namespace Codegen
namespace X64

variable {t : Target} {a : Arena} {k₀ fuel : Nat} {table : LabelTable} {id root : NodeId}
  {x : Nonterminal}

/-- Every recorded nonterminal can be reached.  A node that is reduced by a chain rule comes up a
second time, but then not for a register, so the nesting is at most that of the tree and one more
for each node. -/
theorem handles (hgrammar : t.grammar = grammar) (h : a.Selectable k₀ root)
    (hchosen : Chosen a table root) (hid : a.Below Node.children root id)
    (hx : table.Records id x)
    (hfuel : ∀ v m, a.Path Node.children id v m → v.length + (if x = .reg then 1 else 0) < fuel) :
    Handles t a k₀ table fuel id x := by
  induction fuel generalizing id x with
  | zero => exact absurd (hfuel [] id (.root id)) (Nat.not_lt_zero _)
  | succ fuel ih =>
      intro s hready
      rcases Option.isSome_iff_exists.1 hx with ⟨choice, hbest⟩
      rcases hchosen id hid x choice hbest with ⟨r, base, hr, rfl, hbase, hmatches⟩
      have happlies : Applies t a k₀ table fuel id r.result r s := by
        refine ⟨hready, h.tree.of_below hid, fun n reg => h.regs id n reg hid,
          ⟨choice, hbest, by rw [hgrammar]; exact hr⟩, ?_, ?_⟩
        · -- the node once more, for what a chain rule starts from
          intro hreg y hy hrecords
          refine ih hid hrecords fun v m hv => ?_
          have hlen := hfuel v m hv
          rw [if_pos hreg] at hlen
          rw [if_neg hy]
          omega
        · intro m hm hne y hrecords
          refine ih (hid.trans hm) hrecords fun v p hv => ?_
          rcases hm with ⟨w, hw⟩
          have hlen := hfuel (w ++ v) p (hw.append hv)
          have hlong := hw.two_le_length hne
          rw [List.length_append] at hlen
          split <;> omega
      exact happlies.rule (List.mem_of_getElem? hr) (h.calls id · hid) hbase hmatches

end X64

/-! ## Selection -/

namespace Target

open Machine X64

variable {t : Target} {root : NodeId} {s : Selection}

theorem get?_of_operand? {a : Arena} {id : NodeId} {reg : VirtualReg}
    (h : a.operand? id = some (.vreg reg)) : a.get? id = some (.vreg reg) := by
  rcases Option.bind_eq_some_iff.1 h with ⟨n, hn, ho⟩
  rw [hn]
  cases n <;> cases ho
  rfl

/-- The nesting allowed exceeds the length of every way through an arena without cycles. -/
theorem lt_nesting (t : Target) {links : Node → List NodeId} {a : Arena}
    (hdag : a.IsDag links root) {v : List Symbol} {m : NodeId} (hv : a.Path links root v m) :
    v.length + 1 < t.nesting a := by
  have hlen := hdag.length_lt hv
  have hsize := t.lt_nesting_size a
  omega

/-- Selecting a tree without calls succeeds and reduces it to a register.  Wherever the tree has a
value, running exactly the instructions that were appended ends with that value in the register and
with the memory that evaluating the tree leaves; the registers issued before keep their contents,
and so do the fixed registers other than `rax`, `rcx` and `rdx`. -/
theorem exec_selectRoot {settings : Settings} {t : Target} (ht : Target.x64 settings = .ok t)
    {s : Selection} {root : NodeId} (h : s.arena.Selectable s.nextReg root) :
    ∃ value s' reg code, (t.selectRoot root).run s = .ok value s' ∧
      s'.arena.get? value = some (.vreg reg) ∧
      s'.stream.toList = s.stream.toList ++ code ∧
      ∀ (extend : Word → Word) (σ : X64.State) n v m', s.arena.get? root = some n →
        Evaluates extend ⟨σ.world.fixed .rbp, σ.file⟩ s.arena n σ.world.memory v m' →
          ∃ σ', exec (interpretation extend) byIndex code σ = some σ' ∧
            σ'.file reg.index = v ∧ σ'.world.memory = m' ∧
            (∀ i < s.nextReg, σ'.file i = σ.file i) ∧
            ∀ r, r ≠ .rax → r ≠ .rcx → r ≠ .rdx → σ'.world.fixed r = σ.world.fixed r := by
  have hgrammar : t.grammar = X64.grammar := (built_of_build ht).1
  rcases exists_chosen ht h s.trace with ⟨l, hlabel, hchosen, hrecords⟩
  have hready : Ready s.arena s.nextReg l.table root
      { s with table := l.table, trace := l.trace } :=
    ⟨rfl, fun _ _ => rfl, Nat.le_refl _, Nat.le_refl _⟩
  have hhandles : Handles t s.arena s.nextReg l.table (t.nesting s.arena) root .reg :=
    handles hgrammar h hchosen (.refl root) hrecords fun v m hv =>
      lt_nesting t h.tree.isDag hv
  rcases hhandles _ hready with ⟨value, s', code, o, hrun, hext, hdelivers⟩
  rcases Applies.exists_vreg hdelivers.fits with ⟨reg, rfl⟩
  have hstart : t.grammar.start = .reg := by
    rw [hgrammar]
    rfl
  rw [← hstart] at hrun
  refine ⟨value, _, reg, code, run_selectRoot hlabel hrun, ?_, hext.stream, ?_⟩
  · exact get?_of_operand? hdelivers.operand
  · intro extend σ n v m' hn hv
    rcases hdelivers.computes extend _ σ n v m' ⟨rfl, fun _ _ => rfl⟩ hn hv with
      ⟨σ', hexec, hmemory, hkept, hheld⟩
    exact ⟨σ', hexec, Option.some.inj hheld, hmemory, hkept.file, hkept.fixed⟩

/-- The assignment `x = *(r0 + 16) - -7 / 2`, with its root at 9. -/
def storedDifference : Arena :=
  ⟨#[.vreg ⟨0, none⟩, .literal 16, .binary .add 0 1, .deref 2, .literal (-7), .literal 2,
    .binary .div 4 5, .binary .sub 3 6, .var ⟨"x", -8⟩, .assign 8 7]⟩

theorem selectable_storedDifference : storedDifference.Selectable 1 9 where
  tree := by decide
  calls m n _ hn := by
    have hall : ∀ n ∈ storedDifference.nodes, n.kind ≠ .call := by decide
    exact hall n (Array.mem_of_getElem? hn)
  targets m target value n _ hm hn := by
    have hall : ∀ n ∈ storedDifference.nodes, n.kind = .assign → n.children = [8, 7] := by decide
    cases hall _ (Array.mem_of_getElem? hm) rfl
    cases hn
    exact .inl rfl
  regs m n reg _ hn hreg := by
    have hall : ∀ n ∈ storedDifference.nodes, ∀ reg ∈ n.reg?, reg.index < 1 := by decide
    exact hall n (Array.mem_of_getElem? hn) reg hreg

/-- Every register holds 5, every cell its address, and the frame is at 1000. -/
def identityState : X64.State where
  file := fun _ => 5
  world := { memory := fun p => p, fixed := fun _ => 1000, flags := none, effects := () }

theorem exec_selectRoot_storedDifference :
    storedDifference.Selectable 1 9 ∧
      ∃ t value s' reg σ', Target.x64 {} = .ok t ∧
        (t.selectRoot 9).run { arena := storedDifference, nextReg := 1 } = .ok value s' ∧
        s'.arena.get? value = some (.vreg reg) ∧
        exec (interpretation id) byIndex s'.stream.toList identityState = some σ' ∧
        σ'.file reg.index = 24 ∧ σ'.world.memory 992 = 24 := by
  refine ⟨selectable_storedDifference, ?_⟩
  rcases @exec_selectRoot {} _ rfl { arena := storedDifference, nextReg := 1 } 9
      selectable_storedDifference with
    ⟨value, s', reg, code, hrun, hvalue, hstream, hexec⟩
  have heval : Evaluates id ⟨1000, fun _ => 5⟩ storedDifference (.assign 8 7) (fun p => p) 24
      (Function.update (fun p => p) 992 24) :=
    .assign rfl .var rfl (.binary rfl (.load (.deref rfl (.binary rfl .vreg rfl .literal rfl))) rfl
      (.binary rfl .literal rfl .literal rfl) rfl)
  rcases hexec id identityState _ _ _ rfl heval with ⟨σ', hσ', hfile, hmemory, -, -⟩
  refine ⟨_, value, s', reg, σ', rfl, hrun, hvalue, ?_, hfile, ?_⟩
  · rw [hstream]
    exact hσ'
  · rw [hmemory]
    rfl

end Target
end Codegen
