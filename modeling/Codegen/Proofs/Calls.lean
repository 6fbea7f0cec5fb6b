import Codegen.Proofs.Sharing
import Codegen.Proofs.Translation
import Mathlib.Algebra.Ring.Int.Defs

/-!
# Calls — the order and the sequences of calls

However calls are nested, the code of a tree has one call instruction for each of them, an inner
call before the one that it is an argument of and the others from left to right.  The arguments of a
call have been computed when its own sequence begins, and this is not interrupted: it passes the
arguments, calls, clears the stack and fetches the result.  So nothing is on the stack outside of
sequences, and in each of them only what it has pushed itself.

* `Arena.CallsBelow`         : the calls in a tree, in order
* `depth`                    : how much is on the stack
* `X64.Passing`              : the sequence of a call
* `X64.Calling`              : where the sequence of a call stands in code
* `X64.Code.calls`           : the calls in the code of goals
* `Target.selectRoot_calls`  : the calls in the code of a tree
-/

namespace Codegen

/-! ## The order of calls -/

/-- A way before those it continues, and otherwise from left to right. -/
def Sooner : List Nat → List Nat → Prop
  | [], _ => False
  | _ :: _, [] => True
  | i :: v, j :: w => i < j ∨ i = j ∧ Sooner v w

theorem not_sooner_self : ∀ v : List Nat, ¬ Sooner v v
  | [] => not_false
  | i :: v => by
      rintro (hlt | ⟨-, hsooner⟩)
      · exact Nat.lt_irrefl i hlt
      · exact not_sooner_self v hsooner

theorem not_sooner_of_sooner : ∀ {v w : List Nat}, Sooner v w → ¬ Sooner w v
  | [], _, h => h.elim
  | _ :: _, [], _ => not_false
  | i :: v, j :: w, h => by
      rintro (hlt | ⟨rfl, hsooner⟩)
      · rcases h with h | ⟨h, -⟩ <;> omega
      · rcases h with h | ⟨-, h⟩
        · exact Nat.lt_irrefl j h
        · exact not_sooner_of_sooner h hsooner

namespace Arena

variable {a : Arena} {id m : NodeId} {n : Node} {cs : List NodeId} {kind : NodeKind} {slot : Nat}
  {w : List Symbol} {css : List (List (List Symbol × NodeId))}

/-- The calls in the tree of a node with the ways that lead to them, each of them before the one
that it is an argument of, and otherwise from left to right. -/
structure CallsBelow (a : Arena) (id : NodeId) (calls : List (List Symbol × NodeId)) : Prop where
  mem_iff : ∀ w m, (w, m) ∈ calls ↔
    a.Path Node.links id w m ∧ ∃ callee args, a.get? m = some (.call callee args)
  order : calls.Pairwise fun c c' => Sooner (slots c.1) (slots c'.1)

/-- In a tree every call is listed once. -/
theorem CallsBelow.nodup {calls : List (List Symbol × NodeId)} (h : a.CallsBelow id calls)
    (htree : a.IsTree Node.links id) : (calls.map (·.2)).Nodup := by
  rw [List.Nodup, List.pairwise_map]
  refine h.order.imp_of_mem ?_
  rintro ⟨w, m⟩ ⟨w', m'⟩ hmem hmem' hsooner rfl
  have hw := ((h.mem_iff w m).1 hmem).1
  have hw' := ((h.mem_iff w' m).1 hmem').1
  rw [htree.unique w w' m hw hw'] at hsooner
  exact not_sooner_self _ hsooner

/-- The calls in a tree have one order. -/
theorem CallsBelow.unique {calls calls' : List (List Symbol × NodeId)} (h : a.CallsBelow id calls)
    (h' : a.CallsBelow id calls') : calls = calls' := by
  have hnodup : ∀ {cs : List (List Symbol × NodeId)},
      cs.Pairwise (fun c c' => Sooner (slots c.1) (slots c'.1)) → cs.Nodup := by
    intro cs hcs
    refine hcs.imp ?_
    rintro c _ hsooner rfl
    exact not_sooner_self _ hsooner
  have hperm : calls.Perm calls' := by
    rw [List.perm_ext_iff_of_nodup (hnodup h.order) (hnodup h'.order)]
    rintro ⟨w, m⟩
    rw [h.mem_iff, h'.mem_iff]
  refine hperm.eq_of_pairwise ?_ h.order h'.order
  intro c c' _ _ hsooner hsooner'
  exact absurd hsooner' (not_sooner_of_sooner hsooner)

/-- The calls below nodes that a node of some kind leads to from a slot on, as seen from that
node. -/
def raised (kind : NodeKind) :
    Nat → List (List (List Symbol × NodeId)) → List (List Symbol × NodeId)
  | _, [] => []
  | slot, calls :: css =>
      calls.map (fun c => (.kind kind :: .child slot :: c.1, c.2)) ++ raised kind (slot + 1) css

theorem map_snd_raised : (raised kind slot css).map (·.2) = css.flatten.map (·.2) := by
  induction css generalizing slot with
  | nil => rfl
  | cons calls css ih =>
      rw [raised, List.flatten_cons, List.map_append, List.map_append, List.map_map, ih]
      rfl

theorem mem_raised_iff (h : List.Forall₂ a.CallsBelow cs css) :
    (w, m) ∈ raised kind slot css ↔ ∃ i c w', cs[i]? = some c ∧
      w = .kind kind :: .child (slot + i) :: w' ∧ a.Path Node.links c w' m ∧
      ∃ callee args, a.get? m = some (.call callee args) := by
  induction h generalizing slot with
  | nil =>
      constructor
      · exact nofun
      · rintro ⟨i, c, w', hc, -⟩
        cases hc
  | @cons c calls cs css hcalls hrest ih =>
      rw [raised, List.mem_append, ih, List.mem_map]
      constructor
      · rintro (⟨⟨w', m'⟩, hmem, heq⟩ | ⟨i, c', w', hc', rfl, hpath⟩)
        · cases heq
          exact ⟨0, c, w', rfl, rfl, (hcalls.mem_iff w' m').1 hmem⟩
        · refine ⟨i + 1, c', w', hc', ?_, hpath⟩
          rw [Nat.add_assoc, Nat.add_comm 1 i]
      · rintro ⟨i, c', w', hc', rfl, hpath⟩
        cases i with
        | zero =>
            cases hc'
            exact .inl ⟨(w', m), (hcalls.mem_iff w' m).2 hpath, rfl⟩
        | succ i =>
            refine .inr ⟨i, c', w', hc', ?_, hpath⟩
            rw [Nat.add_assoc, Nat.add_comm 1 i]

theorem pairwise_raised (h : List.Forall₂ a.CallsBelow cs css) :
    (raised kind slot css).Pairwise fun c c' => Sooner (slots c.1) (slots c'.1) := by
  induction h generalizing slot with
  | nil => exact .nil
  | @cons c calls cs css hcalls hrest ih =>
      rw [raised, List.pairwise_append]
      refine ⟨?_, ih, ?_⟩
      · rw [List.pairwise_map]
        exact hcalls.order.imp fun hsooner => .inr ⟨rfl, hsooner⟩
      · rintro c₁ hc₁ ⟨w, m⟩ hc₂
        rcases List.mem_map.1 hc₁ with ⟨c₀, -, rfl⟩
        rcases (mem_raised_iff hrest).1 hc₂ with ⟨i, c₂, w', -, rfl, -⟩
        -- what a later slot leads to comes later
        have hlt : slot < slot + 1 + i := by omega
        exact .inl hlt

/-- The calls below a node: those below what it leads to, from slot to slot, and then the node
itself if it is a call. -/
theorem callsBelow_node (hn : a.get? id = some n) (h : List.Forall₂ a.CallsBelow n.links css) :
    a.CallsBelow id (raised n.kind 0 css ++ if n.kind = .call then [([], id)] else []) where
  mem_iff w m := by
    rw [List.mem_append, mem_raised_iff h]
    constructor
    · rintro (⟨i, c, w', hc, rfl, hpath, hcall⟩ | hmem)
      · rw [Nat.zero_add]
        exact ⟨.step hn hc hpath, hcall⟩
      · split at hmem
        next hkind =>
          cases List.mem_singleton.1 hmem
          cases n with
          | call callee args => exact ⟨.root id, callee, args, hn⟩
          | _ => cases hkind
        next => cases hmem
    · rintro ⟨hpath, hcall⟩
      cases hpath with
      | root =>
          rcases hcall with ⟨callee, args, hcall⟩
          cases hn.symm.trans hcall
          exact .inr (List.mem_singleton.2 rfl)
      | @step _ c _ _ slot w' hn' hc hpath =>
          cases hn.symm.trans hn'
          refine .inl ⟨slot, c, w', hc, ?_, hpath, hcall⟩
          rw [Nat.zero_add]
  order := by
    rw [List.pairwise_append]
    refine ⟨pairwise_raised h, ?_, ?_⟩
    · split
      next => exact List.pairwise_singleton _ _
      next => exact .nil
    · rintro ⟨w, m⟩ hc c' hc'
      split at hc'
      next =>
        -- the node itself is above all others
        rcases (mem_raised_iff h).1 hc with ⟨i, c₂, w', -, rfl, -⟩
        cases List.mem_singleton.1 hc'
        exact trivial
      next => cases hc'

theorem exists_callsBelow (hn : a.get? id = some n) (hkind : n.kind ≠ .call)
    (h : List.Forall₂ a.CallsBelow n.links css) :
    ∃ calls, a.CallsBelow id calls ∧ calls.map (·.2) = css.flatten.map (·.2) := by
  refine ⟨_, callsBelow_node hn h, ?_⟩
  rw [if_neg hkind, List.append_nil, map_snd_raised]

end Arena

/-! ## The stack -/

def Instr.isCall (i : Instr) : Bool := i.opcode = .call

/-- What an instruction adds to the stack, in words: a push adds one, and moving the stack pointer
up takes away what it passes. -/
def Instr.shift (i : Instr) : Int :=
  match i.opcode, i.dst, i.src with
  | .push, _, _ => 1
  | .add, some (.fixed .rsp), some (.imm bytes) => -(bytes / 8)
  | _, _, _ => 0

/-- How much is on the stack after code, if nothing was before. -/
def depth (code : List Instr) : Int := (code.map Instr.shift).sum

@[simp] theorem depth_nil : depth [] = 0 := rfl

@[simp] theorem depth_cons (i : Instr) (code : List Instr) :
    depth (i :: code) = i.shift + depth code := by
  rw [depth, List.map_cons, List.sum_cons, depth]

@[simp] theorem depth_append (code code' : List Instr) :
    depth (code ++ code') = depth code + depth code' := by
  rw [depth, List.map_append, List.sum_append, depth, depth]

theorem depth_nonneg {code : List Instr} (h : ∀ i ∈ code, 0 ≤ i.shift) : 0 ≤ depth code := by
  induction code with
  | nil => exact Int.le_refl 0
  | cons i code ih =>
      rw [depth_cons]
      exact Int.add_nonneg (h i List.mem_cons_self) (ih fun j hj => h j (List.mem_cons_of_mem i hj))

theorem depth_nonpos {code : List Instr} (h : ∀ i ∈ code, i.shift ≤ 0) : depth code ≤ 0 := by
  induction code with
  | nil => exact Int.le_refl 0
  | cons i code ih =>
      rw [depth_cons]
      exact Int.add_nonpos (h i List.mem_cons_self) (ih fun j hj => h j (List.mem_cons_of_mem i hj))

/-- Where the stack first grows and then shrinks, it is never below what it is in the end. -/
theorem depth_take_nonneg {up down : List Instr} (hup : ∀ i ∈ up, 0 ≤ i.shift)
    (hdown : ∀ i ∈ down, i.shift ≤ 0) (htotal : 0 ≤ depth (up ++ down)) (j : Nat) :
    0 ≤ depth ((up ++ down).take j) := by
  rcases Nat.le_total j up.length with hj | hj
  · rw [List.take_append_of_le_length hj]
    exact depth_nonneg fun i hi => hup i (List.mem_of_mem_take hi)
  · -- what is still to come only takes away
    have hdrop : (up ++ down).drop j = down.drop (j - up.length) := by
      rw [List.drop_append, List.drop_of_length_le hj, List.nil_append]
    have hrest : depth ((up ++ down).drop j) ≤ 0 := by
      rw [hdrop]
      exact depth_nonpos fun i hi => hdown i (List.mem_of_mem_drop hi)
    have hsplit : depth (up ++ down) =
        depth ((up ++ down).take j) + depth ((up ++ down).drop j) := by
      rw [← depth_append, List.take_append_drop]
    omega

/-- An instruction that neither calls nor changes the stack. -/
def Instr.Plain (i : Instr) : Prop := i.isCall = false ∧ i.shift = 0

theorem depth_eq_zero {code : List Instr} (h : ∀ i ∈ code, i.Plain) : depth code = 0 := by
  induction code with
  | nil => rfl
  | cons i code ih =>
      rw [depth_cons, (h i List.mem_cons_self).2, ih fun j hj => h j (List.mem_cons_of_mem i hj)]
      rfl

namespace X64

variable {a : Arena} {id : NodeId} {k k₁ k' : Nat} {x : Nonterminal} {goals : List Goal}
  {os : List Operand} {own code code' : List Instr} {o : Operand} {callee : String}
  {args ids ids' : List NodeId} {dst : VirtualReg} {i : Nat}

/-! ## Sequences -/

/-- The sequence of a call with `n` values to pass: the values from the last one down to the seventh
are pushed, the first six are moved into their registers in order, the call is made, the stack is
cleared if anything was pushed, and the result is fetched. -/
structure Passing (callee : String) (values : List Operand) (dst : VirtualReg) (seq : List Instr) :
    Prop where
  push : ∀ (i : Nat) o, 6 ≤ i → values[i]? = some o →
    seq[values.length - 1 - i]? = some (.unary .push o)
  move : ∀ (i : Nat) o reg, values[i]? = some o →
    [MachineReg.rdi, .rsi, .rdx, .rcx, .r8, .r9][i]? = some reg →
    seq[values.length - 6 + i]? = some (.move (.fixed reg) o)
  call : seq[values.length]? = some (.unary .call (.symbol callee))
  clear : seq.drop (values.length + 1) =
    (if 6 < values.length then
      [.binary .add (.fixed .rsp) (.imm (8 * ((values.length - 6 : Nat) : Int)))] else []) ++
      [.move (.vreg dst) (.fixed .rax)]

/-- The part of the sequence before the call. -/
def passed (values : List Operand) : List Instr :=
  (values.drop 6).reverse.map (.unary .push) ++
    (values.zip MachineReg.arguments).map fun (value, reg) => .move (.fixed reg) value

/-- The part of the sequence after the call, if `n` values were passed. -/
def cleared (n : Nat) (dst : VirtualReg) : List Instr :=
  (if 6 < n then [.binary .add (.fixed .rsp) (.imm (8 * ((n - 6 : Nat) : Int)))] else []) ++
    [.move (.vreg dst) (.fixed .rax)]

theorem callSequence_eq : callSequence callee os dst =
    passed os ++ .unary .call (.symbol callee) :: cleared os.length dst := by
  have hstacked : os.length - MachineReg.arguments.length = 0 ↔ ¬ 6 < os.length := by
    have hsix : MachineReg.arguments.length = 6 := rfl
    omega
  rw [callSequence, passed, cleared]
  simp only [hstacked, ite_not, List.append_assoc]
  rfl

theorem length_passed (values : List Operand) : (passed values).length = values.length := by
  have hsix : MachineReg.arguments.length = 6 := rfl
  rw [passed, List.length_append, List.length_map, List.length_reverse, List.length_drop,
    List.length_map, List.length_zip, hsix]
  omega

theorem callSequence_passing : Passing callee os dst (callSequence callee os dst) where
  push i o hi ho := by
    have hlt := (List.getElem?_eq_some_iff.1 ho).1
    have hpushed : os.length - 1 - i < ((os.drop 6).reverse.map (Instr.unary .push)).length := by
      rw [List.length_map, List.length_reverse, List.length_drop]
      omega
    have hstacked : os.length - 1 - i < (os.drop 6).length := by
      rw [List.length_drop]
      omega
    have hindex : 6 + (os.length - 6 - 1 - (os.length - 1 - i)) = i := by omega
    rw [callSequence_eq, List.getElem?_append_left (by rw [length_passed]; omega), passed,
      List.getElem?_append_left hpushed, List.getElem?_map, List.getElem?_reverse hstacked,
      List.getElem?_drop, List.length_drop, hindex, ho]
    rfl
  move i o reg ho hreg := by
    have hlt := (List.getElem?_eq_some_iff.1 ho).1
    have hsix : i < 6 := (List.getElem?_eq_some_iff.1 hreg).1
    have hpushed : ((os.drop 6).reverse.map (Instr.unary .push)).length = os.length - 6 := by
      rw [List.length_map, List.length_reverse, List.length_drop]
    have hpair : (os.zip MachineReg.arguments)[i]? = some (o, reg) :=
      List.getElem?_zip_eq_some.2 ⟨ho, hreg⟩
    rw [callSequence_eq, List.getElem?_append_left (by rw [length_passed]; omega), passed,
      List.getElem?_append_right (by rw [hpushed]; omega), hpushed, Nat.add_sub_cancel_left,
      List.getElem?_map, hpair]
    rfl
  call := by
    rw [callSequence_eq, List.getElem?_append_right (by rw [length_passed]), length_passed,
      Nat.sub_self]
    rfl
  clear := by
    rw [callSequence_eq, ← length_passed os, List.drop_append, List.drop_of_length_le (by omega),
      Nat.add_sub_cancel_left, length_passed]
    rfl

theorem mem_passed {instr : Instr} (h : instr ∈ passed os) :
    (∃ o, instr = .unary .push o) ∨ ∃ reg o, instr = .move (.fixed reg) o := by
  rcases List.mem_append.1 h with h | h
  · rcases List.mem_map.1 h with ⟨o, -, rfl⟩
    exact .inl ⟨o, rfl⟩
  · rcases List.mem_map.1 h with ⟨⟨o, reg⟩, -, rfl⟩
    exact .inr ⟨reg, o, rfl⟩

theorem filter_isCall_callSequence :
    (callSequence callee os dst).filter Instr.isCall = [.unary .call (.symbol callee)] := by
  have hpassed : (passed os).filter Instr.isCall = [] := by
    rw [List.filter_eq_nil_iff]
    intro instr hinstr
    rcases mem_passed hinstr with ⟨o, rfl⟩ | ⟨reg, o, rfl⟩ <;> exact Bool.false_ne_true
  have hcleared : (cleared os.length dst).filter Instr.isCall = [] := by
    rw [cleared]
    split <;> rfl
  rw [callSequence_eq, List.filter_append, hpassed, List.filter_cons_of_pos rfl, hcleared]
  rfl

/-! ## The stack in a sequence -/

theorem depth_passed (values : List Operand) :
    depth (passed values) = ((values.length - 6 : Nat) : Int) := by
  have hpushed : ∀ os : List Operand,
      depth (os.map (Instr.unary .push)) = (os.length : Int) := by
    intro os
    induction os with
    | nil => rfl
    | cons o os ih =>
        have hshift : (Instr.unary .push o).shift = 1 := rfl
        rw [List.map_cons, depth_cons, ih, hshift, List.length_cons]
        omega
  have hmoved : depth ((values.zip MachineReg.arguments).map
      fun (value, reg) => Instr.move (.fixed reg) value) = 0 := by
    refine depth_eq_zero fun i hi => ?_
    rcases List.mem_map.1 hi with ⟨p, -, rfl⟩
    exact ⟨rfl, rfl⟩
  rw [passed, depth_append, hpushed, hmoved, List.length_reverse, List.length_drop, Int.add_zero]

theorem depth_cleared (n : Nat) : depth (cleared n dst) = -((n - 6 : Nat) : Int) := by
  have hmove : (Instr.move (.vreg dst) (.fixed .rax)).shift = 0 := rfl
  rw [cleared]
  split
  next =>
    have hadd : (Instr.binary .add (.fixed .rsp) (.imm (8 * ((n - 6 : Nat) : Int)))).shift =
        -(8 * ((n - 6 : Nat) : Int) / 8) := rfl
    simp only [depth_append, depth_cons, depth_nil, hadd, hmove]
    omega
  next =>
    simp only [depth_append, depth_cons, depth_nil, hmove]
    omega

theorem depth_callSequence (callee : String) (os : List Operand) (dst : VirtualReg) :
    depth (callSequence callee os dst) = 0 := by
  have hcall : (Instr.unary .call (.symbol callee)).shift = 0 := rfl
  rw [callSequence_eq, depth_append, depth_cons, depth_passed, depth_cleared, hcall]
  omega

/-- Where the call is made, everything is on the stack that was pushed for it. -/
theorem depth_take_callSequence : depth ((callSequence callee os dst).take os.length) =
    ((os.length - 6 : Nat) : Int) := by
  rw [callSequence_eq, List.take_append_of_le_length (by rw [length_passed]),
    List.take_of_length_le (by rw [length_passed]), depth_passed]

theorem depth_take_callSequence_nonneg (j : Nat) :
    0 ≤ depth ((callSequence callee os dst).take j) := by
  have hup : ∀ instr ∈ passed os, 0 ≤ instr.shift := by
    intro instr hinstr
    rcases mem_passed hinstr with ⟨o, rfl⟩ | ⟨reg, o, rfl⟩
    · exact Int.one_nonneg
    · exact Int.le_refl 0
  have hdown : ∀ instr ∈ .unary .call (.symbol callee) :: cleared os.length dst,
      instr.shift ≤ 0 := by
    have hbytes : 0 ≤ 8 * ((os.length - 6 : Nat) : Int) / 8 := by omega
    intro instr hinstr
    rcases List.mem_cons.1 hinstr with rfl | hinstr
    · exact Int.le_refl 0
    · rcases List.mem_append.1 hinstr with hinstr | hinstr
      · split at hinstr
        next =>
          cases List.mem_singleton.1 hinstr
          exact Int.neg_nonpos_of_nonneg hbytes
        next => cases hinstr
      · cases List.mem_singleton.1 hinstr
        exact Int.le_refl 0
  have htotal := depth_callSequence callee os dst
  rw [callSequence_eq] at htotal ⊢
  exact depth_take_nonneg hup hdown (Int.le_of_eq htotal.symm) j

/-! ## Calls in code -/

/-- The sequence of the call number `i` in code that was begun after `k` registers had been issued:
what computes the arguments comes right before the sequence, which passes the operands for their
values and fetches the result into a register issued for it.  Nothing is on the stack when the
arguments have been computed, and when the call is made only the arguments that were pushed. -/
def Calling (a : Arena) (k : Nat) (code : List Instr) (i : Nat) (callee : String)
    (args : List NodeId) : Prop :=
  ∃ before computed seq rest values k₀ k₁, code = before ++ computed ++ seq ++ rest ∧
    Code a (args.map fun arg => (arg, .reg)) k₀ computed values k₁ ∧
    values.length = args.length ∧ Passing callee values (temporary k₁) seq ∧
    (k ≤ k₁ ∧ ∀ v ∈ written (before ++ computed), v < k₁) ∧
    (before ++ computed).countP Instr.isCall = i ∧ depth (before ++ computed) = 0 ∧
    depth (before ++ computed ++ seq.take args.length) = ((args.length - 6 : Nat) : Int)

/-- The call instructions in code are those of the nodes `ids`, in order and each with its sequence,
and the stack is never below what it was at the beginning, and the same in the end. -/
structure CallCode (a : Arena) (k : Nat) (ids : List NodeId) (code : List Instr) : Prop where
  calls : List.Forall₂ (fun m instr => ∃ callee args, a.get? m = some (.call callee args) ∧
    instr = .unary .call (.symbol callee)) ids (code.filter Instr.isCall)
  calling : ∀ (i : Nat) m callee args, ids[i]? = some m →
    a.get? m = some (.call callee args) → Calling a k code i callee args
  nonneg : ∀ j, 0 ≤ depth (code.take j)
  balanced : depth code = 0

theorem Calling.append_right (h : Calling a k code i callee args) (code' : List Instr) :
    Calling a k (code ++ code') i callee args := by
  rcases h with ⟨before, computed, seq, rest, values, k₀, k₁, rfl, h⟩
  refine ⟨before, computed, seq, rest ++ code', values, k₀, k₁, ?_, h⟩
  rw [List.append_assoc]

theorem Calling.append_left (h : Calling a k₁ code' i callee args) (hle : k ≤ k₁)
    (hwritten : ∀ v ∈ written code, v < k₁) (hdepth : depth code = 0) :
    Calling a k (code ++ code') (code.countP Instr.isCall + i) callee args := by
  rcases h with ⟨before, computed, seq, rest, values, k₀, k₂, rfl, hcode, hlength, hpassing,
    ⟨hle', hwritten'⟩, hcount, hdepth', hcall⟩
  refine ⟨code ++ before, computed, seq, rest, values, k₀, k₂, ?_, hcode, hlength, hpassing,
    ⟨hle.trans hle', ?_⟩, ?_, ?_, ?_⟩
  · simp only [List.append_assoc]
  · intro v hv
    rw [List.append_assoc, written, List.filterMap_append, List.mem_append] at hv
    rcases hv with hv | hv
    · exact Nat.lt_of_lt_of_le (hwritten v hv) hle'
    · exact hwritten' v hv
  · rw [List.append_assoc, List.countP_append, hcount]
  · rw [List.append_assoc, depth_append, hdepth, hdepth', Int.add_zero]
  · rw [List.append_assoc, List.append_assoc, depth_append, hdepth, ← List.append_assoc, hcall,
      Int.zero_add]

namespace CallCode

theorem countP_isCall (h : CallCode a k ids code) : code.countP Instr.isCall = ids.length := by
  rw [List.countP_eq_length_filter, h.calls.length_eq]

theorem plain (h : ∀ instr ∈ code, instr.Plain) : CallCode a k [] code where
  calls := by
    have hnone : code.filter Instr.isCall = [] := by
      rw [List.filter_eq_nil_iff]
      intro instr hinstr
      rw [(h instr hinstr).1]
      exact Bool.false_ne_true
    rw [hnone]
    exact .nil
  calling i m callee args hm := by cases hm
  nonneg j := by
    rw [depth_eq_zero fun instr hinstr => h instr (List.mem_of_mem_take hinstr)]
  balanced := depth_eq_zero h

/-- Code after code: the calls of both, and between them nothing is on the stack. -/
theorem append (h : CallCode a k ids code) (h' : CallCode a k₁ ids' code') (hle : k ≤ k₁)
    (hwritten : ∀ v ∈ written code, v < k₁) : CallCode a k (ids ++ ids') (code ++ code') where
  calls := by
    rw [List.filter_append]
    exact List.rel_append h.calls h'.calls
  calling i m callee args hm hn := by
    by_cases hi : i < ids.length
    · rw [List.getElem?_append_left hi] at hm
      exact (h.calling i m callee args hm hn).append_right code'
    · rw [List.getElem?_append_right (Nat.le_of_not_lt hi)] at hm
      have hcalling := (h'.calling _ m callee args hm hn).append_left hle hwritten h.balanced
      rwa [h.countP_isCall, Nat.add_sub_cancel' (Nat.le_of_not_lt hi)] at hcalling
  nonneg j := by
    rw [List.take_append, depth_append]
    exact Int.add_nonneg (h.nonneg j) (h'.nonneg _)
  balanced := by rw [depth_append, h.balanced, h'.balanced, Int.add_zero]

/-- The code of arguments with the sequence of their call. -/
theorem call (h : CallCode a k ids code)
    (hcode : Code a (args.map fun arg => (arg, .reg)) k code os k₁)
    (hn : a.get? id = some (.call callee args)) :
    CallCode a k (ids ++ [id]) (code ++ callSequence callee os (temporary k₁)) where
  calls := by
    rw [List.filter_append, filter_isCall_callSequence]
    exact List.rel_append h.calls (.cons ⟨callee, args, hn, rfl⟩ .nil)
  calling i m callee' args' hm hn' := by
    by_cases hi : i < ids.length
    · rw [List.getElem?_append_left hi] at hm
      exact (h.calling i m callee' args' hm hn').append_right _
    · -- the call itself: everything before its sequence is the code of its arguments
      rw [List.getElem?_append_right (Nat.le_of_not_lt hi)] at hm
      have hlt := (List.getElem?_eq_some_iff.1 hm).1
      rw [List.length_singleton] at hlt
      obtain rfl : i = ids.length := by omega
      rw [Nat.sub_self] at hm
      cases hm
      cases hn.symm.trans hn'
      have hlength : os.length = args.length := by rw [hcode.length_eq, List.length_map]
      refine ⟨[], code, _, [], os, k, k₁, (List.append_nil _).symm, hcode, hlength,
        callSequence_passing, ⟨hcode.le, fun v hv => (hcode.mem_written_iff.1 hv).2⟩,
        h.countP_isCall, h.balanced, ?_⟩
      rw [List.nil_append, depth_append, h.balanced, ← hlength, depth_take_callSequence,
        Int.zero_add]
  nonneg j := by
    rw [List.take_append, depth_append]
    exact Int.add_nonneg (h.nonneg j) (depth_take_callSequence_nonneg _)
  balanced := by rw [depth_append, h.balanced, depth_callSequence, Int.add_zero]

end CallCode

/-! ## Schemes -/

section Plain

variable {lhs rhs src : Operand}

theorem plain_arithmetic {op : BinaryOp} : ∀ instr ∈ arithmetic op dst lhs rhs, instr.Plain := by
  rcases arithmetic_cases op dst lhs rhs with ⟨result, heq⟩ | ⟨opcode, count, hop, hcount, src, heq⟩
  · rw [heq]
    simp only [List.forall_mem_cons]
    exact ⟨⟨rfl, rfl⟩, ⟨rfl, rfl⟩, ⟨rfl, rfl⟩, ⟨rfl, rfl⟩, List.forall_mem_nil _⟩
  · have hcombined : (Instr.binary opcode (.vreg dst) src).Plain := by
      cases op <;> cases hop <;> exact ⟨rfl, rfl⟩
    rw [heq]
    rcases hcount with rfl | rfl
    · simp only [List.nil_append, List.forall_mem_cons]
      exact ⟨⟨rfl, rfl⟩, hcombined, List.forall_mem_nil _⟩
    · simp only [List.cons_append, List.nil_append, List.forall_mem_cons]
      exact ⟨⟨rfl, rfl⟩, ⟨rfl, rfl⟩, hcombined, List.forall_mem_nil _⟩

theorem plain_comparison {c : Condition} :
    ∀ instr ∈ comparison c dst lhs rhs, instr.Plain := by
  simp only [comparison, List.forall_mem_cons]
  exact ⟨⟨rfl, rfl⟩, ⟨rfl, rfl⟩, ⟨rfl, rfl⟩, List.forall_mem_nil _⟩

theorem plain_inPlace {op : UnaryOp} : ∀ instr ∈ inPlace op dst src, instr.Plain := by
  cases op with
  | neg | not =>
      simp only [inPlace, List.forall_mem_cons]
      exact ⟨⟨rfl, rfl⟩, ⟨rfl, rfl⟩, List.forall_mem_nil _⟩
  | logicalNot => exact plain_comparison

theorem plain_junction {op : LogicalOp} {left right : VirtualReg} :
    ∀ instr ∈ junction op left right dst lhs rhs, instr.Plain := by
  intro instr hinstr
  unfold junction at hinstr
  rw [List.mem_append, List.mem_append] at hinstr
  rcases hinstr with (hinstr | hinstr) | hinstr
  · exact plain_comparison instr hinstr
  · exact plain_comparison instr hinstr
  · rcases List.mem_cons.1 hinstr with rfl | hinstr
    · exact ⟨rfl, rfl⟩
    · cases List.mem_singleton.1 hinstr
      cases op <;> exact ⟨rfl, rfl⟩

end Plain

/-- The instructions of a rule are the sequence of a call, after its arguments, or there is no call
among them.  Then the calls below the node are those below the goals that the rule rests on. -/
theorem Scheme.calls (h : Scheme a id k x goals os own o k')
    {css : List (List (List Symbol × NodeId))}
    (hcss : List.Forall₂ (fun goal calls => a.CallsBelow goal.1 calls) goals css) :
    ((∀ instr ∈ own, instr.Plain) ∧
      ∃ calls, a.CallsBelow id calls ∧ calls.map (·.2) = css.flatten.map (·.2)) ∨
    ∃ callee args, a.get? id = some (.call callee args) ∧
      goals = args.map (fun arg => (arg, .reg)) ∧ own = callSequence callee os (temporary k) := by
  have hlinks := List.forall₂_map_left_iff.2 hcss
  cases h with
  | call hn => exact .inr ⟨_, _, hn, rfl, rfl⟩
  | literal hn | vreg hn | mem hn | slot hn | grouping hn | deref hn =>
      exact .inl ⟨List.forall_mem_nil _, Arena.exists_callsBelow hn nofun hlinks⟩
  | wideLiteral hn | framePointer hn | addressOf hn | signExtend hn | store hn =>
      exact .inl ⟨List.forall_mem_singleton.2 ⟨rfl, rfl⟩, Arena.exists_callsBelow hn nofun hlinks⟩
  | copy =>
      rcases List.forall₂_cons_left_iff.1 hlinks with ⟨calls, rest, hcalls, hnil, rfl⟩
      cases hnil
      refine .inl ⟨List.forall_mem_singleton.2 ⟨rfl, rfl⟩, calls, hcalls, ?_⟩
      rw [List.flatten_singleton]
  | binary hn => exact .inl ⟨plain_arithmetic, Arena.exists_callsBelow hn nofun hlinks⟩
  | unary hn => exact .inl ⟨plain_inPlace, Arena.exists_callsBelow hn nofun hlinks⟩
  | compare hn => exact .inl ⟨plain_comparison, Arena.exists_callsBelow hn nofun hlinks⟩
  | logical hn => exact .inl ⟨plain_junction, Arena.exists_callsBelow hn nofun hlinks⟩
  | derefFolded hn hc =>
      rcases Arena.exists_callsBelow hc nofun hlinks with ⟨calls, hcalls, hmap⟩
      rcases Arena.exists_callsBelow hn nofun (.cons hcalls .nil) with ⟨calls', hcalls', hmap'⟩
      rw [List.flatten_singleton] at hmap'
      exact .inl ⟨List.forall_mem_nil _, calls', hcalls', hmap'.trans hmap⟩

/-- The code of goals has the calls below them, one goal after the other. -/
theorem Code.calls (h : Code a goals k code os k') :
    ∃ css, List.Forall₂ (fun goal calls => a.CallsBelow goal.1 calls) goals css ∧
      CallCode a k (css.flatten.map (·.2)) code := by
  induction h with
  | nil => exact ⟨[], .nil, .plain (List.forall_mem_nil _)⟩
  | @cons id x goals rest k k₁ k₂ k' code own code' os os' o hgoals hscheme hrest ih ih' =>
      rcases ih with ⟨css, hcss, hcallCode⟩
      rcases ih' with ⟨css', hcss', hcallCode'⟩
      -- the calls below the node and their code, before what belongs to the other goals
      have hnode : ∃ calls, a.CallsBelow id calls ∧
          CallCode a k (calls.map (·.2)) (code ++ own) := by
        rcases hscheme.calls hcss with ⟨hplain, calls, hcalls, hmap⟩ | ⟨callee, args, hn, rfl, rfl⟩
        · refine ⟨calls, hcalls, ?_⟩
          have happend := hcallCode.append (.plain hplain) hgoals.le
            fun v hv => (hgoals.mem_written_iff.1 hv).2
          rwa [List.append_nil, ← hmap] at happend
        · have hlinks := List.forall₂_map_left_iff.1 hcss
          have hkind : (Node.call callee args).kind = .call := rfl
          refine ⟨_, Arena.callsBelow_node hn hlinks, ?_⟩
          rw [if_pos hkind, List.map_append, Arena.map_snd_raised]
          exact hcallCode.call hgoals hn
      rcases hnode with ⟨calls, hcalls, hcode⟩
      refine ⟨calls :: css', .cons hcalls hcss', ?_⟩
      rw [List.flatten_cons, List.map_append]
      have hsingle := hgoals.single hscheme
      exact hcode.append hcallCode' hsingle.le fun v hv => (hsingle.mem_written_iff.1 hv).2

end X64

namespace Target

/-- The code of a tree, calls and their arguments included: there is one call instruction for each
call in the tree, with its name, an inner call before the one that it is an argument of and the
others from left to right.  Each has its sequence, without interruption and after all that computes
its arguments: the arguments from the last one down to the seventh are pushed, the first six are
moved into their registers, the call is made, the stack is cleared if anything was pushed, and the
result is moved from `rax` into a register that is new.  The stack is never below what it was at the
beginning, the same in the end, and when a call is made it holds the arguments pushed for it. -/
theorem selectRoot_calls {settings : Settings} {t : Target} (ht : Target.x64 settings = .ok t)
    {s s' : Selection} {root value : NodeId} (htree : s.arena.IsTree Node.links root)
    (hrun : (t.selectRoot root).run s = .ok value s') :
    ∃ code calls, s'.stream.toList = s.stream.toList ++ code ∧ s.arena.CallsBelow root calls ∧
      (calls.map (·.2)).Nodup ∧ X64.CallCode s.arena s.nextReg (calls.map (·.2)) code := by
  have htranslated := X64.selectRoot_writes ht htree
  rw [hrun] at htranslated
  rcases htranslated.value with ⟨o, hwrote, -⟩
  rcases hwrote.code with ⟨code, hstream, hcode⟩
  rcases hcode.calls with ⟨css, hcss, hcallCode⟩
  rcases List.forall₂_cons_left_iff.1 hcss with ⟨calls, rest, hcalls, hnil, rfl⟩
  cases hnil
  rw [List.flatten_singleton] at hcallCode
  exact ⟨code, calls, hstream, hcalls, hcalls.nodup htree, hcallCode⟩

/-- The call `f(g(x), 1, 2, 3, 4, 5, g(6))`, with its root at 9. -/
def stackedCall : Arena :=
  ⟨#[.var ⟨"x", -8⟩, .call "g" [0], .literal 1, .literal 2, .literal 3, .literal 4, .literal 5,
    .literal 6, .call "g" [7], .call "f" [1, 2, 3, 4, 5, 6, 8]]⟩

/-- The calls of `g` come before that of `f`, the one in the first argument before the one in the
last; each has its sequence. -/
theorem selectRoot_calls_stackedCall :
    stackedCall.IsTree Node.links 9 ∧
      stackedCall.CallsBelow 9
        [([.kind .call, .child 0], 1), ([.kind .call, .child 6], 8), ([], 9)] ∧
      ∃ t value s', Target.x64 {} = .ok t ∧
        (t.selectRoot 9).run { arena := stackedCall } = .ok value s' ∧
        X64.CallCode stackedCall 0 [1, 8, 9] s'.stream.toList ∧
        s'.stream.toList.filter Instr.isCall = [.unary .call (.symbol "g"),
          .unary .call (.symbol "g"), .unary .call (.symbol "f")] := by
  have htree : stackedCall.IsTree Node.links 9 := by decide
  have hcalls : stackedCall.CallsBelow 9
      [([.kind .call, .child 0], 1), ([.kind .call, .child 6], 8), ([], 9)] := by
    have hlisted : ∀ p ∈
        [([Symbol.kind .call, .child 0], 1), ([.kind .call, .child 6], 8), ([], 9)],
        p ∈ stackedCall.ways Node.links 10 9 := by decide
    have hall : ∀ p ∈ stackedCall.ways Node.links 10 9,
        (stackedCall.get? p.2).any (·.kind = .call) = true →
        p ∈ [([Symbol.kind .call, .child 0], 1), ([.kind .call, .child 6], 8), ([], 9)] := by decide
    refine ⟨fun w m => ⟨fun hmem => ?_, ?_⟩, by simp [slots, Sooner]⟩
    · refine ⟨(Arena.mem_ways_iff.1 (hlisted _ hmem)).1, ?_⟩
      simp only [List.mem_cons, Prod.mk.injEq, List.not_mem_nil, or_false] at hmem
      rcases hmem with ⟨-, rfl⟩ | ⟨-, rfl⟩ | ⟨-, rfl⟩ <;> exact ⟨_, _, rfl⟩
    · rintro ⟨hpath, callee, args, hcall⟩
      refine hall (w, m) (Arena.mem_ways_iff.2 ⟨hpath, htree.length_lt hpath⟩) ?_
      rw [hcall]
      rfl
  have hsome : ∃ t, Target.x64 {} = .ok t ∧ t.failure? stackedCall 9 = none ∧
      (endState? ((t.selectRoot 9).run { arena := stackedCall })).map
        (·.stream.toList.filter Instr.isCall) = some [.unary .call (.symbol "g"),
          .unary .call (.symbol "g"), .unary .call (.symbol "f")] :=
    ⟨_, rfl, by decide +kernel⟩
  rcases hsome with ⟨t, ht, hnone, hfilter⟩
  rcases failure?_eq_none_iff.1 hnone with ⟨value, s', hrun⟩
  rw [hrun] at hfilter
  rcases @selectRoot_calls {} t ht { arena := stackedCall } s' 9 value htree hrun with
    ⟨code, calls, hstream, hcalls', -, hcallCode⟩
  cases hcalls'.unique hcalls
  refine ⟨htree, hcalls, t, value, s', ht, hrun, ?_, Option.some.inj hfilter⟩
  rw [hstream]
  exact hcallCode

end Target
end Codegen
