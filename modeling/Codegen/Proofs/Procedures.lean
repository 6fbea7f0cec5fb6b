import Codegen.Proofs.Outcome

/-!
# Procedures — what emission procedures find

When the instructions of a rule are emitted, what its pattern binds has been reduced.  So every
operand is there and has the form that the rule asks for, and the procedure comes to its end.

* `X64.Emits`  : a procedure emits code and ends with a node that stands for the value
* `X64.emits`  : the procedures of all rules but that for calls do
-/

namespace Codegen
namespace X64

variable {a b : Arena} {id v : NodeId} {n : Node} {s : Selection} {x y : Nonterminal}
  {k : NodeKind} {code : List Instr} {r : Rule}
  {result : EStateM.Result Failure Selection NodeId}

/-! ## Emission -/

/-- A run emits code and appends nodes, and ends with a node that stands for the value of `id`. -/
def Emits (a : Arena) (id : NodeId) (x : Nonterminal) (s : Selection)
    (result : EStateM.Result Failure Selection NodeId) : Prop :=
  ∃ v s' code, result = .ok v s' ∧ s.Extends (fun _ => False) s' code ∧ Stands a s'.arena id x v

theorem stands_leaving (hsize : a.size ≤ s.arena.size) :
    Stands a (s.leaving code).arena id .reg s.arena.size where
  owned := .inr hsize
  operand := ⟨.vreg s.fresh, s.operand?_leaving code, trivial⟩

theorem emits_leaving (hsize : a.size ≤ s.arena.size)
    (hrun : result = .ok s.arena.size (s.leaving code)) : Emits a id .reg s result :=
  ⟨_, _, code, hrun, .leaving s code, stands_leaving hsize⟩

theorem emits_appended {addr : Address} (hsize : a.size ≤ s.arena.size)
    (hplace : ∃ n, a.get? id = some n ∧ n.kind.IsPlace)
    (hrun : result = .ok s.arena.size (s.appended (.mem addr))) : Emits a id .mem s result := by
  refine ⟨_, _, [], hrun, (Selection.Extends.refl s).appended _, .inr hsize, .mem addr, ?_, hplace⟩
  exact s.operand?_appended (.mem addr)

/-- The result is a node that stood for the value already. -/
theorem emits_standing (hstands : Stands a s.arena id x v)
    (hrun : result = .ok v (s.emitted code)) : Emits a id x s result := by
  refine ⟨v, _, code, hrun, .emitted s code, hstands.owned, ?_⟩
  rw [Selection.arena_emitted]
  exact hstands.operand

/-! ## What the emission procedures find -/

theorem Stands.exists_vreg (h : Stands a b id .reg v) :
    ∃ reg, b.operand? v = some (.vreg reg) := by
  rcases h.operand with ⟨o, ho, hfits⟩
  rcases Applies.exists_vreg hfits with ⟨reg, rfl⟩
  exact ⟨reg, ho⟩

theorem Stands.exists_imm (h : Stands a b id .imm v) :
    ∃ value, b.operand? v = some (.imm value) ∧ a.get? id = some (.literal value) := by
  rcases h.operand with ⟨o, ho, hfits⟩
  cases o with
  | imm value => exact ⟨value, ho, hfits⟩
  | _ => exact absurd hfits not_false

namespace Held

theorem leaf (h : Held a b (.leaf k) id v) :
    v = id ∧ ∃ n, a.get? id = some n ∧ b.get? id = some n ∧ n.kind = k := by
  rcases h with ⟨hv, n, n', hn, hn', hkind, hshape, hall⟩
  rcases hall.nil with ⟨hchildren, hchildren'⟩
  rw [Node.shape_of_children hchildren, Node.shape_of_children hchildren'] at hshape
  exact ⟨hv, n, hn, hshape ▸ hn', hkind⟩

theorem one (h : Held a b (.node k [.nt x]) id v) :
    v = id ∧ ∃ n n' c u, a.get? id = some n ∧ b.get? id = some n' ∧ n.kind = k ∧ n'.kind = k ∧
      n.children = [c] ∧ n'.children = [u] ∧ Stands a b c x u := by
  rcases h with ⟨hv, n, n', hn, hn', hkind, hshape, hall⟩
  have hkind' : n'.kind = k := by rw [← Node.kind_shape, hshape, Node.kind_shape, hkind]
  rcases hall.cons with ⟨c, _, u, _, hchildren, hchildren', hfirst, hrest⟩
  rcases hrest.nil with ⟨rfl, rfl⟩
  exact ⟨hv, n, n', c, u, hn, hn', hkind, hkind', hchildren, hchildren', hfirst⟩

theorem two (h : Held a b (.node k [.nt x, .nt y]) id v) :
    v = id ∧ ∃ n n' c c' u u', a.get? id = some n ∧ b.get? id = some n' ∧ n.kind = k ∧
      n'.kind = k ∧ n'.shape = n.shape ∧ n.children = [c, c'] ∧ n'.children = [u, u'] ∧
      Stands a b c x u ∧ Stands a b c' y u' := by
  rcases h with ⟨hv, n, n', hn, hn', hkind, hshape, hall⟩
  have hkind' : n'.kind = k := by rw [← Node.kind_shape, hshape, Node.kind_shape, hkind]
  rcases hall.cons with ⟨c, _, u, _, hchildren, hchildren', hfirst, hrest⟩
  rcases hrest.cons with ⟨c', _, u', _, rfl, rfl, hsecond, hnone⟩
  rcases hnone.nil with ⟨rfl, rfl⟩
  exact ⟨hv, n, n', c, c', u, u', hn, hn', hkind, hkind', hshape, hchildren, hchildren', hfirst,
    hsecond⟩

end Held

/-! ## Emission procedures -/

/-- A procedure for nodes with one child, of which the operand is known. -/
theorem emits_one {emit : Emission} {R : Reducer} {z : Nonterminal}
    (h : Held a s.arena (.node k [.nt x]) id v)
    (hrun : ∀ n u o, s.arena.get? id = some n → n.kind = k → n.children = [u] →
      s.arena.operand? u = some o → Emits a id z s ((emit R id).run s)) :
    Emits a id z s ((emit R v).run s) := by
  rcases h.one with ⟨rfl, _, n, _, u, -, hn, -, hkind, -, hchildren, hu⟩
  rcases hu.operand with ⟨o, ho, -⟩
  exact hrun n u o hn hkind hchildren ho

/-- A procedure for nodes with two children, of which the operands are known. -/
theorem emits_two {emit : Emission} {R : Reducer} {z : Nonterminal}
    (h : Held a s.arena (.node k [.nt x, .nt y]) id v)
    (hrun : ∀ n u u' o o', s.arena.get? id = some n → n.kind = k → n.children = [u, u'] →
      s.arena.operand? u = some o → s.arena.operand? u' = some o' →
        Emits a id z s ((emit R id).run s)) :
    Emits a id z s ((emit R v).run s) := by
  rcases h.two with ⟨rfl, _, n, _, _, u, u', -, hn, -, hkind, -, -, hchildren, hu, hu'⟩
  rcases hu.operand with ⟨o, ho, -⟩
  rcases hu'.operand with ⟨o', ho', -⟩
  exact hrun n u u' o o' hn hkind hchildren ho ho'

section Procedures

variable (hsize : a.size ≤ s.arena.size) (R : Reducer)
include hsize

theorem emits_copy (h : Held a s.arena (.nt y) id v) :
    Emits a id .reg s ((copy R v).run s) := by
  rcases h.operand with ⟨o, ho, -⟩
  exact emits_leaving hsize (run_copy (R := R) ho)

theorem emits_binary (h : Held a s.arena (.node .binary [.nt x, .nt y]) id v) :
    Emits a id .reg s ((binary R v).run s) := by
  refine emits_two h fun n u u' o o' hn hkind hchildren ho ho' => ?_
  cases n with
  | binary op =>
      cases hchildren
      exact emits_leaving hsize (run_binary hn ho ho')
  | _ => cases hkind

theorem emits_compare (h : Held a s.arena (.node .compare [.nt x, .nt y]) id v) :
    Emits a id .reg s ((compare R v).run s) := by
  refine emits_two h fun n u u' o o' hn hkind hchildren ho ho' => ?_
  cases n with
  | compare op =>
      cases hchildren
      exact emits_leaving hsize (run_compare hn ho ho')
  | _ => cases hkind

theorem emits_logical (h : Held a s.arena (.node .logical [.nt x, .nt y]) id v) :
    Emits a id .reg s ((logical R v).run s) := by
  refine emits_two h fun n u u' o o' hn hkind hchildren ho ho' => ?_
  cases n with
  | logical op =>
      cases hchildren
      exact ⟨_, _, _, run_logical hn ho ho',
        (Selection.Extends.refl s).issued.issued.trans (.leaving _ _), stands_leaving hsize⟩
  | _ => cases hkind

theorem emits_unary (h : Held a s.arena (.node .unary [.nt x]) id v) :
    Emits a id .reg s ((unary R v).run s) := by
  refine emits_one h fun n u o hn hkind hchildren ho => ?_
  cases n with
  | unary op =>
      cases hchildren
      exact emits_leaving hsize (run_unary hn ho)
  | _ => cases hkind

theorem emits_signExtend (h : Held a s.arena (.node .signExtend [.nt x]) id v) :
    Emits a id .reg s ((signExtend R v).run s) := by
  refine emits_one h fun n u o hn hkind hchildren ho => ?_
  cases n with
  | signExtend =>
      cases hchildren
      exact emits_leaving hsize (run_signExtend hn ho)
  | _ => cases hkind

omit hsize in
/-- A group hands on what stands for its inner node. -/
theorem emits_inner (h : Held a s.arena (.node .grouping [.reg]) id v) :
    Emits a id .reg s ((inner R v).run s) := by
  rcases h.one with ⟨rfl, n, n', c, u, hn, hn', -, -, hchildren, hchildren', hu⟩
  have hc : n.children[0]? = some c := by rw [hchildren]; rfl
  have hstands : Stands a s.arena v .reg u := by
    refine ⟨hu.owned.of_below (.child hn (Node.links_of_children hc)), ?_⟩
    rcases hu.exists_vreg with ⟨reg, hreg⟩
    exact ⟨_, hreg, trivial⟩
  have hrun : (inner R v).run s = .ok u (s.emitted []) :=
    run_inner hn' (by rw [hchildren']; rfl)
  exact emits_standing hstands hrun

omit hsize in
/-- An assignment hands on what stands for the value that it has stored. -/
theorem emits_store (h : Held a s.arena (.node .assign [.mem, .reg]) id v) :
    Emits a id .reg s ((store R v).run s) := by
  rcases h.two with
    ⟨rfl, n, n', c, c', u, u', hn, hn', -, hkind', -, hchildren, hchildren', hu, hu'⟩
  have hc : n.children[1]? = some c' := by rw [hchildren]; rfl
  rcases hu.operand with ⟨o, ho, -⟩
  rcases hu'.exists_vreg with ⟨reg, hreg⟩
  have hstands : Stands a s.arena v .reg u' :=
    ⟨hu'.owned.of_below (.child hn (Node.links_of_children hc)), _, hreg, trivial⟩
  cases n' with
  | assign =>
      cases hchildren'
      exact emits_standing hstands (run_store hn' ho hreg)
  | _ => cases hkind'

theorem emits_deref (h : Held a s.arena (.node .deref [.reg]) id v) :
    Emits a id .mem s ((deref R v).run s) := by
  rcases h.one with ⟨rfl, n, n', c, u, hn, hn', hkind, hkind', -, hchildren, hu⟩
  rcases hu.exists_vreg with ⟨base, hbase⟩
  cases n' with
  | deref =>
      cases hchildren
      exact emits_appended hsize ⟨n, hn, .inr (.inr hkind)⟩ (run_deref hn' hbase)
  | _ => cases hkind'

/-- The sum or difference below the dereference is as it was, except for its operands. -/
theorem emits_derefFolded {base : Nat} (hbase : Price.foldedDeref a id = .ok (some base))
    (h : Held a s.arena (.node .deref [.node .binary [.reg, .imm]]) id v) :
    Emits a id .mem s ((derefFolded R v).run s) := by
  rcases h with ⟨rfl, n, n', hn, hn', hkind, hshape, hall⟩
  rcases hall.cons with ⟨sum, _, _, _, hchildren, hchildren', hsum, hrest⟩
  rcases hrest.nil with ⟨rfl, rfl⟩
  rcases hsum.two with ⟨rfl, m, m', c, c', u, u', hm, hm', hmkind, hmkind', hmshape, hmchildren,
    hmchildren', hu, hu'⟩
  have hkind' : n'.kind = .deref := by rw [← Node.kind_shape, hshape, Node.kind_shape, hkind]
  cases n with
  | deref =>
      cases hchildren
      cases n' with
      | deref =>
          cases hchildren'
          cases m with
          | binary op =>
              cases hmchildren
              cases m' with
              | binary op' =>
                  cases hmchildren'
                  cases hmshape
                  -- the rule was priced with the literal that the immediate stands for
                  rcases of_foldedDeref hn hm hbase with ⟨-, value, disp, hvalue, hdisp⟩
                  rcases hu.exists_vreg with ⟨reg, hreg⟩
                  rcases hu'.exists_imm with ⟨value', himm, hvalue'⟩
                  cases hvalue.symm.trans hvalue'
                  exact emits_appended hsize ⟨_, hn, .inr (.inr rfl)⟩
                    (run_derefFolded hn' hm' hreg himm hdisp)
              | _ => cases hmkind'
          | _ => cases hmkind
      | _ => cases hkind'
  | _ => cases hkind

end Procedures

/-- A leaf that is an operand already stands for itself. -/
theorem emits_keep (R : Reducer) (h : Held a s.arena (.leaf k) id v)
    (hfits : ∀ n, n.kind = k → a.get? id = some n → ∃ o, n.operand? = some o ∧ Fits a id x o) :
    Emits a id x s ((Emission.keep R v).run s) := by
  rcases h.leaf with ⟨rfl, n, hn, hn', hkind⟩
  rcases hfits n hkind hn with ⟨o, ho, hfits⟩
  have hrun : (Emission.keep R v).run s = .ok v (s.emitted []) := rfl
  refine emits_standing ⟨.inl (.refl v), o, ?_, hfits⟩ hrun
  rw [Arena.operand?, hn']
  exact ho

/-- Every rule but that for calls finds what it needs. -/
theorem emits {base : Nat} (hr : r ∈ rules) (hcall : r.pattern.avoids .call = true)
    (hbase : r.cost.base? a id = .ok (some base)) (hsize : a.size ≤ s.arena.size)
    (h : Held a s.arena r.pattern id v) (R : Reducer) :
    Emits a id r.result s ((r.emit R v).run s) := by
  rcases r with ⟨name, p, x, cost, emit⟩
  cases form hr with
  | literal =>
      refine emits_keep R h fun n hkind hn => ?_
      cases n with
      | literal value => exact ⟨_, rfl, hn⟩
      | _ => cases hkind
  | wideLiteral =>
      rcases h.leaf with ⟨rfl, n, hn, hn', hkind⟩
      cases n with
      | literal value =>
          have ho : s.arena.operand? v = some (.imm value) := by rw [Arena.operand?, hn']; rfl
          exact emits_leaving hsize (run_copy (R := R) ho)
      | _ => cases hkind
  | load => exact emits_copy hsize R h
  | vreg =>
      refine emits_keep R h fun n hkind hn => ?_
      cases n with
      | vreg reg => exact ⟨_, rfl, trivial⟩
      | _ => cases hkind
  | mem =>
      refine emits_keep R h fun n hkind hn => ?_
      cases n with
      | mem addr => exact ⟨_, rfl, _, hn, .inr (.inl rfl)⟩
      | _ => cases hkind
  | slot =>
      rcases h.leaf with ⟨rfl, n, hn, hn', hkind⟩
      cases n with
      | var var => exact emits_appended hsize ⟨_, hn, .inl rfl⟩ (run_slot (R := R) hn')
      | _ => cases hkind
  | framePointer => exact emits_leaving hsize (@run_framePointer s R v)
  | addressOf =>
      rcases h.leaf with ⟨rfl, n, hn, hn', hkind⟩
      cases n with
      | addrOf var => exact emits_leaving hsize (run_addressOf (R := R) hn')
      | _ => cases hkind
  | unary => exact emits_unary hsize R h
  | binary => exact emits_binary hsize R h
  | compare => exact emits_compare hsize R h
  | logical => exact emits_logical hsize R h
  | signExtend => exact emits_signExtend hsize R h
  | grouping => exact emits_inner R h
  | deref => exact emits_deref hsize R h
  | derefFolded => exact emits_derefFolded hsize R hbase h
  | store => exact emits_store R h
  | call => cases hcall

end X64
end Codegen
