import Codegen.Proofs.Code
import Codegen.Proofs.Grafting
import Codegen.Proofs.Procedures

/-!
# Schemes — emission procedures follow the schemes of code

When the instructions of a rule are emitted, the children of its node have been replaced by operands
of the forms that the rule asks for.  So the procedure emits what the scheme of the rule says, and
the node it returns is new or one of those operands.

* `X64.Emitted`     : a procedure follows a scheme
* `X64.Filled`      : children have been replaced by operands
* `X64.rule_cases`  : the rules but that for calls, by how their patterns bind
-/

namespace Codegen
namespace X64

variable {g a : Arena} {id c v : NodeId} {n : Node} {s : Selection} {x y : Nonterminal}
  {goals : List Goal} {os : List Operand} {o : Operand} {owner : NodeId → NodeId}
  {own : List Instr} {result : EStateM.Result Failure Selection NodeId}

/-! ## Emission -/

/-- A procedure emits the instructions of a scheme. -/
def Emitted (g : Arena) (id : NodeId) (x : Nonterminal) (goals : List Goal) (os : List Operand)
    (s : Selection) (result : EStateM.Result Failure Selection NodeId) : Prop :=
  ∃ v s' own o, result = .ok v s' ∧ Scheme g id s.nextReg x goals os own o s'.nextReg ∧
    s'.stream.toList = s.stream.toList ++ own ∧ s.arena.Keeps s'.arena ∧
    s'.arena.operand? v = some o ∧
    ∃ owner, g.Grafted owner s'.arena ∧ g.Below Node.links id (owner v)

/-- A register is issued last, and a node appended for it. -/
theorem emitted_leaving (hgrafted : g.Grafted owner s.arena) (s₀ : Selection)
    (harena : s₀.arena = s.arena) (hstream : s₀.stream = s.stream)
    (hrun : result = .ok s.arena.size (s₀.leaving own))
    (hscheme : Scheme g id s.nextReg x goals os own (.vreg s₀.fresh) (s₀.nextReg + 1)) :
    Emitted g id x goals os s result := by
  have hpushed : (s₀.leaving own).arena = s.arena.push (.vreg s₀.fresh) := by
    rw [Selection.arena_leaving, harena]
  have hext : s₀.Extends (fun _ => False) (s₀.leaving own) own := .leaving s₀ own
  refine ⟨_, _, own, .vreg s₀.fresh, hrun, ?_, ?_, ?_, ?_,
    Function.update owner s.arena.size id, ?_, ?_⟩
  · rw [Selection.nextReg_leaving]
    exact hscheme
  · rw [hext.stream, hstream]
  · rw [hpushed]
    exact .push _ _
  · rw [← harena]
    exact s₀.operand?_leaving own
  · rw [hpushed]
    exact hgrafted.push _ id
  · rw [Function.update_self]
    exact .refl id

/-- A memory operand is appended. -/
theorem emitted_appended {addr : Address} (hgrafted : g.Grafted owner s.arena)
    (hrun : result = .ok s.arena.size (s.appended (.mem addr)))
    (hscheme : Scheme g id s.nextReg x goals os [] (.mem addr) s.nextReg) :
    Emitted g id x goals os s result := by
  refine ⟨_, _, [], _, hrun, hscheme, (List.append_nil _).symm, .push _ _,
    s.operand?_appended (.mem addr), Function.update owner s.arena.size id, hgrafted.push _ id, ?_⟩
  rw [Function.update_self]
  exact .refl id

/-- The result is an operand that was there already. -/
theorem emitted_standing (hgrafted : g.Grafted owner s.arena)
    (hrun : result = .ok v (s.emitted own)) (ho : s.arena.operand? v = some o)
    (howned : g.Below Node.links id (owner v))
    (hscheme : Scheme g id s.nextReg x goals os own o s.nextReg) :
    Emitted g id x goals os s result := by
  refine ⟨v, _, own, o, hrun, ?_, s.stream_emitted own, ?_, ?_, owner, ?_, howned⟩
  · rw [Selection.nextReg_emitted]
    exact hscheme
  · rw [Selection.arena_emitted]
    exact .refl _
  · rw [Selection.arena_emitted]
    exact ho
  · rw [Selection.arena_emitted]
    exact hgrafted

/-- The children of the node have been replaced by operands. -/
def Filled (b : Arena) (id : NodeId) (n : Node) (os : List Operand) : Prop :=
  ∃ n', b.get? id = some n' ∧ n'.shape = n.shape ∧
    List.Forall₂ (fun v o => b.operand? v = some o) n'.children os

namespace Filled

theorem leaf {b : Arena} (h : Filled b id n os) (hchildren : n.children = []) :
    b.get? id = some n ∧ os = [] := by
  rcases h with ⟨n', hn', hshape, hall⟩
  have hkind : n'.kind = n.kind := by rw [← Node.kind_shape, hshape, Node.kind_shape]
  have hchildren' : n'.children = [] := by
    rw [← List.length_eq_zero_iff, Node.children_of_kind hkind, hchildren]
    rfl
  rw [Node.shape_of_children hchildren, Node.shape_of_children hchildren'] at hshape
  rw [hchildren'] at hall
  cases hall
  exact ⟨hshape ▸ hn', rfl⟩

theorem one {b : Arena} (h : Filled b id n os) (hchildren : n.children = [c]) :
    ∃ n' u o, b.get? id = some n' ∧ n'.shape = n.shape ∧ n'.children = [u] ∧
      b.operand? u = some o ∧ os = [o] := by
  rcases h with ⟨n', hn', hshape, hall⟩
  have hkind : n'.kind = n.kind := by rw [← Node.kind_shape, hshape, Node.kind_shape]
  have hlen := Node.children_of_kind hkind
  rw [hchildren, List.length_singleton, List.length_eq_one_iff] at hlen
  rcases hlen with ⟨u, hu⟩
  rw [hu] at hall
  rcases List.forall₂_cons_left_iff.1 hall with ⟨o, os', ho, hnil, rfl⟩
  cases hnil
  exact ⟨n', u, o, hn', hshape, hu, ho, rfl⟩

theorem two {b : Arena} {c' : NodeId} (h : Filled b id n os) (hchildren : n.children = [c, c']) :
    ∃ n' u u' o o', b.get? id = some n' ∧ n'.shape = n.shape ∧ n'.children = [u, u'] ∧
      b.operand? u = some o ∧ b.operand? u' = some o' ∧ os = [o, o'] := by
  rcases h with ⟨n', hn', hshape, hall⟩
  have hkind : n'.kind = n.kind := by rw [← Node.kind_shape, hshape, Node.kind_shape]
  have hlen := Node.children_of_kind hkind
  rw [hchildren, List.length_cons, List.length_singleton, List.length_eq_two] at hlen
  rcases hlen with ⟨u, u', hu⟩
  rw [hu] at hall
  rcases List.forall₂_cons_left_iff.1 hall with ⟨o, os', ho, hrest, rfl⟩
  rcases List.forall₂_cons_left_iff.1 hrest with ⟨o', os'', ho', hnil, rfl⟩
  cases hnil
  exact ⟨n', u, u', o, o', hn', hshape, hu, ho, ho', rfl⟩

end Filled

section Procedures

variable (R : Reducer) (hgrafted : g.Grafted owner s.arena)
include hgrafted

/-- A leaf that is an operand already stands for itself. -/
theorem emitted_keep (hn : g.get? id = some n) (hchildren : n.children = [])
    (ho : n.operand? = some o) (hfilled : Filled s.arena id n os)
    (hscheme : Scheme g id s.nextReg x [] [] [] o s.nextReg) :
    Emitted g id x [] os s ((Emission.keep R id).run s) := by
  rcases hfilled.leaf hchildren with ⟨hn', rfl⟩
  have hrun : (Emission.keep R id).run s = .ok id (s.emitted []) := rfl
  refine emitted_standing hgrafted hrun ?_ ?_ hscheme
  · rw [Arena.operand?, hn']
    exact ho
  · rw [hgrafted.old id (Arena.lt_size hn)]
    exact .refl id

theorem emitted_wide {value : Int} (hn : g.get? id = some (.literal value))
    (hwide : fits32 value = false) (hfilled : Filled s.arena id (.literal value) os) :
    Emitted g id .reg [] os s ((copy R id).run s) := by
  rcases hfilled.leaf rfl with ⟨hn', rfl⟩
  have ho : s.arena.operand? id = some (.imm value) := by
    rw [Arena.operand?, hn']
    rfl
  exact emitted_leaving hgrafted s rfl rfl (run_copy (R := R) ho) (.wideLiteral hn hwide)

theorem emitted_copy (hy : y ≠ .reg) (ho : s.arena.operand? v = some o) :
    Emitted g id .reg [(id, y)] [o] s ((copy R v).run s) :=
  emitted_leaving hgrafted s rfl rfl (run_copy (R := R) ho) (.copy hy)

theorem emitted_slot {var : Variable} (hn : g.get? id = some (.var var))
    (hfilled : Filled s.arena id (.var var) os) :
    Emitted g id .mem [] os s ((slot R id).run s) := by
  rcases hfilled.leaf rfl with ⟨hn', rfl⟩
  exact emitted_appended hgrafted (run_slot (R := R) hn') (.slot hn)

theorem emitted_framePointer (hn : g.get? id = some .framePointer)
    (hfilled : Filled s.arena id .framePointer os) :
    Emitted g id .reg [] os s ((framePointer R id).run s) := by
  rcases hfilled.leaf rfl with ⟨-, rfl⟩
  exact emitted_leaving hgrafted s rfl rfl (@run_framePointer s R id) (.framePointer hn)

theorem emitted_addressOf {var : Variable} (hn : g.get? id = some (.addrOf var))
    (hfilled : Filled s.arena id (.addrOf var) os) :
    Emitted g id .reg [] os s ((addressOf R id).run s) := by
  rcases hfilled.leaf rfl with ⟨hn', rfl⟩
  exact emitted_leaving hgrafted s rfl rfl (run_addressOf (R := R) hn') (.addressOf hn)

theorem emitted_binary {op : BinaryOp} {lhs rhs : NodeId}
    (hn : g.get? id = some (.binary op lhs rhs)) (hy : y = .reg ∨ op ≠ .div ∧ op ≠ .rem)
    (hfilled : Filled s.arena id (.binary op lhs rhs) os) :
    Emitted g id .reg [(lhs, .reg), (rhs, y)] os s ((binary R id).run s) := by
  rcases hfilled.two rfl with ⟨n', u, u', o, o', hn', hshape, hchildren, ho, ho', rfl⟩
  cases n' with
  | binary =>
      cases hshape
      cases hchildren
      exact emitted_leaving hgrafted s rfl rfl (run_binary hn' ho ho') (.binary hn hy)
  | _ => cases hshape

theorem emitted_unary {op : UnaryOp} (hn : g.get? id = some (.unary op c))
    (hfilled : Filled s.arena id (.unary op c) os) :
    Emitted g id .reg [(c, .reg)] os s ((unary R id).run s) := by
  rcases hfilled.one rfl with ⟨n', u, o, hn', hshape, hchildren, ho, rfl⟩
  cases n' with
  | unary =>
      cases hshape
      cases hchildren
      exact emitted_leaving hgrafted s rfl rfl (run_unary hn' ho) (.unary hn)
  | _ => cases hshape

theorem emitted_compare {op : CompareOp} {lhs rhs : NodeId}
    (hn : g.get? id = some (.compare op lhs rhs)) (hy : y ≠ .mem)
    (hfilled : Filled s.arena id (.compare op lhs rhs) os) :
    Emitted g id .reg [(lhs, .reg), (rhs, y)] os s ((compare R id).run s) := by
  rcases hfilled.two rfl with ⟨n', u, u', o, o', hn', hshape, hchildren, ho, ho', rfl⟩
  cases n' with
  | compare =>
      cases hshape
      cases hchildren
      exact emitted_leaving hgrafted s rfl rfl (run_compare hn' ho ho') (.compare hn hy)
  | _ => cases hshape

theorem emitted_logical {op : LogicalOp} {lhs rhs : NodeId}
    (hn : g.get? id = some (.logical op lhs rhs))
    (hfilled : Filled s.arena id (.logical op lhs rhs) os) :
    Emitted g id .reg [(lhs, .reg), (rhs, .reg)] os s ((logical R id).run s) := by
  rcases hfilled.two rfl with ⟨n', u, u', o, o', hn', hshape, hchildren, ho, ho', rfl⟩
  cases n' with
  | logical =>
      cases hshape
      cases hchildren
      exact emitted_leaving hgrafted s.issued.issued rfl rfl (run_logical hn' ho ho') (.logical hn)
  | _ => cases hshape

theorem emitted_signExtend (hn : g.get? id = some (.signExtend c)) (hy : y ≠ .imm)
    (hfilled : Filled s.arena id (.signExtend c) os) :
    Emitted g id .reg [(c, y)] os s ((signExtend R id).run s) := by
  rcases hfilled.one rfl with ⟨n', u, o, hn', hshape, hchildren, ho, rfl⟩
  cases n' with
  | signExtend =>
      cases hshape
      cases hchildren
      exact emitted_leaving hgrafted s rfl rfl (run_signExtend hn' ho) (.signExtend hn hy)
  | _ => cases hshape

/-- A group hands on what replaces its inner node. -/
theorem emitted_inner (htree : g.IsTree Node.links id) (hn : g.get? id = some (.grouping c))
    (hfilled : Filled s.arena id (.grouping c) os)
    (hshows : List.Forall₂ (fun goal o => Shows goal.2 o) [(c, .reg)] os) :
    Emitted g id .reg [(c, .reg)] os s ((inner R id).run s) := by
  rcases hfilled.one rfl with ⟨n', u, o, hn', -, hchildren, ho, rfl⟩
  rcases (List.forall₂_cons.1 hshows).1.exists_vreg with ⟨r, rfl⟩
  have hslot : n'.children[0]? = some u := by
    rw [hchildren]
    rfl
  have hrun : (inner R id).run s = .ok u (s.emitted []) := run_inner hn' hslot
  exact emitted_standing hgrafted hrun ho
    (hgrafted.owner_below htree (.step hn' (Node.links_of_children hslot) (.root u))) (.grouping hn)

theorem emitted_deref (hn : g.get? id = some (.deref c)) (hfilled : Filled s.arena id (.deref c) os)
    (hshows : List.Forall₂ (fun goal o => Shows goal.2 o) [(c, .reg)] os) :
    Emitted g id .mem [(c, .reg)] os s ((deref R id).run s) := by
  rcases hfilled.one rfl with ⟨n', u, o, hn', hshape, hchildren, ho, rfl⟩
  rcases (List.forall₂_cons.1 hshows).1.exists_vreg with ⟨r, rfl⟩
  cases n' with
  | deref =>
      cases hchildren
      exact emitted_appended hgrafted (run_deref hn' ho) (.deref hn)
  | _ => cases hshape

/-- The sum below the dereference has been filled, and not the dereference itself. -/
theorem emitted_derefFolded {lhs rhs : NodeId} {op : BinaryOp} {value disp : Int} {r : VirtualReg}
    (hn : g.get? id = some (.deref c)) (hc : g.get? c = some (.binary op lhs rhs))
    (hn' : s.arena.get? id = some (.deref c))
    (hfilled : Filled s.arena c (.binary op lhs rhs) [.vreg r, .imm value])
    (hdisp : displacement? op value = some disp) :
    Emitted g id .mem [(lhs, .reg), (rhs, .imm)] [.vreg r, .imm value] s
      ((derefFolded R id).run s) := by
  rcases hfilled.two rfl with ⟨m', u, u', o, o', hm', hshape, hchildren, ho, ho', hos⟩
  cases hos
  cases m' with
  | binary =>
      cases hshape
      cases hchildren
      exact emitted_appended hgrafted (run_derefFolded hn' hm' ho ho' hdisp)
        (.derefFolded hn hc hdisp)
  | _ => cases hshape

/-- An assignment hands on what replaces the value that it has stored. -/
theorem emitted_store {target value : NodeId} (htree : g.IsTree Node.links id)
    (hn : g.get? id = some (.assign target value))
    (hfilled : Filled s.arena id (.assign target value) os)
    (hshows : List.Forall₂ (fun goal o => Shows goal.2 o) [(target, .mem), (value, .reg)] os) :
    Emitted g id .reg [(target, .mem), (value, .reg)] os s ((store R id).run s) := by
  rcases hfilled.two rfl with ⟨n', u, u', o, o', hn', hshape, hchildren, ho, ho', rfl⟩
  rcases List.forall₂_cons.1 hshows with ⟨hmem, hrest⟩
  rcases hmem.exists_mem with ⟨addr, rfl⟩
  rcases (List.forall₂_cons.1 hrest).1.exists_vreg with ⟨r, rfl⟩
  have hslot : n'.links[1]? = some u' := by
    refine Node.links_of_children ?_
    rw [hchildren]
    rfl
  have howned := hgrafted.owner_below htree (.step hn' hslot (.root u'))
  cases n' with
  | assign =>
      cases hchildren
      exact emitted_standing hgrafted (run_store hn' ho ho') ho' howned (.store hn)
  | _ => cases hshape

end Procedures

/-! ## Prices -/

theorem fits32_of_price {value : Int} {base : Nat} (hn : a.get? id = some (.literal value))
    (h : Price.literal a id = .ok (some base)) : fits32 value = true := by
  rw [Price.literal, Arena.node_eq_ok_iff.2 hn] at h
  by_cases hfits : fits32 value = true
  · exact hfits
  · simp [bind, Except.bind, pure, Except.pure, hfits] at h

theorem wide_of_price {value : Int} {base : Nat} (hn : a.get? id = some (.literal value))
    (h : Price.wideLiteral a id = .ok (some base)) : fits32 value = false := by
  rw [Price.wideLiteral, Arena.node_eq_ok_iff.2 hn] at h
  by_cases hfits : fits32 value = true
  · simp [bind, Except.bind, pure, Except.pure, hfits] at h
  · exact Bool.eq_false_of_not_eq_true hfits

/-- No division has an immediate or a memory cell as its second operand. -/
theorem not_division_of_price {op : BinaryOp} {lhs rhs : NodeId} {base : Nat}
    (hn : a.get? id = some (.binary op lhs rhs))
    (h : Price.binaryImm a id = .ok (some base) ∨ Price.binaryMem a id = .ok (some base)) :
    op ≠ .div ∧ op ≠ .rem := by
  rw [Price.binaryImm, Price.binaryMem, Price.byOperator, Price.byOperator,
    Arena.node_eq_ok_iff.2 hn] at h
  constructor
  · rintro rfl
    rcases h with h | h <;> cases h
  · rintro rfl
    rcases h with h | h <;> cases h

/-! ## Rules -/

/-- The procedure of the rule follows a scheme that rests on the children of the node, reduced to
`xs`. -/
def Follows (r : Rule) (k : NodeKind) (xs : List Nonterminal) : Prop :=
  ∀ {g a : Arena} {id : NodeId} {n : Node} {os : List Operand} {s : Selection}
    {owner : NodeId → NodeId} {base : Nat} (R : Reducer), g.IsTree Node.links id →
    g.get? id = some n → a.get? id = some n → n.kind = k → r.cost.base? a id = .ok (some base) →
    g.Grafted owner s.arena → Filled s.arena id n os →
    List.Forall₂ (fun goal o => Shows goal.2 o) (n.children.zip xs) os →
    Emitted g id r.result (n.children.zip xs) os s ((r.emit R id).run s)

/-- A rule copies the value of its own node, or it follows a scheme that rests on children, or it is
the one that folds a sum into an address. -/
theorem rule_cases {r : Rule} (hr : r ∈ rules) (hcall : r.pattern.avoids .call = true) :
    (∃ y, r.pattern = .nt y ∧ y ≠ .reg ∧ r.result = .reg ∧ r.emit = copy) ∨
    (∃ k xs, r.pattern = .node k (xs.map .nt) ∧ (k = .assign → xs.head? = some .mem) ∧
      Follows r k xs) ∨
    (r.pattern = .node .deref [.node .binary [.reg, .imm]] ∧ r.result = .mem ∧
      r.emit = derefFolded ∧ r.cost = .computed Price.foldedDeref) := by
  rcases r with ⟨name, p, x, cost, emit⟩
  -- where the price looks at the node, it has to be the same in both arenas
  cases form hr with
  | load hy => exact .inl ⟨_, rfl, hy, rfl, rfl⟩
  | literal =>
      refine .inr (.inl ⟨.literal, [], rfl, by decide, ?_⟩)
      intro g a id n os s owner base R _ hn ha hkind hbase hgrafted hfilled _
      cases n with
      | literal =>
          exact emitted_keep R hgrafted hn rfl rfl hfilled (.literal hn (fits32_of_price ha hbase))
      | _ => cases hkind
  | wideLiteral =>
      refine .inr (.inl ⟨.literal, [], rfl, by decide, ?_⟩)
      intro g a id n os s owner base R _ hn ha hkind hbase hgrafted hfilled _
      cases n with
      | literal => exact emitted_wide R hgrafted hn (wide_of_price ha hbase) hfilled
      | _ => cases hkind
  | vreg =>
      refine .inr (.inl ⟨.vreg, [], rfl, by decide, ?_⟩)
      intro g a id n os s owner base R _ hn _ hkind _ hgrafted hfilled _
      cases n with
      | vreg => exact emitted_keep R hgrafted hn rfl rfl hfilled (.vreg hn)
      | _ => cases hkind
  | mem =>
      refine .inr (.inl ⟨.mem, [], rfl, by decide, ?_⟩)
      intro g a id n os s owner base R _ hn _ hkind _ hgrafted hfilled _
      cases n with
      | mem => exact emitted_keep R hgrafted hn rfl rfl hfilled (.mem hn)
      | _ => cases hkind
  | slot =>
      refine .inr (.inl ⟨.var, [], rfl, by decide, ?_⟩)
      intro g a id n os s owner base R _ hn _ hkind _ hgrafted hfilled _
      cases n with
      | var => exact emitted_slot R hgrafted hn hfilled
      | _ => cases hkind
  | framePointer =>
      refine .inr (.inl ⟨.framePointer, [], rfl, by decide, ?_⟩)
      intro g a id n os s owner base R _ hn _ hkind _ hgrafted hfilled _
      cases n with
      | framePointer => exact emitted_framePointer R hgrafted hn hfilled
      | _ => cases hkind
  | addressOf =>
      refine .inr (.inl ⟨.addrOf, [], rfl, by decide, ?_⟩)
      intro g a id n os s owner base R _ hn _ hkind _ hgrafted hfilled _
      cases n with
      | addrOf => exact emitted_addressOf R hgrafted hn hfilled
      | _ => cases hkind
  | unary =>
      refine .inr (.inl ⟨.unary, [.reg], rfl, by decide, ?_⟩)
      intro g a id n os s owner base R _ hn _ hkind _ hgrafted hfilled _
      cases n with
      | unary => exact emitted_unary R hgrafted hn hfilled
      | _ => cases hkind
  | binary y =>
      refine .inr (.inl ⟨.binary, [.reg, y], rfl, nofun, ?_⟩)
      intro g a id n os s owner base R _ hn ha hkind hbase hgrafted hfilled _
      cases n with
      | binary =>
          refine emitted_binary R hgrafted hn ?_ hfilled
          cases y with
          | reg => exact .inl rfl
          | imm => exact .inr (not_division_of_price ha (.inl hbase))
          | mem => exact .inr (not_division_of_price ha (.inr hbase))
      | _ => cases hkind
  | @compare y hy =>
      refine .inr (.inl ⟨.compare, [.reg, y], rfl, nofun, ?_⟩)
      intro g a id n os s owner base R _ hn _ hkind _ hgrafted hfilled _
      cases n with
      | compare => exact emitted_compare R hgrafted hn hy hfilled
      | _ => cases hkind
  | logical =>
      refine .inr (.inl ⟨.logical, [.reg, .reg], rfl, by decide, ?_⟩)
      intro g a id n os s owner base R _ hn _ hkind _ hgrafted hfilled _
      cases n with
      | logical => exact emitted_logical R hgrafted hn hfilled
      | _ => cases hkind
  | @signExtend y hy =>
      refine .inr (.inl ⟨.signExtend, [y], rfl, nofun, ?_⟩)
      intro g a id n os s owner base R _ hn _ hkind _ hgrafted hfilled _
      cases n with
      | signExtend => exact emitted_signExtend R hgrafted hn hy hfilled
      | _ => cases hkind
  | grouping =>
      refine .inr (.inl ⟨.grouping, [.reg], rfl, by decide, ?_⟩)
      intro g a id n os s owner base R htree hn _ hkind _ hgrafted hfilled hshows
      cases n with
      | grouping => exact emitted_inner R hgrafted htree hn hfilled hshows
      | _ => cases hkind
  | deref =>
      refine .inr (.inl ⟨.deref, [.reg], rfl, by decide, ?_⟩)
      intro g a id n os s owner base R _ hn _ hkind _ hgrafted hfilled hshows
      cases n with
      | deref => exact emitted_deref R hgrafted hn hfilled hshows
      | _ => cases hkind
  | derefFolded => exact .inr (.inr ⟨rfl, rfl, rfl, rfl⟩)
  | store =>
      refine .inr (.inl ⟨.assign, [.mem, .reg], rfl, fun _ => rfl, ?_⟩)
      intro g a id n os s owner base R htree hn _ hkind _ hgrafted hfilled hshows
      cases n with
      | assign => exact emitted_store R hgrafted htree hn hfilled hshows
      | _ => cases hkind
  | call => cases hcall

end X64
end Codegen
