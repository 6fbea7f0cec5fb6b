import Codegen.Proofs.Evaluation
import Codegen.X64.Rules

/-!
# Forms — the rules of the x86-64 grammar, by what they are for

The table of rules is taken apart here and nowhere else.  A rule has one of a few forms, and those
that differ only in the kind of one operand have the same; every form is in the table, under some
name.  What is proved about all rules is proved form by form.

* `X64.Form`                        : what the table says, whatever the rules are called
* `X64.form_iff`                    : the forms are those of the rules
* `X64.rule_chain`, `X64.rule_call` : the rules for what is reduced already, and for calls
* `X64.rule_assign`, `X64.rule_mem`, `X64.rule_imm` : the rules for assignments, and for memory
  operands and immediates
* `X64.rule_subs`                   : what rules look for below the node
-/

namespace Codegen

/-! ## Patterns without a kind of node -/

namespace Pattern

mutual

/-- No position of a pattern is a node of kind `k`. -/
def avoids (k : NodeKind) : Pattern → Bool
  | .nt _ => true
  | .node kind subs => decide (kind ≠ k) && avoidsAll k subs

def avoidsAll (k : NodeKind) : List Pattern → Bool
  | [] => true
  | p :: ps => avoids k p && avoidsAll k ps

end

theorem avoids_of_avoidsAll {k : NodeKind} {ps : List Pattern} (h : avoidsAll k ps = true)
    {p : Pattern} (hp : p ∈ ps) : p.avoids k = true := by
  induction ps with
  | nil => cases hp
  | cons q ps ih =>
      rw [avoidsAll, Bool.and_eq_true] at h
      rcases List.mem_cons.1 hp with rfl | hp
      · exact h.1
      · exact ih h.2 hp

end Pattern

namespace X64

/-! ## The forms -/

/-- What a binary operation costs if its second operand is reduced to the nonterminal. -/
def binaryPrice : Nonterminal → Arena → NodeId → Except Fault (Option Nat)
  | .imm => Price.binaryImm
  | .reg => Price.binaryReg
  | .mem => Price.binaryMem

/-- A rule of the table, whatever it is called. -/
inductive Form : Pattern → Nonterminal → Cost → Emission → Prop
  | literal : Form (.leaf .literal) .imm (.computed Price.literal) .keep
  | wideLiteral : Form (.leaf .literal) .reg (.computed Price.wideLiteral) copy
  | load {y : Nonterminal} : y ≠ .reg → Form (.nt y) .reg (.fixed 1) copy
  | vreg : Form (.leaf .vreg) .reg (.fixed 0) .keep
  | mem : Form (.leaf .mem) .mem (.fixed 0) .keep
  | slot : Form (.leaf .var) .mem (.fixed 0) slot
  | framePointer : Form (.leaf .framePointer) .reg (.fixed 1) framePointer
  | addressOf : Form (.leaf .addrOf) .reg (.fixed 1) addressOf
  | unary : Form (.node .unary [.reg]) .reg (.fixed 2) unary
  | binary (y : Nonterminal) :
      Form (.node .binary [.reg, .nt y]) .reg (.computed (binaryPrice y)) binary
  | compare {y : Nonterminal} : y ≠ .mem →
      Form (.node .compare [.reg, .nt y]) .reg (.fixed 2) compare
  | logical : Form (.node .logical [.reg, .reg]) .reg (.fixed 6) logical
  | signExtend {y : Nonterminal} : y ≠ .imm →
      Form (.node .signExtend [.nt y]) .reg (.fixed 1) signExtend
  | grouping : Form (.node .grouping [.reg]) .reg (.fixed 0) inner
  | deref : Form (.node .deref [.reg]) .mem (.fixed 0) deref
  | derefFolded :
      Form (.node .deref [.node .binary [.reg, .imm]]) .mem (.computed Price.foldedDeref)
        derefFolded
  | store : Form (.node .assign [.mem, .reg]) .reg (.fixed 1) store
  | call : Form (.leaf .call) .reg (.computed Price.call) call

section

variable {name : String} {p : Pattern} {x : Nonterminal} {cost : Cost} {emit : Emission}

theorem form (hr : ⟨name, p, x, cost, emit⟩ ∈ rules) : Form p x cost emit := by
  generalize hrule : Rule.mk name p x cost emit = r at hr
  simp only [rules, List.mem_cons, List.not_mem_nil, or_false] at hr
  rcases hr with rfl | rfl | rfl | rfl | rfl | rfl | rfl | rfl | rfl | rfl | rfl | rfl | rfl | rfl |
    rfl | rfl | rfl | rfl | rfl | rfl | rfl | rfl | rfl
  all_goals cases hrule
  · exact .literal
  · exact .load (by decide)
  · exact .wideLiteral
  · exact .vreg
  · exact .load (by decide)
  · exact .slot
  · exact .mem
  · exact .framePointer
  · exact .binary .imm
  · exact .binary .reg
  · exact .binary .mem
  · exact .unary
  · exact .grouping
  · exact .deref
  · exact .derefFolded
  · exact .addressOf
  · exact .compare (by decide)
  · exact .compare (by decide)
  · exact .logical
  · exact .store
  · exact .signExtend (by decide)
  · exact .signExtend (by decide)
  · exact .call

/-- Where the table has a form. -/
theorem Form.exists_index (h : Form p x cost emit) :
    ∃ (i : Nat) (name : String), rules[i]? = some (Rule.mk name p x cost emit) := by
  cases h with
  | literal => exact ⟨0, _, rfl⟩
  | @load y hy =>
      cases y with
      | imm => exact ⟨1, _, rfl⟩
      | mem => exact ⟨4, _, rfl⟩
      | reg => exact absurd rfl hy
  | wideLiteral => exact ⟨2, _, rfl⟩
  | vreg => exact ⟨3, _, rfl⟩
  | slot => exact ⟨5, _, rfl⟩
  | mem => exact ⟨6, _, rfl⟩
  | framePointer => exact ⟨7, _, rfl⟩
  | binary y =>
      cases y with
      | imm => exact ⟨8, _, rfl⟩
      | reg => exact ⟨9, _, rfl⟩
      | mem => exact ⟨10, _, rfl⟩
  | unary => exact ⟨11, _, rfl⟩
  | grouping => exact ⟨12, _, rfl⟩
  | deref => exact ⟨13, _, rfl⟩
  | derefFolded => exact ⟨14, _, rfl⟩
  | addressOf => exact ⟨15, _, rfl⟩
  | @compare y hy =>
      cases y with
      | reg => exact ⟨16, _, rfl⟩
      | imm => exact ⟨17, _, rfl⟩
      | mem => exact absurd rfl hy
  | logical => exact ⟨18, _, rfl⟩
  | store => exact ⟨19, _, rfl⟩
  | @signExtend y hy =>
      cases y with
      | reg => exact ⟨20, _, rfl⟩
      | mem => exact ⟨21, _, rfl⟩
      | imm => exact absurd rfl hy
  | call => exact ⟨22, _, rfl⟩

theorem form_iff : Form p x cost emit ↔ ∃ name, ⟨name, p, x, cost, emit⟩ ∈ rules := by
  constructor
  · intro h
    rcases h.exists_index with ⟨i, name, hr⟩
    exact ⟨name, List.mem_of_getElem? hr⟩
  · rintro ⟨name, hr⟩
    exact form hr

end

/-! ## What rules look for -/

variable {r : Rule} {k : NodeKind} {subs : List Pattern}

/-- The chain rules copy into a register what is not in one. -/
theorem rule_chain (hr : r ∈ rules) {y : Nonterminal} (hpattern : r.pattern = .nt y) :
    y ≠ .reg ∧ r.result = .reg ∧ r.emit = copy := by
  rcases r with ⟨name, p, x, cost, emit⟩
  cases form hr with
  | load hy =>
      cases hpattern
      exact ⟨hy, rfl, rfl⟩
  | _ => cases hpattern

/-- One rule is for calls. -/
theorem rule_call (hr : r ∈ rules) : r.pattern.avoids .call = true ∨
    r.pattern = .leaf .call ∧ r.result = .reg ∧ r.emit = call := by
  rcases r with ⟨name, p, x, cost, emit⟩
  cases form hr with
  | call => exact .inr ⟨rfl, rfl, rfl⟩
  | _ => exact .inl rfl

/-- One rule is for assignments. -/
theorem rule_assign (hr : r ∈ rules) :
    r.pattern.avoids .assign = true ∨ r.pattern = .node .assign [.mem, .reg] := by
  rcases r with ⟨name, p, x, cost, emit⟩
  cases form hr with
  | store => exact .inr rfl
  | _ => exact .inl rfl

/-- Memory operands come from places only. -/
theorem rule_mem (hr : r ∈ rules) (hmem : r.result = .mem) :
    ∃ k subs, r.pattern = .node k subs ∧ k.IsPlace := by
  rcases r with ⟨name, p, x, cost, emit⟩
  cases form hr with
  | slot => exact ⟨_, _, rfl, .inl rfl⟩
  | mem => exact ⟨_, _, rfl, .inr (.inl rfl)⟩
  | deref => exact ⟨_, _, rfl, .inr (.inr rfl)⟩
  | derefFolded => exact ⟨_, _, rfl, .inr (.inr rfl)⟩
  | _ => cases hmem

/-- The one rule for immediates takes a literal as it is. -/
theorem rule_imm (hr : r ∈ rules) (himm : r.result = .imm) :
    r.pattern = .leaf .literal ∧ r.emit = .keep := by
  rcases r with ⟨name, p, x, cost, emit⟩
  cases form hr with
  | literal => exact ⟨rfl, rfl⟩
  | _ => cases himm

/-- Below the node itself no rule looks for operands, assignments or calls. -/
theorem rule_subs (hr : r ∈ rules) (hpattern : r.pattern = .node k subs) :
    ∀ kind ∈ [NodeKind.literal, .vreg, .mem, .assign, .call],
      Pattern.avoidsAll kind subs = true := by
  rcases r with ⟨name, p, x, cost, emit⟩
  cases form hr with
  | load => cases hpattern
  | derefFolded =>
      cases hpattern
      decide
  | _ =>
      cases hpattern
      exact fun _ _ => rfl

end X64
end Codegen
