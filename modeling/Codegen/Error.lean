import Codegen.Grammar.Pattern

/-!
# Error — why a run stops

* `Error`   : what can be wrong with settings, a grammar, a tree or a register budget;
  `Error.message` words each cause
* `Fault`   : a broken reference or an unbounded recursion, which no wording is promised for
* `Failure` : either of the two
-/

namespace Codegen

/-- The largest register pool, one bit of a 64-bit set for each register. -/
def registerLimit : Nat := 64

/-- The deepest pattern, one bit of a 64-bit mask for each level. -/
def depthLimit : Nat := 63

/-! ## Errors -/

inductive SettingsDefect
  | registers (given : Nat)
  | ruleLimit
  | poolSize (given : Nat)
  deriving DecidableEq

inductive RuleDefect
  | tooMany (count limit : Nat)
  | tooDeep (depth : Nat)
  | wrongArity (kind : NodeKind) (given : Nat)
  | missingChild (kind : NodeKind) (id : NodeId) (index : Nat)
  deriving DecidableEq

inductive Error
  | noRule (id : NodeId) (kind : NodeKind) (goal : Nonterminal)
  | malformedRule (rule : String) (defect : RuleDefect)
  | poolExhausted (vreg position active candidate : Nat)
  | detached (id : NodeId) (kind : NodeKind)
  | notOperand (id : NodeId) (kind : NodeKind)
  | invalidSettings (defect : SettingsDefect)
  deriving DecidableEq

def SettingsDefect.message : SettingsDefect → String
  | .registers given => s!"register_count must be in 1..={registerLimit}, got {given}"
  | .ruleLimit => "max_rules must be at least 1"
  | .poolSize given => s!"register pool of {given} must hold 1..={registerLimit} registers"

def RuleDefect.message : RuleDefect → String
  | .tooMany count limit => s!"rule set has {count} rules, configuration allows {limit}"
  | .tooDeep depth => s!"pattern depth {depth} exceeds {depthLimit}"
  | .wrongArity kind given =>
      s!"{kind.name} takes {kind.arity} children, pattern gives {given}"
  | .missingChild kind id index => s!"{kind.name} node #{id} has no child {index}"

def Error.message : Error → String
  | .noRule id kind goal => s!"No rule produces {goal.name} for {kind.name} node #{id}"
  | .malformedRule rule defect => s!"Malformed rule `{rule}`: {defect.message}"
  | .poolExhausted vreg position active candidate =>
      s!"Register pool exhausted allocating v{vreg} at position {position} " ++
        s!"({active} registers live, furthest-end candidate v{candidate})"
  | .detached id kind =>
      s!"{kind.name} node #{id} was pushed after the tree was labeled and cannot be selected"
  | .notOperand id kind => s!"{kind.name} node #{id} is not an operand"
  | .invalidSettings defect => s!"Invalid configuration: {defect.message}"

/-! ## Faults -/

inductive Fault
  | outsideArena (id : NodeId)
  | outsideTable (id : NodeId)
  | unknownRule (id : RuleId)
  | endless
  deriving DecidableEq

inductive Failure
  | error (e : Error)
  | fault (f : Fault)
  deriving DecidableEq

end Codegen
