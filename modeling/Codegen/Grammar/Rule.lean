import Codegen.Automaton.Links
import Codegen.Selection
import Codegen.Settings

/-!
# Rule — tree grammars

A rule says that a tree matching its pattern can be reduced to its result, at a cost, by running
its emission procedure.

* `Cost`     : a fixed cost, or one computed from the matched node that may refuse it
* `Emission` : appends the instructions of a rule and returns the node holding the value
* `Rule`, `Grammar`
* `Target`   : a checked grammar with the path automaton of its patterns, and the settings it was
  checked against
-/

namespace Codegen

/-! ## Rules -/

inductive Cost
  | fixed (cost : Nat)
  | computed (f : Arena → NodeId → Except Fault (Option Nat))

/-- The base cost of a rule at a node; `none` where the rule does not apply. -/
def Cost.base? (c : Cost) (arena : Arena) (id : NodeId) : Except Fault (Option Nat) :=
  match c with
  | .fixed cost => .ok (some cost)
  | .computed f => f arena id

/-- What an emission procedure may call to have other subtrees reduced: `select` labels the subtree
first, `reduce` relies on the labels there are. -/
structure Reducer where
  select : NodeId → Nonterminal → SelectM NodeId
  reduce : NodeId → Nonterminal → SelectM NodeId

/-- Emits the instructions for a matched node and returns the node that stands for its value. -/
abbrev Emission := Reducer → NodeId → SelectM NodeId

/-- The matched node stands for itself. -/
def Emission.keep : Emission := fun _ id => pure id

structure Rule where
  name : String
  pattern : Pattern
  result : Nonterminal
  cost : Cost
  emit : Emission

namespace Rule

/-- The nonterminal that the pattern consists of, if it is a chain rule. -/
def chain? (r : Rule) : Option Nonterminal :=
  match r.pattern with
  | .nt x => some x
  | .node .. => none

/-- What makes a rule unfit for an automaton: its depth first, then an arity. -/
def defect? (r : Rule) : Option RuleDefect :=
  if depthLimit < r.pattern.depth then some (.tooDeep r.pattern.depth)
  else r.pattern.misfit?.map fun (kind, given) => .wrongArity kind given

end Rule

/-! ## Grammars -/

structure Grammar where
  rules : List Rule
  start : Nonterminal

namespace Grammar

def size (g : Grammar) : Nat := g.rules.length

/-- The first rule of a name. -/
def find? (g : Grammar) (name : String) : Option RuleId :=
  g.rules.findIdx? (·.name == name)

/-- Refuses settings out of range, then too many rules, then the first rule with a defect. -/
def check (g : Grammar) (s : Settings) : Except Error Unit := do
  s.check
  match g.rules[s.ruleLimit]? with
  | some r => throw (.malformedRule r.name (.tooMany g.size s.ruleLimit))
  | none =>
      match g.rules.findSome? fun r => r.defect?.map (Error.malformedRule r.name) with
      | some e => throw e
      | none => return ()

end Grammar

/-! ## Targets -/

structure Target where
  grammar : Grammar
  automaton : Automaton
  settings : Settings

namespace Target

def build (g : Grammar) (s : Settings) : Except Error Target := do
  g.check s
  return { grammar := g, automaton := .ofPatterns (g.rules.map Rule.pattern), settings := s }

/-- The event that a built target opens its runs with. -/
def built (t : Target) : Event := .automatonBuilt t.grammar.size t.automaton.size

end Target

/-! ## Text -/

open Text

mutual

def Pattern.dump : Pattern → String
  | .node kind subs => wrapped "Kind" (kind.name ++ ", [" ++ Pattern.dumpAll subs ++ "]")
  | .nt x => wrapped "Nt" x.name

/-- The texts of several patterns, between commas. -/
def Pattern.dumpAll : List Pattern → String
  | [] => ""
  | [p] => Pattern.dump p
  | p :: ps => Pattern.dump p ++ ", " ++ Pattern.dumpAll ps

end

def Cost.dump : Cost → String
  | .fixed cost => wrapped "Fixed" (toString cost)
  | .computed _ => "Computed"

def Rule.dump (r : Rule) : String :=
  record "Rule"
    [("name", quoted r.name), ("pattern", r.pattern.dump), ("result", r.result.name),
      ("cost", r.cost.dump)]

end Codegen
