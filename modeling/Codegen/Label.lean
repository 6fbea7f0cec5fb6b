import Codegen.Grammar.Pattern

/-!
# Label — what is known about a node

* `DepthMask`  : for one rule, the levels of its pattern that are satisfied at a node
* `Choice`     : the cheapest rule found for a node and a nonterminal, with its cost
* `Label`      : the annotations of one node
* `LabelTable` : the labels of the nodes an arena had when the table was made
-/

namespace Codegen

/-- The state of a path automaton. -/
abbrev StateId := Nat

/-- Bit `d` tells that a pattern is satisfied from `d` levels above the node down to it. -/
abbrev DepthMask := BitVec 64

/-! ## Costs -/

/-- The largest cost; sums beyond it stay there. -/
def costLimit : Nat := 0xFFFFFFFF

def addCost (a b : Nat) : Nat := min (a + b) costLimit

/-! ## Labels -/

structure Choice where
  cost : Nat
  rule : RuleId
  deriving DecidableEq

structure Label where
  state : StateId
  words : Array DepthMask
  reg : Option Choice := none
  imm : Option Choice := none
  mem : Option Choice := none
  deriving DecidableEq

namespace Label

/-- A label without annotations, for a grammar of `rules` rules. -/
def blank (rules : Nat) : Label :=
  { state := 0, words := Array.replicate rules 0 }

def best (l : Label) : Nonterminal → Option Choice
  | .reg => l.reg
  | .imm => l.imm
  | .mem => l.mem

def setBest (l : Label) (x : Nonterminal) (c : Choice) : Label :=
  match x with
  | .reg => { l with reg := some c }
  | .imm => { l with imm := some c }
  | .mem => { l with mem := some c }

def word (l : Label) (rule : RuleId) : DepthMask := l.words.getD rule 0

/-- Adds the masks of `accepting` to those of the label, rule by rule. -/
def accept (l : Label) (accepting : Array DepthMask) : Label :=
  { l with words := Array.zipWith (· ||| ·) l.words accepting }

/-- What is left to improve: each recorded cost, and more than any cost where none is recorded. -/
def potential (l : Label) : Nat :=
  let rest (c : Option Choice) := c.elim (costLimit + 1) Choice.cost
  rest l.reg + rest l.imm + rest l.mem

theorem best_setBest (l : Label) (x y : Nonterminal) (c : Choice) :
    (l.setBest x c).best y = if y = x then some c else l.best y := by
  cases x <;> cases y <;> rfl

theorem word_setBest (l : Label) (x : Nonterminal) (c : Choice) (rule : RuleId) :
    (l.setBest x c).word rule = l.word rule := by
  cases x <;> rfl

theorem best_accept (l : Label) (accepting : Array DepthMask) (x : Nonterminal) :
    (l.accept accepting).best x = l.best x := by
  cases x <;> rfl

end Label

/-! ## Tables -/

structure LabelTable where
  labels : Array Label := #[]
  deriving DecidableEq

namespace LabelTable

/-- A table for `nodes` nodes, each with a blank label. -/
def blank (nodes rules : Nat) : LabelTable :=
  ⟨Array.replicate nodes (Label.blank rules)⟩

/-- Whether the table has a label for a node. -/
def covers (t : LabelTable) (id : NodeId) : Bool := id < t.labels.size

def label? (t : LabelTable) (id : NodeId) : Option Label := t.labels[id]?

def state? (t : LabelTable) (id : NodeId) : Option StateId := (t.label? id).map Label.state

/-- The mask of a rule at a node; empty outside the table. -/
def word (t : LabelTable) (id : NodeId) (rule : RuleId) : DepthMask :=
  match t.label? id with
  | some l => l.word rule
  | none => 0

/-- The choice recorded for a node and a nonterminal. -/
def best (t : LabelTable) (id : NodeId) (x : Nonterminal) : Option Choice :=
  (t.label? id).bind (·.best x)

def modify (t : LabelTable) (id : NodeId) (f : Label → Label) : LabelTable :=
  ⟨t.labels.modify id f⟩

/-- Whether `cost` is below the cost recorded for a node and a nonterminal. -/
def improves (t : LabelTable) (id : NodeId) (x : Nonterminal) (cost : Nat) : Bool :=
  match t.best id x with
  | none => true
  | some c => cost < c.cost

theorem label?_modify (t : LabelTable) (id other : NodeId) (f : Label → Label) :
    (t.modify id f).label? other =
      if id = other then (t.label? other).map f else t.label? other := by
  simp [modify, label?, Array.getElem?_modify]

end LabelTable

end Codegen
