import Codegen.Expr.Node

/-!
# Pattern — tree patterns and their alphabet

* `Nonterminal` : the kinds of result a subtree can be reduced to
* `Symbol`      : the alphabet in which the paths of a pattern are spelled
* `Pattern`     : a tree template over node kinds with nonterminals at some of its leaves
-/

namespace Codegen

/-! ## Nonterminals and symbols -/

/-- The form in which a reduced subtree leaves its value. -/
inductive Nonterminal
  | reg
  | imm
  | mem
  deriving DecidableEq

namespace Nonterminal

def all : List Nonterminal := [.reg, .imm, .mem]

/-- The place of a nonterminal in `all`. -/
def index : Nonterminal → Nat
  | .reg => 0
  | .imm => 1
  | .mem => 2

def name : Nonterminal → String
  | .reg => "Reg"
  | .imm => "Imm"
  | .mem => "Mem"

theorem mem_all (x : Nonterminal) : x ∈ all := by
  cases x <;> decide

end Nonterminal

/-- A path through a tree spells a node kind, a child index, a node kind and so on; it may end in
a nonterminal. -/
inductive Symbol
  | kind (k : NodeKind)
  | child (index : Nat)
  | nt (x : Nonterminal)
  deriving DecidableEq

/-! ## Patterns -/

/-- The position of a rule in its grammar. -/
abbrev RuleId := Nat

inductive Pattern
  | node (kind : NodeKind) (subs : List Pattern)
  | nt (x : Nonterminal)

namespace Pattern

def leaf (kind : NodeKind) : Pattern := .node kind []

def reg : Pattern := .nt .reg

def imm : Pattern := .nt .imm

def mem : Pattern := .nt .mem

def symbol : Pattern → Symbol
  | .node kind _ => .kind kind
  | .nt x => .nt x

def subs : Pattern → List Pattern
  | .node _ subs => subs
  | .nt _ => []

mutual

/-- The number of levels below the root of a pattern. -/
def depth : Pattern → Nat
  | .node _ subs => depthBelow subs
  | .nt _ => 0

/-- The number of levels a list of patterns takes up below a common parent. -/
def depthBelow : List Pattern → Nat
  | [] => 0
  | p :: ps => max (depth p + 1) (depthBelow ps)

end

mutual

/-- The first node in preorder with a number of sub-patterns other than its arity, and that
number. -/
def misfit? : Pattern → Option (NodeKind × Nat)
  | .node kind subs =>
      if subs.length = kind.arity then misfitAmong? subs else some (kind, subs.length)
  | .nt _ => none

/-- The first misfit among a list of patterns. -/
def misfitAmong? : List Pattern → Option (NodeKind × Nat)
  | [] => none
  | p :: ps => (misfit? p).or (misfitAmong? ps)

end

end Pattern

end Codegen
