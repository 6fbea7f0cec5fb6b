import Codegen.Grammar.Pattern
import Codegen.Label

/-!
# Trie — the paths of a grammar's patterns

Every pattern is spelled as its root-to-leaf paths: a node kind, a child index, a node kind and so
on, down to a leaf.  The trie has one state for each distinct beginning of such a path.

* `State`            : the path read so far, the outgoing edges, a failure link, and for each rule
  the depths of the leaves whose paths end here
* `Automaton`        : the states in order of creation, the root first
* `Automaton.insert` : adds the paths of one pattern
-/

namespace Codegen

structure State where
  /-- The symbols read from the root, the last one first. -/
  path : List Symbol
  /-- The outgoing edges in order of creation. -/
  next : List (Symbol × StateId) := []
  failure : StateId := 0
  /-- For each rule, bit `d` tells that a path to one of its leaves at depth `d` ends here. -/
  accepting : Array DepthMask
  deriving DecidableEq

structure Automaton where
  states : Array State
  /-- The number of rules, one mask for each in every state. -/
  width : Nat
  deriving DecidableEq

namespace Automaton

/-- The state of the empty path. -/
def root : StateId := 0

/-- The automaton of no pattern, for a grammar of `rules` rules. -/
def empty (rules : Nat) : Automaton :=
  { states := #[{ path := [], accepting := Array.replicate rules 0 }], width := rules }

/-! ## Reading a state -/

def size (a : Automaton) : Nat := a.states.size

def path (a : Automaton) (s : StateId) : List Symbol :=
  (a.states[s]?.map State.path).getD []

def length (a : Automaton) (s : StateId) : Nat := (a.path s).length

def edges (a : Automaton) (s : StateId) : List (Symbol × StateId) :=
  (a.states[s]?.map State.next).getD []

/-- The state one edge further. -/
def child? (a : Automaton) (s : StateId) (c : Symbol) : Option StateId :=
  (a.edges s).lookup c

def failure (a : Automaton) (s : StateId) : StateId :=
  (a.states[s]?.map State.failure).getD root

def accepting (a : Automaton) (s : StateId) : Array DepthMask :=
  (a.states[s]?.map State.accepting).getD #[]

/-- The depths accepted for one rule. -/
def mask (a : Automaton) (s : StateId) (rule : RuleId) : DepthMask :=
  (a.accepting s).getD rule 0

/-! ## Growing -/

def modify (a : Automaton) (s : StateId) (f : State → State) : Automaton :=
  { a with states := a.states.modify s f }

/-- Follows the edge `c` from `s`, making it first if there is none. -/
def grow (a : Automaton) (s : StateId) (c : Symbol) : Automaton × StateId :=
  match a.child? s c with
  | some t => (a, t)
  | none =>
      let new : State := { path := c :: a.path s, accepting := Array.replicate a.width 0 }
      let grown := a.modify s fun st => { st with next := st.next ++ [(c, a.size)] }
      ({ grown with states := grown.states.push new }, a.size)

/-- Marks the end of a path of `rule`; its leaf lies half as deep as the path is long. -/
def mark (a : Automaton) (s : StateId) (rule : RuleId) : Automaton :=
  let bit := BitVec.twoPow 64 ((a.length s - 1) / 2)
  a.modify s fun st => { st with accepting := st.accepting.modify rule (· ||| bit) }

mutual

/-- Adds the paths of a pattern that hangs below state `s`. -/
def insert (rule : RuleId) (a : Automaton) (s : StateId) : Pattern → Automaton
  | .nt x =>
      let (a, t) := a.grow s (.nt x)
      a.mark t rule
  | .node kind subs =>
      let (a, t) := a.grow s (.kind kind)
      if subs.isEmpty then a.mark t rule else insertAll rule a t 0 subs

/-- Adds the paths of the sub-patterns of state `s`, the first of them in slot `slot`. -/
def insertAll (rule : RuleId) (a : Automaton) (s : StateId) (slot : Nat) :
    List Pattern → Automaton
  | [] => a
  | p :: ps =>
      let (grown, t) := a.grow s (.child slot)
      insertAll rule (insert rule grown t p) s (slot + 1) ps

end

end Automaton

end Codegen
