import Codegen.Automaton.Trie

/-!
# Links — failure links and the transition function

The failure link of a state leads to the longest shorter path that ends like it and is in the trie
as well.  Links are set in order of path length, each from those of shorter paths, and a state then
also accepts what its link accepts.

* `Automaton.succ` : the transition function, defined for every state and symbol
* `Automaton.walk` : the state after a word
-/

namespace Codegen
namespace Automaton

/-! ## Transitions -/

/-- Looks for an edge `c` at `s` and along its failure links; `fuel` bounds the links followed. -/
def follow (a : Automaton) : Nat → StateId → Symbol → StateId
  | 0, _, _ => root
  | fuel + 1, s, c =>
      match a.child? s c with
      | some t => t
      | none => if s = root then root else a.follow fuel (a.failure s) c

/-- The transition function.  A failure link leads to a shorter path, so there are no more links to
follow than symbols on the path. -/
def succ (a : Automaton) (s : StateId) (c : Symbol) : StateId :=
  a.follow (a.length s + 1) s c

def walk (a : Automaton) (w : List Symbol) : StateId :=
  w.foldl a.succ root

/-! ## Setting the links -/

/-- Sets the link of `t`, which the edge `c` leads to from `s`, and takes over what it accepts. -/
def link (a : Automaton) (s : StateId) (c : Symbol) (t : StateId) : Automaton :=
  let target := if s = root then root else a.succ (a.failure s) c
  let inherited := a.accepting target
  a.modify t fun st =>
    { st with
      failure := target
      accepting := Array.zipWith (· ||| ·) st.accepting inherited }

/-- Sets the links of the states one edge after `s`. -/
def linkEdges (a : Automaton) (s : StateId) : Automaton :=
  (a.edges s).foldl (fun a (c, t) => a.link s c t) a

/-- The states by path length. -/
def levels (a : Automaton) : List StateId :=
  let height := a.states.foldl (fun h st => max h st.path.length) 0
  (List.range (height + 1)).flatMap fun n => (List.range a.size).filter (a.length · = n)

def linkAll (a : Automaton) : Automaton :=
  a.levels.foldl linkEdges a

/-- The automaton of a list of patterns, one for each rule. -/
def ofPatterns (patterns : List Pattern) : Automaton :=
  let trie := patterns.zipIdx.foldl (fun a (p, rule) => a.insert rule root p)
    (empty patterns.length)
  trie.linkAll

/-! ## The alphabet -/

/-- The symbols that a tree can spell. -/
def alphabet : List Symbol :=
  let slots := (NodeKind.all.map NodeKind.arity).foldl max 0
  NodeKind.all.map .kind ++ (List.range slots).map .child ++ Nonterminal.all.map .nt

end Automaton
end Codegen
