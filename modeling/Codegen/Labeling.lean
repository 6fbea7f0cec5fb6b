import Codegen.Grammar.Rule

/-!
# Labeling — matching a tree bottom up

A walk over the tree advances the automaton along every path from the root.  On the way back a node
takes over what its state accepts and what all of its children agree on one level up, so that bit 0
of a rule's mask tells that its whole pattern matches.  Each such rule is priced, and the cheapest
one for each nonterminal is kept.  A newly recorded nonterminal is fed to the automaton in the
node's place, which is how patterns further up, and chain rules, come to see it.

* `LabelTable.price?` : the price of a rule at a node
* `Target.settle`        : the rounds over the rules at one node
* `Target.labelAt`         : the walk
-/

namespace Codegen

/-! ## Prices -/

namespace LabelTable

mutual

/-- The recorded costs of the nonterminals of a pattern laid over a node; `none` where a node kind
differs or a nonterminal has no choice. -/
def bindingCost? (t : LabelTable) (arena : Arena) : Pattern → NodeId → Except Fault (Option Nat)
  | .nt x, id => return (t.best id x).map Choice.cost
  | .node kind subs, id => do
      let n ← arena.node id
      if n.kind = kind then bindingCosts? t arena subs n.children else return none

/-- The recorded costs of several patterns, each laid over the child in its place. -/
def bindingCosts? (t : LabelTable) (arena : Arena) :
    List Pattern → List NodeId → Except Fault (Option Nat)
  | p :: ps, id :: ids => do
      match ← bindingCost? t arena p id with
      | none => return none
      | some cost => return (← bindingCosts? t arena ps ids).map (addCost cost)
  | _, _ => return some 0

end

/-- The price of a rule at a node: its base cost and the costs of what it binds. -/
def price? (t : LabelTable) (arena : Arena) (r : Rule) (id : NodeId) :
    Except Fault (Option Nat) := do
  match ← r.cost.base? arena id with
  | none => return none
  | some base => return (← t.bindingCost? arena r.pattern id).map (addCost base)

end LabelTable

/-! ## The state of a walk -/

structure Labeling where
  table : LabelTable
  trace : Trace := #[]
  deriving DecidableEq

abbrev LabelM := EStateM Fault Labeling

namespace LabelM

def ofExcept {α : Type} : Except Fault α → LabelM α
  | .ok a => pure a
  | .error f => throw f

/-- Changes the label of a node that the table covers. -/
def relabel (id : NodeId) (f : Label → Label) : LabelM Unit := do
  if (← get).table.covers id then
    modify fun l => { l with table := l.table.modify id f }
  else
    throw (.outsideTable id)

def log (e : Event) : LabelM Unit :=
  modify fun l => { l with trace := l.trace.push e }

end LabelM

/-- Where a node hangs: the state of its parent and the slot it fills there. -/
structure Place where
  parent : StateId
  slot : Nat
  deriving DecidableEq

/-- The state after reading `c` at a place, or as a root. -/
def Automaton.enter (a : Automaton) (place : Option Place) (c : Symbol) : StateId :=
  match place with
  | none => a.succ root c
  | some p => a.succ (a.succ p.parent (.child p.slot)) c

namespace Target

/-! ## One node -/

/-- Keeps a rule that matches in full and is cheaper than the choice recorded for its result.
Tells whether it was kept. -/
def consider (t : Target) (arena : Arena) (id : NodeId) (place : Option Place) (rule : RuleId)
    (r : Rule) : LabelM Bool := do
  let table := (← get).table
  if !(table.word id rule).getLsbD 0 then
    return false
  match ← LabelM.ofExcept (table.price? arena r id) with
  | none => return false
  | some cost =>
      if !table.improves id r.result cost then
        return false
      LabelM.relabel id (·.setBest r.result { cost, rule })
      LabelM.log (.labeled id r.result r.name cost)
      let state := t.automaton.enter place (.nt r.result)
      LabelM.relabel id (·.accept (t.automaton.accepting state))
      return true

/-- Considers the rules of a list, the first of them being number `rule`.  Tells whether any was
kept. -/
def round (t : Target) (arena : Arena) (id : NodeId) (place : Option Place) :
    List Rule → RuleId → LabelM Bool
  | [], _ => return false
  | r :: rest, rule => do
      let kept ← t.consider arena id place rule r
      let later ← t.round arena id place rest (rule + 1)
      return kept || later

/-- Repeats rounds until one keeps nothing. -/
def rounds (t : Target) (arena : Arena) (id : NodeId) (place : Option Place) : Nat → LabelM Unit
  | 0 => throw .endless
  | fuel + 1 => do
      if ← t.round arena id place t.grammar.rules 0 then t.rounds arena id place fuel

/-- Finds the cheapest rules at a node.  A round that keeps a rule lowers the potential of the
label, so that there are no more rounds than it allows. -/
def settle (t : Target) (arena : Arena) (id : NodeId) (place : Option Place) : LabelM Unit := do
  let label := ((← get).table.label? id).getD (.blank 0)
  t.rounds arena id place (label.potential + 1)

/-- What a first child and the others agree on, one level up. -/
def agreement (table : LabelTable) (first : NodeId) (others : List NodeId) (rule : RuleId) :
    DepthMask :=
  others.foldl (fun mask child => mask &&& (table.word child rule >>> 1))
    (table.word first rule >>> 1)

/-- Takes over what the children of a node agree on; a leaf has nothing to take over. -/
def combine (t : Target) (id : NodeId) : List NodeId → LabelM Unit
  | [] => return ()
  | first :: others => do
      let table := (← get).table
      let agreed := (Array.range t.grammar.size).map (agreement table first others)
      LabelM.relabel id (·.accept agreed)

/-! ## The walk -/

/-- Labels the subtree of a node; `fuel` bounds its height. -/
def labelAt (t : Target) (arena : Arena) : Nat → NodeId → Option Place → LabelM Unit
  | 0, _, _ => throw .endless
  | fuel + 1, id, place => do
      let n ← LabelM.ofExcept (arena.node id)
      let state := t.automaton.enter place (.kind n.kind)
      LabelM.relabel id ({ · with state })
      n.children.zipIdx.forM fun (child, slot) =>
        labelAt t arena fuel child (some { parent := state, slot })
      LabelM.relabel id (·.accept (t.automaton.accepting state))
      t.combine id n.children
      t.settle arena id place

/-- Labels the subtree of a node as a tree of its own.  On a path without repetition there are no
more nodes than the arena has. -/
def label (t : Target) (arena : Arena) (root : NodeId) : LabelM Unit :=
  t.labelAt arena (arena.size + 1) root none

/-- A blank table for an arena. -/
def unlabeled (t : Target) (arena : Arena) : Labeling :=
  { table := .blank arena.size t.grammar.size, trace := #[t.built] }

/-- Labels several subtrees, one after the other in the same table. -/
def labelAll (t : Target) (arena : Arena) (roots : List NodeId) : LabelM Unit :=
  roots.forM (t.label arena)

end Target

end Codegen
