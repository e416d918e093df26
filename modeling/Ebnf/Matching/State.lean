import Ebnf.Event
import Ebnf.Tree.Basic

/-!
# What a run reads and what it changes

* `Setting`     the source, the grammar and the limit: a run only reads them;
* `State`       the place in the input, the tree so far, and what the run knows about itself;
* `Mark`        the part of a state that an undone attempt gives back: place and tree;
* `mark`, `reset`    take a mark, go back to it;
* `offer`       records a failure, if none lies further into the input;
* `leaf`        appends a token or a literal and moves on past it;
* `opened`, `closed`   begin and end the node of a rule.

The failure, the log and the peak are never undone.
-/

namespace Ebnf.Matching

structure Setting where
  source : Lexed
  grammar : Grammar
  /-- how many references and groups may lie in each other -/
  maxDepth : Nat

/-- the largest values of a run, undone attempts included -/
structure Peak where
  pos : Nat := 0
  depth : Nat := 0
  /-- number of nodes of the tree -/
  nodes : Nat := 0
deriving DecidableEq

structure State where
  /-- index of the next token -/
  pos : Nat := 0
  tree : Tree := {}
  /-- the node that matches are hung below -/
  parent : NodeId := Tree.rootId
  /-- the rule whose production is being matched -/
  rule : RuleId
  /-- how many references and groups lie around the current term -/
  depth : Nat := 0
  /-- the furthest failure so far -/
  failure : Option Failure := none
  log : Array Event := #[]
  peak : Peak := {}
deriving DecidableEq

structure Mark where
  pos : Nat
  nodes : Nat
deriving DecidableEq

namespace State

def mark (s : State) : Mark := ⟨s.pos, s.tree.size⟩

def reset (s : State) (m : Mark) : State :=
  { s with pos := m.pos, tree := s.tree.truncate m.nodes }

def say (s : State) (e : Event) : State := { s with log := s.log.push e }

def offer (s : State) (term : TermId) : State :=
  { s with failure := some (Failure.furthest s.failure ⟨s.rule, s.pos, term⟩) }

def leaf (s : State) (kind : Tree.Kind) (term : TermId) (stop : Nat) (span : Span) : State :=
  let nodes := s.tree.size + 1
  { s with
    pos := stop
    tree := s.tree.pushLeaf kind term s.parent ⟨s.pos, stop⟩ span
    peak := { s.peak with pos := max s.peak.pos stop, nodes := max s.peak.nodes nodes } }

/-- begin the node of `rule`; it becomes the parent of what follows -/
def opened (s : State) (rule : RuleId) (term : Option TermId) (parent : Option NodeId) : State :=
  let id := s.tree.size
  { s with
    tree := s.tree.openNode rule term parent s.pos
    parent := id
    peak := { s.peak with nodes := max s.peak.nodes (id + 1) } }

/-- end the node `id`, which began at the token `start` -/
def closed (s : State) (c : Setting) (id : NodeId) (start : Nat) : State :=
  { s with tree := s.tree.closeNode id s.pos (c.source.rangeSpan ⟨start, s.pos⟩) }

def deeper (s : State) : State :=
  { s with
    depth := s.depth + 1
    peak := { s.peak with depth := max s.peak.depth (s.depth + 1) } }

def withParent (s : State) (parent : NodeId) : State := { s with parent }

def withRule (s : State) (rule : RuleId) : State := { s with rule }

def withDepth (s : State) (depth : Nat) : State := { s with depth }

end State

end Ebnf.Matching
