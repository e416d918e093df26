import Ebnf.Grammar.Basic
import Ebnf.Lexed

/-!
# Parse trees

The nodes of a parse lie in one row, each node before its descendants and those right behind it.
So a node's subtree is a stretch of the row, an unfinished parse is undone by cutting the row, and
a walk over a subtree is a walk along the row.

* `Kind`, `Node`   a matched rule, token or literal, with what it covers;
* `Tree`           the row;
* `openNode`       appends a node whose descendants follow;
* `closeNode`      says that they are complete;
* `pushLeaf`       appends a node without descendants;
* `truncate`       cuts the row.
-/

namespace Ebnf

/-- index of a node of a tree -/
abbrev NodeId := Nat

namespace Tree

def idText (id : NodeId) : String := s!"NodeId({id})"

inductive Kind where
  | rule (id : RuleId)
  /-- one token, with its own categories -/
  | token (mask : Mask)
  /-- any number of tokens that spell a text -/
  | literal
deriving DecidableEq

structure Node where
  kind : Kind
  /-- the term that matched; the root has none -/
  term : Option TermId
  parent : Option NodeId
  tokens : TokenRange
  span : Span
  /-- the index after the last descendant, once that is known -/
  subtreeEnd : Option Nat
deriving DecidableEq

namespace Node

def rule? (n : Node) : Option RuleId :=
  match n.kind with
  | .rule id => some id
  | _ => none

def isTerminal (n : Node) : Bool :=
  match n.kind with
  | .rule _ => false
  | _ => true

/-- the node with its descendants complete -/
def closed (n : Node) (tokenStop : Nat) (span : Span) (subtreeEnd : Nat) : Node :=
  { n with tokens := ⟨n.tokens.start, tokenStop⟩, span, subtreeEnd := some subtreeEnd }

theorem isTerminal_iff {n : Node} : n.isTerminal = true ↔ n.rule? = none := by
  unfold isTerminal rule?
  cases n.kind <;> simp

end Node

end Tree

structure Tree where
  nodes : Array Tree.Node := #[]
deriving DecidableEq

namespace Tree

def size (t : Tree) : Nat := t.nodes.size

def isEmpty (t : Tree) : Bool := t.nodes.isEmpty

def rootId : NodeId := 0

def root? (t : Tree) : Option NodeId := if t.isEmpty then none else some rootId

def node? (t : Tree) (id : NodeId) : Option Node := t.nodes[id]?

/-- append a node whose descendants follow; its id is the number of nodes before -/
def openNode (t : Tree) (rule : RuleId) (term : Option TermId) (parent : Option NodeId)
    (tokenStart : Nat) : Tree :=
  ⟨t.nodes.push ⟨.rule rule, term, parent, ⟨tokenStart, tokenStart⟩, .point 0, none⟩⟩

/-- the descendants of `id` are complete -/
def closeNode (t : Tree) (id : NodeId) (tokenStop : Nat) (span : Span) : Tree :=
  let stop := t.nodes.size
  ⟨t.nodes.modify id fun n => n.closed tokenStop span stop⟩

def pushLeaf (t : Tree) (kind : Kind) (term : TermId) (parent : NodeId) (tokens : TokenRange)
    (span : Span) : Tree :=
  let stop := t.nodes.size + 1
  ⟨t.nodes.push ⟨kind, some term, some parent, tokens, span, some stop⟩⟩

def truncate (t : Tree) (n : Nat) : Tree := ⟨t.nodes.shrink n⟩

theorem toList_truncate (t : Tree) (n : Nat) :
    (t.truncate n).nodes.toList = t.nodes.toList.take n := Array.toList_shrink

@[simp] theorem size_openNode (t : Tree) (rule : RuleId) (term : Option TermId)
    (parent : Option NodeId) (tokenStart : Nat) :
    (t.openNode rule term parent tokenStart).size = t.size + 1 := Array.size_push _

@[simp] theorem size_closeNode (t : Tree) (id : NodeId) (tokenStop : Nat) (span : Span) :
    (t.closeNode id tokenStop span).size = t.size := Array.size_modify

@[simp] theorem size_pushLeaf (t : Tree) (kind : Kind) (term : TermId) (parent : NodeId)
    (tokens : TokenRange) (span : Span) :
    (t.pushLeaf kind term parent tokens span).size = t.size + 1 := Array.size_push _

@[simp] theorem size_truncate (t : Tree) (n : Nat) : (t.truncate n).size = min n t.size :=
  Array.size_shrink

end Tree

end Ebnf
