import Ebnf.Mask
import Ebnf.Occurrence
import Ebnf.Utf8

/-!
# Grammars

A grammar is a row of nodes, named by their index.  A rule has a name and at most one production;
an alternation, a concatenation and a group have children; a reference, a token and a literal are
leaves.  Rules and terms share the indices, so a reference may name a rule that has no production
yet, or no rule at all.

Names and literals lie one behind the other in a buffer that only grows.

* `Node`          a rule or a term;
* `Grammar`       the nodes and the buffer;
* `node?`         the node of an id;
* `text`          the text at a place of the buffer;
* `ruleName?`, `production?`, `children`, `occurrence`   parts of a node;
* `rules`, `findRule?`   the rules in the order of their ids, and the first of a name.
-/

namespace Ebnf

/-- index of a node of a grammar -/
abbrev TermId := Nat

/-- index of a node of a grammar that ought to be a rule -/
abbrev RuleId := Nat

def idText (id : Nat) : String := s!"#{id}"

namespace Grammar

/-- a place of the buffer -/
structure Text where
  offset : Nat
  size : Nat
deriving DecidableEq

inductive Node where
  /-- a named rule -/
  | rule (name : Text) (production : Option TermId)
  /-- a match of another rule -/
  | reference (target : RuleId) (occurrence : Occurrence)
  /-- one token of one of the categories -/
  | token (mask : Mask) (occurrence : Occurrence)
  /-- tokens that spell a text -/
  | literal (text : Text) (occurrence : Occurrence)
  /-- the first child that matches -/
  | alternation (children : List TermId)
  /-- all children, one behind the other -/
  | concatenation (children : List TermId)
  /-- all children, one behind the other, as often as the group occurs -/
  | group (children : List TermId) (occurrence : Occurrence)
deriving DecidableEq

namespace Node

def occurrence : Node → Occurrence
  | .reference _ o => o
  | .token _ o => o
  | .literal _ o => o
  | .group _ o => o
  | .rule _ _ => .one
  | .alternation _ => .one
  | .concatenation _ => .one

def children : Node → List TermId
  | .alternation ts => ts
  | .concatenation ts => ts
  | .group ts _ => ts
  | _ => []

def kindName : Node → String
  | .rule _ _ => "rule"
  | .reference _ _ => "rule reference"
  | .token _ _ => "token"
  | .literal _ _ => "literal"
  | .alternation _ => "alternation"
  | .concatenation _ => "concatenation"
  | .group _ _ => "group"

def isRule : Node → Bool
  | .rule _ _ => true
  | _ => false

end Node

end Grammar

structure Grammar where
  nodes : Array Grammar.Node := #[]
  buffer : Array UInt8 := #[]

namespace Grammar

def node? (g : Grammar) (id : Nat) : Option Node := g.nodes[id]?

/-- the text at a place of the buffer; empty if the place lies outside or cuts a character -/
def text (g : Grammar) (t : Text) : String :=
  if t.offset + t.size ≤ g.buffer.size then
    (Utf8.decode? (g.buffer.extract t.offset (t.offset + t.size)).toList).getD ""
  else ""

/-- the id itself, if it is a rule's -/
def asRule? (g : Grammar) (id : TermId) : Option RuleId :=
  match g.node? id with
  | some (.rule _ _) => some id
  | _ => none

def ruleName? (g : Grammar) (id : RuleId) : Option String :=
  match g.node? id with
  | some (.rule name _) => some (g.text name)
  | _ => none

def production? (g : Grammar) (id : RuleId) : Option TermId :=
  match g.node? id with
  | some (.rule _ production) => production
  | _ => none

/-- children of an alternation, concatenation or group; nothing else has any -/
def children (g : Grammar) (id : TermId) : List TermId :=
  match g.node? id with
  | some n => n.children
  | none => []

def occurrence (g : Grammar) (id : TermId) : Occurrence :=
  match g.node? id with
  | some n => n.occurrence
  | none => .one

def size (g : Grammar) : Nat := g.nodes.size

def rules (g : Grammar) : List RuleId :=
  (List.range g.size).filter fun id => (g.asRule? id).isSome

def findRule? (g : Grammar) (name : String) : Option RuleId :=
  g.rules.find? fun id => g.ruleName? id == some name

theorem node?_of_size_le {g : Grammar} {id : Nat} (h : g.size ≤ id) : g.node? id = none :=
  Array.getElem?_eq_none h

theorem lt_size_of_node? {g : Grammar} {id : Nat} {n : Node} (h : g.node? id = some n) :
    id < g.size := (Array.getElem?_eq_some_iff.mp h).1

theorem production?_of_node? {g : Grammar} {id : RuleId} {name : Text}
    {production : Option TermId} (h : g.node? id = some (.rule name production)) :
    g.production? id = production := by
  rw [production?, h]

theorem production?_eq_none {g : Grammar} {id : RuleId}
    (h : ∀ name production, g.node? id ≠ some (.rule name production)) :
    g.production? id = none := by
  unfold production?
  split
  · rename_i name production hn
    exact absurd hn (h name production)
  · rfl

theorem production?_eq_some_iff {g : Grammar} {id : RuleId} {p : TermId} :
    g.production? id = some p ↔ ∃ name, g.node? id = some (.rule name (some p)) := by
  constructor
  · intro h
    unfold production? at h
    split at h
    · rename_i name production hn
      subst h
      exact ⟨name, hn⟩
    · cases h
  · rintro ⟨name, hn⟩
    exact production?_of_node? hn

theorem mem_rules {g : Grammar} {id : RuleId} :
    id ∈ g.rules ↔ ∃ name production, g.node? id = some (.rule name production) := by
  simp only [rules, List.mem_filter, List.mem_range, asRule?]
  constructor
  · rintro ⟨_, h⟩
    split at h
    · exact ⟨_, _, by assumption⟩
    · cases h
  · rintro ⟨name, production, h⟩
    exact ⟨lt_size_of_node? h, by rw [h]; rfl⟩

end Grammar

end Ebnf
