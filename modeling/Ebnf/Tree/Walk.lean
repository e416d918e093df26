import Ebnf.Tree.Basic

/-!
# Walks over parse trees

Every walk goes along the stretch of the row that a subtree takes up.  An id that the tree does not
have stands for an empty stretch.

* `subtree`     a node and its descendants;
* `children`    the nodes right below a node: from one to the next over the first one's subtree;
* `terminals`   the tokens and literals of a subtree;
* `rules`       the outermost matches of a rule in a subtree;
* `rule?`       the first match of a rule in a subtree;
* `text`        the text that a subtree covers.
-/

namespace Ebnf.Tree

/-- the index after the subtree of `id` -/
def stop (t : Tree) (id : NodeId) : Nat :=
  match t.node? id with
  | some n => n.subtreeEnd.getD t.size
  | none => id

def descendants (t : Tree) (id : NodeId) : Nat := t.stop id - (id + 1)

def ruleOf (t : Tree) (id : NodeId) : Option RuleId := (t.node? id).bind Node.rule?

def isTerminal (t : Tree) (id : NodeId) : Bool := (t.node? id).any Node.isTerminal

def subtree (t : Tree) (id : NodeId) : List NodeId := List.range' id (t.stop id - id)

/-- of `ids`, once the first `skip` are passed over, those that no earlier one has below it -/
def siblings (t : Tree) : (skip : Nat) → (ids : List NodeId) → List NodeId
  | _, [] => []
  | skip + 1, _ :: ids => t.siblings skip ids
  | 0, id :: ids => id :: t.siblings (t.descendants id) ids

def children (t : Tree) (id : NodeId) : List NodeId :=
  t.siblings 0 (List.range' (id + 1) (t.descendants id))

def terminals (t : Tree) (id : NodeId) : List NodeId := (t.subtree id).filter t.isTerminal

/-- of `ids`, once the first `skip` are passed over, the matches of `rule` that no earlier match
has below it -/
def outermost (t : Tree) (rule : RuleId) : (skip : Nat) → (ids : List NodeId) → List NodeId
  | _, [] => []
  | skip + 1, _ :: ids => t.outermost rule skip ids
  | 0, id :: ids =>
    if t.ruleOf id = some rule then id :: t.outermost rule (t.descendants id) ids
    else t.outermost rule 0 ids

/-- the matches of `rule` in the subtree of `id` that lie in no other such match -/
def rules (t : Tree) (id : NodeId) (rule : RuleId) : List NodeId :=
  t.outermost rule 0 (t.subtree id)

def rule? (t : Tree) (id : NodeId) (rule : RuleId) : Option NodeId :=
  (t.subtree id).find? fun n => t.ruleOf n = some rule

def bytes (t : Tree) (x : Lexed) (id : NodeId) : List UInt8 :=
  match t.node? id with
  | some n => x.spanBytes n.span
  | none => []

/-- the text of the tokens and literals of the subtree of `id`, one behind the other -/
def text (t : Tree) (x : Lexed) (id : NodeId) : String :=
  Utf8.decodeLossy ((t.terminals id).flatMap (t.bytes x))

theorem stop_of_none {t : Tree} {id : NodeId} (h : t.node? id = none) : t.stop id = id := by
  rw [stop, h]

theorem subtree_of_none {t : Tree} {id : NodeId} (h : t.node? id = none) : t.subtree id = [] := by
  rw [subtree, stop_of_none h, Nat.sub_self]
  rfl

theorem children_of_none {t : Tree} {id : NodeId} (h : t.node? id = none) :
    t.children id = [] := by
  have e : t.descendants id = 0 := by rw [descendants, stop_of_none h]; omega
  rw [children, e]
  rfl

theorem mem_subtree {t : Tree} {id n : NodeId} : n ∈ t.subtree id ↔ id ≤ n ∧ n < t.stop id := by
  have key : ∀ a b c : Nat, (a ≤ c ∧ c < a + (b - a)) ↔ (a ≤ c ∧ c < b) := by omega
  rw [subtree, List.mem_range'_1]
  exact key _ _ _

end Ebnf.Tree
