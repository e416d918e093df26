import Ebnf.Grammar.Basic

/-!
# Building a grammar

A grammar grows by calls that each append one node, and by `attach`, which hangs a node below
another.  A refused `attach` changes nothing.

* `add`, `intern`   append a node; append a text to the buffer;
* `attach`          give a rule its production, or a compound term its next child;
* `Refusal`         why `attach` refuses;
* `Step`, `step`    the calls as values, and one call with its answer;
* `build`           a grammar from a list of calls.
-/

namespace Ebnf.Grammar

/-! ## appending nodes -/

/-- append a node; its id is the number of nodes before -/
def add (g : Grammar) (n : Node) : Grammar × TermId := ({ g with nodes := g.nodes.push n }, g.size)

def intern (g : Grammar) (s : String) : Grammar × Text :=
  let bs := Utf8.encode s
  ({ g with buffer := g.buffer ++ bs }, ⟨g.buffer.size, bs.length⟩)

/-- a rule that has no production yet -/
def addRule (g : Grammar) (name : String) : Grammar × RuleId :=
  let (g, t) := g.intern name
  g.add (.rule t none)

/-- a reference; the target need not exist -/
def addReference (g : Grammar) (target : RuleId) (o : Occurrence) : Grammar × TermId :=
  g.add (.reference target o)

def addToken (g : Grammar) (m : Mask) (o : Occurrence) : Grammar × TermId :=
  g.add (.token m o)

def addLiteral (g : Grammar) (s : String) (o : Occurrence) : Grammar × TermId :=
  let (g, t) := g.intern s
  g.add (.literal t o)

def addAlternation (g : Grammar) : Grammar × TermId := g.add (.alternation [])

def addConcatenation (g : Grammar) : Grammar × TermId := g.add (.concatenation [])

def addGroup (g : Grammar) (o : Occurrence) : Grammar × TermId := g.add (.group [] o)

/-! ## hanging nodes below others -/

inductive Refusal where
  /-- there is no such node -/
  | unknownNode (id : TermId)
  /-- leaves have no children -/
  | leafParent (id : TermId) (kind : String)
  /-- a rule has one production -/
  | productionExists (name : String)
  /-- rules are used through references -/
  | childIsRule (name : String)
deriving DecidableEq

def Refusal.message : Refusal → String
  | .unknownNode id => s!"unknown grammar node {idText id}"
  | .leafParent id kind => s!"cannot attach children to {kind} term {idText id}"
  | .productionExists name => s!"rule `{name}` already has a production"
  | .childIsRule name =>
    s!"rule `{name}` cannot be attached as a term; reference it with a rule term"

/-- `child` below a node that has the id `parent` -/
def below (g : Grammar) (parent child : TermId) : Node → Except Refusal Node
  | .rule name none => .ok (.rule name (some child))
  | .rule name (some _) => .error (.productionExists (g.text name))
  | .alternation ts => .ok (.alternation (ts ++ [child]))
  | .concatenation ts => .ok (.concatenation (ts ++ [child]))
  | .group ts o => .ok (.group (ts ++ [child]) o)
  | n => .error (.leafParent parent n.kindName)

/-- hang `child` below `parent`: as the production of a rule, or behind the other children of a
compound term -/
def attach (g : Grammar) (parent child : TermId) : Except Refusal Grammar :=
  match g.node? child with
  | none => .error (.unknownNode child)
  | some (.rule name _) => .error (.childIsRule (g.text name))
  | some _ =>
    match g.node? parent with
    | none => .error (.unknownNode parent)
    | some n => (g.below parent child n).map fun n =>
        { g with nodes := g.nodes.setIfInBounds parent n }

/-! ## calls as values -/

inductive Step where
  | rule (name : String)
  | reference (target : RuleId) (occurrence : Occurrence)
  | token (mask : Mask) (occurrence : Occurrence)
  | literal (text : String) (occurrence : Occurrence)
  | alternation
  | concatenation
  | group (occurrence : Occurrence)
  | attach (parent child : TermId)
deriving DecidableEq

/-- the answer to a call -/
inductive Reply where
  | added (id : TermId)
  | attached
  | refused (why : Refusal)
deriving DecidableEq

def added (r : Grammar × TermId) : Grammar × Reply := (r.1, .added r.2)

def step (g : Grammar) : Step → Grammar × Reply
  | .rule name => added (g.addRule name)
  | .reference target o => added (g.addReference target o)
  | .token m o => added (g.addToken m o)
  | .literal s o => added (g.addLiteral s o)
  | .alternation => added g.addAlternation
  | .concatenation => added g.addConcatenation
  | .group o => added (g.addGroup o)
  | .attach parent child =>
    match g.attach parent child with
    | .ok g' => (g', .attached)
    | .error why => (g, .refused why)

/-- make the calls of a list in order; the answers are in the same order -/
def run (g : Grammar) : List Step → Grammar × List Reply
  | [] => (g, [])
  | s :: rest =>
    let (g, r) := g.step s
    let (g, rs) := g.run rest
    (g, r :: rs)

def build (steps : List Step) : Grammar := (run {} steps).1

theorem size_add (g : Grammar) (n : Node) : (g.add n).1.size = g.size + 1 := Array.size_push _

theorem node?_add (g : Grammar) (n : Node) (id : Nat) :
    (g.add n).1.node? id = if id = g.size then some n else g.node? id := by
  show (g.nodes.push n)[id]? = _
  rw [Array.getElem?_push]
  rfl

theorem run_nil (g : Grammar) : g.run [] = (g, []) := rfl

theorem run_cons (g : Grammar) (s : Step) (rest : List Step) :
    g.run (s :: rest) = (((g.step s).1.run rest).1, (g.step s).2 :: ((g.step s).1.run rest).2) := rfl

theorem length_run (g : Grammar) (steps : List Step) : (g.run steps).2.length = steps.length := by
  induction steps generalizing g with
  | nil => rfl
  | cons s rest ih => rw [run_cons, List.length_cons, List.length_cons, ih]

theorem run_append (g : Grammar) (a b : List Step) :
    g.run (a ++ b) = (((g.run a).1.run b).1, (g.run a).2 ++ ((g.run a).1.run b).2) := by
  induction a generalizing g with
  | nil => rfl
  | cons s rest ih => rw [List.cons_append, run_cons, ih, run_cons]; rfl

/-- a refused `attach` changes nothing -/
theorem step_attach_refused {g : Grammar} {parent child : TermId} {why : Refusal}
    (h : (g.step (.attach parent child)).2 = .refused why) :
    (g.step (.attach parent child)).1 = g := by
  simp only [step] at h ⊢
  cases e : g.attach parent child with
  | ok g' => rw [e] at h; cases h
  | error _ => rfl

end Ebnf.Grammar
