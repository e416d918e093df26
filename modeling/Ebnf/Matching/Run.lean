import Ebnf.Matching.Attempt

/-!
# Matching a grammar

* `body`         the production of a rule;
* `underRule`    the production of a rule, below a node of its own, which `leave` ends;
* `once`         a single match of a node, whatever its occurrence;
* `attempt`      a term, as often as it may occur, with a bound on nested attempts;
* `term`         the same with the bound `height`, which never cuts a run that ends;
* `run`          a start rule, below the root of the tree.

What an attempt does next depends only on its term, the place in the input and the depth.  Should
the same three meet again inside the attempt, the run would go round forever; so no run that ends
nests more attempts than there are such triples, and `height` counts them.
-/

namespace Ebnf.Matching

/-- match the production of `rule` with `again`; `term` is what fails if there is no production -/
def body (c : Setting) (again : TermId → State → Attempt) (term : TermId) (rule : RuleId)
    (s : State) : Attempt :=
  match c.grammar.node? rule with
  | some (.rule name (some production)) =>
    let outer := s.rule
    let here := s.pos
    let name := c.grammar.text name
    (again production ((s.say (.enterRule name here)).withRule rule)).map fun s => s.withRule outer
  | some (.rule name none) => miss (s.say (.noProduction (c.grammar.text name))) term
  | _ => miss (s.say (.notARule rule)) term

/-- end the node that began at the mark, if its production matched; `outer` is the parent again -/
def leave (c : Setting) (m : Mark) (outer : NodeId) : Attempt → Attempt
  | .matched s => .matched ((s.withParent outer).closed c m.nodes m.pos)
  | .stopped why s => .stopped why (s.withParent outer)

/-- match `rule` below a new node, which is hung below the current parent -/
def underRule (c : Setting) (again : TermId → State → Attempt) (term : TermId) (rule : RuleId)
    (s : State) : Attempt :=
  leave c s.mark s.parent (body c again term rule (s.opened rule (some term) (some s.parent)))

def once (c : Setting) (again : TermId → State → Attempt) (term : TermId) :
    Grammar.Node → State → Attempt
  | .rule _ _, s => miss (s.say (.ruleAsTerm term)) term
  | .reference target _, s => nested c (underRule c again term target) s
  | .token mask _, s => token c term mask s
  | .literal text _, s => literal c term (c.grammar.text text) s
  | .alternation ts, s => firstOf again ts s
  | .concatenation ts, s => inOrder again ts s
  | .group ts _, s => nested c (inOrder again ts) s

/-- one more than a repeated term can match while moving on -/
def rounds (c : Setting) : Nat := c.source.size + 1

/-- match a term, with at most so many attempts in each other; each single match is all or
nothing -/
def attempt (c : Setting) : (height : Nat) → TermId → State → Attempt
  | 0, _, s => .stopped .endless s
  | height + 1, term, s =>
    match c.grammar.node? term with
    | none => miss (s.say (.missingTerm term)) term
    | some n =>
      occurring n.occurrence (atomic (once c (attempt c height) term n)) term (rounds c) s

/-- number of triples of a depth, a place in the input and a term -/
def height (c : Setting) : Nat := (c.maxDepth + 1) * (c.source.size + 1) * (c.grammar.size + 1)

def term (c : Setting) : TermId → State → Attempt := attempt c (height c)

/-- match the production of `start` below the root; the root is not closed yet -/
def run (c : Setting) (start : RuleId) (log : Array Event) : Attempt :=
  let s : State := { rule := start, log }
  body c (term c) start start (s.opened start none none)

theorem attempt_zero (c : Setting) (t : TermId) (s : State) :
    attempt c 0 t s = .stopped .endless s := rfl

theorem attempt_succ (c : Setting) (height : Nat) (t : TermId) (s : State) :
    attempt c (height + 1) t s =
      match c.grammar.node? t with
      | none => miss (s.say (.missingTerm t)) t
      | some n =>
        occurring n.occurrence (atomic (once c (attempt c height) t n)) t (rounds c) s := rfl

theorem height_pos (c : Setting) : 0 < height c := by
  unfold height
  exact Nat.mul_pos (Nat.mul_pos (Nat.succ_pos _) (Nat.succ_pos _)) (Nat.succ_pos _)

end Ebnf.Matching
