import Ebnf.Matching.State

/-!
# Attempts to match

An attempt turns a state into one where something has matched, or stops.  A mismatch is an
ordinary stop: whoever tried may try something else.  The other stops end the whole run and pass
through everything.

* `atomic`        an attempt that gives back what it consumed and built if it stops;
* `inOrder`       terms one behind the other;
* `firstOf`       the first of some terms that matches;
* `optional`      a mismatch is a match of nothing;
* `oneOrMore`     matches until one fails or stands still;
* `occurring`     the two above, as an occurrence asks;
* `nested`        one level deeper, unless that is too deep;
* `token`, `literal`   the leaves.

The combinators take the attempt for a single term as an argument.
-/

namespace Ebnf.Matching

/-- why an attempt did not match -/
inductive Stop where
  | mismatch
  /-- references and groups lie too deep in each other -/
  | limit
  /-- the run has come back to where it was, and would do so forever -/
  | endless
deriving DecidableEq

inductive Attempt where
  | matched (s : State)
  | stopped (why : Stop) (s : State)
deriving DecidableEq

namespace Attempt

def state : Attempt → State
  | .matched s => s
  | .stopped _ s => s

/-- change the final state, whichever way the attempt ended -/
def map (f : State → State) : Attempt → Attempt
  | .matched s => .matched (f s)
  | .stopped why s => .stopped why (f s)

@[simp] theorem state_map (f : State → State) (r : Attempt) : (r.map f).state = f r.state := by
  cases r <;> rfl

end Attempt

/-- `term` does not match here -/
def miss (s : State) (term : TermId) : Attempt := .stopped .mismatch (s.offer term)

/-! ## combinators -/

def atomic (run : State → Attempt) (s : State) : Attempt :=
  let m := s.mark
  match run s with
  | .matched s' => .matched s'
  | .stopped why s' => .stopped why (s'.reset m)

def inOrder (run : TermId → State → Attempt) : List TermId → State → Attempt
  | [], s => .matched s
  | t :: ts, s =>
    match run t s with
    | .matched s' => inOrder run ts s'
    | .stopped why s' => .stopped why s'

def firstOf (run : TermId → State → Attempt) : List TermId → State → Attempt
  | [], s => .stopped .mismatch s
  | t :: ts, s =>
    match run t s with
    | .matched s' => .matched s'
    | .stopped .mismatch s' => firstOf run ts s'
    | .stopped why s' => .stopped why s'

def optional (run : State → Attempt) (s : State) : Attempt :=
  match run s with
  | .matched s' => .matched s'
  | .stopped .mismatch s' => .matched s'
  | .stopped why s' => .stopped why s'

/-- go on matching after a match that began at `start`, until a match fails or stands still -/
def more (run : State → Attempt) (term : TermId) : (rounds start : Nat) → State → Attempt
  | 0, _, s => .stopped .endless s
  | rounds + 1, start, s =>
    if start < s.pos then
      let here := s.pos
      match run s with
      | .matched s' => more run term rounds here s'
      | .stopped .mismatch s' => .matched s'
      | .stopped why s' => .stopped why s'
    else
      let here := s.pos
      .matched (s.say (.idleRepetition term here))

def oneOrMore (run : State → Attempt) (term : TermId) (rounds : Nat) (s : State) : Attempt :=
  let here := s.pos
  match run s with
  | .matched s' => more run term rounds here s'
  | .stopped why s' => .stopped why s'

def occurring (o : Occurrence) (run : State → Attempt) (term : TermId) (rounds : Nat) :
    State → Attempt :=
  let run := if o.isRepeated then oneOrMore run term rounds else run
  if o.isOptional then optional run else run

def nested (c : Setting) (run : State → Attempt) (s : State) : Attempt :=
  let depth := s.depth
  let here := s.pos
  if c.maxDepth ≤ depth then .stopped .limit (s.say (.limitReached depth here))
  else (run s.deeper).map fun s => s.withDepth depth

/-! ## leaves -/

/-- one token of one of the categories of `mask`; the end of the input, which has no token, if
`mask` has that category -/
def token (c : Setting) (term : TermId) (mask : Mask) (s : State) : Attempt :=
  let t := c.source.token s.pos
  if t.mask.isEof then
    if mask.isEof then .matched s else miss s term
  else if t.is mask then .matched (s.leaf (.token t.mask) term (s.pos + 1) t.span)
  else miss s term

def literal (c : Setting) (term : TermId) (text : String) (s : State) : Attempt :=
  match c.source.spell s.pos (Utf8.encode text) with
  | some stop => .matched (s.leaf .literal term stop (c.source.rangeSpan ⟨s.pos, stop⟩))
  | none => miss s term

/-! ## how the combinators compute -/

@[simp] theorem inOrder_nil (run : TermId → State → Attempt) (s : State) :
    inOrder run [] s = .matched s := rfl

@[simp] theorem firstOf_nil (run : TermId → State → Attempt) (s : State) :
    firstOf run [] s = .stopped .mismatch s := rfl

theorem nested_of_le {c : Setting} {run : State → Attempt} {s : State} (h : c.maxDepth ≤ s.depth) :
    nested c run s = .stopped .limit (s.say (.limitReached s.depth s.pos)) := if_pos h

theorem nested_of_lt {c : Setting} {run : State → Attempt} {s : State} (h : s.depth < c.maxDepth) :
    nested c run s = (run s.deeper).map fun s' => s'.withDepth s.depth :=
  if_neg (Nat.not_le_of_lt h)

end Ebnf.Matching
