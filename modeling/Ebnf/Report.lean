import Ebnf.Diagnostic.Basic
import Ebnf.Event
import Ebnf.Lexed

/-!
# Reports of failed parses

A report says what was expected at the furthest place that a match was tried at, where that is
not before the place the error points at.

* `snippet`        the line of a token, with carets below the token;
* `describe`       what was expected where a term did not match;
* `ofParseError`   the diagnostic of an error.
-/

namespace Ebnf.Report

open Diagnostic (Code Snippet)

/-- carets below the token `i` -/
def snippet (x : Lexed) (i width : Nat) : Snippet :=
  let l := x.location i
  { file := x.file
    line := l.line
    column := l.displayColumn
    lineText := x.lineText l
    width := max width 1 }

/-- a rule that has no production, or the id of something that is no rule -/
def expectedRule (g : Grammar) (rule : RuleId) : String :=
  match g.ruleName? rule with
  | some name => s!"expected rule `{name}`, which has no production"
  | none => s!"expected rule {idText rule}"

def describe (g : Grammar) (term : TermId) : Code × String :=
  match g.node? term with
  | some (.token mask _) => (.expectedToken, s!"expected {mask.toText}")
  | some (.literal text _) => (.expectedText, s!"expected '{g.text text}'")
  | some (.reference target _) => (.unresolvedRule, expectedRule g target)
  | some (.rule _ _) => (.unresolvedRule, expectedRule g term)
  | some n => (.unknown, s!"unexpected failure in {n.kindName} {idText term}")
  | none => (.unresolvedRule, s!"expected rule {idText term}")

def ofFailure (x : Lexed) (g : Grammar) (f : Failure) : Diagnostic :=
  let (code, message) := describe g f.term
  let d : Diagnostic :=
    { code, message, snippet := some (snippet x f.token 1), label := message }
  match g.ruleName? f.rule with
  | some rule => d.withNote s!"while parsing rule `{rule}`"
  | none => d

def ofParseError (x : Lexed) (g : Grammar) (e : ParseError) : Diagnostic :=
  match e.kind, e.expectation with
  | .recursionLimit _, _ =>
    { code := .tooDeep
      message := e.kind.message
      snippet := some (snippet x e.offset 1)
      label := e.kind.message
      notes := ["left-recursive rules are not supported"] }
  | .noMatch, some f => ofFailure x g f
  | .trailingInput _ _, some f => ofFailure x g f
  | .trailingInput _ _, none =>
    { code := .trailingInput
      message := "unexpected trailing input"
      snippet := some (snippet x e.offset (x.token e.offset).size)
      label := "not matched by the start rule" }
  | .noMatch, none =>
    { code := .unknown
      message := "parse failed"
      notes := ["no failure position was recorded"] }

/-- below the limit, an expectation is what is reported -/
theorem ofParseError_of_expectation {x : Lexed} {g : Grammar} {e : ParseError} {f : Failure}
    (he : e.expectation = some f) (hk : ∀ limit, e.kind ≠ .recursionLimit limit) :
    ofParseError x g e = ofFailure x g f := by
  unfold ofParseError
  rw [he]
  cases hkind : e.kind with
  | noMatch => rfl
  | trailingInput => rfl
  | recursionLimit limit => exact absurd hkind (hk limit)

end Ebnf.Report
