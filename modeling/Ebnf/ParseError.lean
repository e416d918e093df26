import Ebnf.Grammar.Basic

/-!
# Failed parses

* `Failure`      a term that did not match, where that was tried furthest into the input;
* `ParseError`   why a whole parse failed, and the token it points at.
-/

namespace Ebnf

structure Failure where
  /-- the rule whose production was being matched -/
  rule : RuleId
  /-- index of the token where the match began -/
  token : Nat
  /-- the term that did not match -/
  term : TermId
deriving DecidableEq

/-- of two failures the later one, unless the earlier one lies further into the input -/
def Failure.furthest (recorded : Option Failure) (new : Failure) : Failure :=
  match recorded with
  | some old => if new.token < old.token then old else new
  | none => new

/-- the new failure is recorded, or the old one stays -/
theorem Failure.furthest_cases (recorded : Option Failure) (new : Failure) :
    furthest recorded new = new ∨ recorded = some (furthest recorded new) := by
  unfold furthest
  cases recorded with
  | none => exact .inl rfl
  | some old =>
    by_cases hlt : new.token < old.token
    · exact .inr (congrArg some (if_pos hlt).symm)
    · exact .inl (if_neg hlt)

/-- the recorded failure never falls back -/
theorem Failure.token_le_furthest (old new : Failure) :
    old.token ≤ (furthest (some old) new).token := by
  unfold furthest
  dsimp only
  by_cases hlt : new.token < old.token
  · exact Nat.le_of_eq (congrArg token (if_pos hlt).symm)
  · rw [if_neg hlt]
    exact Nat.le_of_not_lt hlt

namespace ParseError

inductive Kind where
  /-- the start rule does not match -/
  | noMatch
  /-- the start rule matches, but not up to the end -/
  | trailingInput (consumed total : Nat)
  /-- terms lie deeper in each other than allowed -/
  | recursionLimit (limit : Nat)
deriving DecidableEq

def Kind.message : Kind → String
  | .noMatch => "input does not match the start rule"
  | .trailingInput consumed total => s!"start rule matched {consumed} of {total} tokens"
  | .recursionLimit limit => s!"recursion limit of {limit} exceeded"

end ParseError

structure ParseError where
  kind : ParseError.Kind
  /-- index of the token the error points at -/
  offset : Nat
  failure : Option Failure
deriving DecidableEq

namespace ParseError

def message (e : ParseError) : String := s!"{e.kind.message} (at token {e.offset})"

/-- the recorded failure, if it lies at the error's token or further into the input -/
def expectation (e : ParseError) : Option Failure :=
  e.failure.filter fun f => e.offset ≤ f.token

end ParseError

end Ebnf
