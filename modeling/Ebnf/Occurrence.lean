/-!
# How often a term may match

Two bits: a term may be optional, and it may be repeated.  Further bits are kept and mean nothing.

* `one`        exactly one match;
* `optional`   at most one;
* `repeated`   one or more;
* `star`       any number.
-/

namespace Ebnf

structure Occurrence where
  bits : UInt8
deriving DecidableEq

namespace Occurrence

def one : Occurrence := ⟨0⟩
def optional : Occurrence := ⟨1⟩
def repeated : Occurrence := ⟨2⟩
def star : Occurrence := ⟨3⟩

/-- no match will do -/
def isOptional (o : Occurrence) : Bool := o.bits &&& 1 == 1

/-- several matches will do -/
def isRepeated (o : Occurrence) : Bool := o.bits &&& 2 == 2

/-- the mark behind a term in written grammars -/
def suffix (o : Occurrence) : String :=
  match o.isOptional, o.isRepeated with
  | false, false => ""
  | true, false => "?"
  | false, true => "+"
  | true, true => "*"

@[simp] theorem isOptional_one : one.isOptional = false := rfl
@[simp] theorem isRepeated_one : one.isRepeated = false := rfl

end Occurrence

end Ebnf
