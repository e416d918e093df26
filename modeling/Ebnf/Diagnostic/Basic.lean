/-!
# Diagnostics

What went wrong, and the piece of source it points into.  A diagnostic carries all that its
rendering needs.

* `Code`         the kinds of diagnostics and how they are numbered;
* `Snippet`      a line of source and a stretch of it;
* `Diagnostic`   a code, a message, and perhaps a snippet with a label, and notes;
* `toText`       the diagnostic on one line.
-/

namespace Ebnf

namespace Diagnostic

inductive Code where
  /-- a token of some category was expected -/
  | expectedToken
  /-- a text was expected -/
  | expectedText
  /-- a rule was expected, but it has no production or does not exist -/
  | unresolvedRule
  /-- the start rule matched and input is left over -/
  | trailingInput
  /-- terms lie too deep in each other -/
  | tooDeep
  /-- nothing is known about the failure -/
  | unknown
deriving DecidableEq

namespace Code

def name : Code → String
  | .expectedToken => "E1001"
  | .expectedText => "E1002"
  | .unresolvedRule => "E1003"
  | .trailingInput => "E1004"
  | .tooDeep => "E1005"
  | .unknown => "E9001"

end Code

structure Snippet where
  file : String
  /-- number of the line, counted from one -/
  line : Nat
  /-- byte within the line, counted from one -/
  column : Nat
  /-- the line without its end -/
  lineText : String
  /-- number of carets; at least one is drawn -/
  width : Nat := 1
deriving DecidableEq

end Diagnostic

structure Diagnostic where
  code : Diagnostic.Code
  message : String := ""
  snippet : Option Diagnostic.Snippet := none
  /-- what stands next to the carets -/
  label : String := ""
  notes : List String := []
deriving DecidableEq

namespace Diagnostic

def withMessage (d : Diagnostic) (message : String) : Diagnostic := { d with message }

def withSnippet (d : Diagnostic) (s : Snippet) : Diagnostic := { d with snippet := some s }

def withLabel (d : Diagnostic) (label : String) : Diagnostic := { d with label }

def withNote (d : Diagnostic) (note : String) : Diagnostic :=
  { d with notes := d.notes ++ [note] }

def Snippet.place (s : Snippet) : String := s!"{s.file}:{s.line}:{s.column}"

def toText (d : Diagnostic) : String :=
  let head := s!"error[{d.code.name}]: {d.message}"
  match d.snippet with
  | some s => s!"{head} at {s.place}"
  | none => head

end Diagnostic

end Ebnf
