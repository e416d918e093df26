import Ebnf.Diagnostic.Basic

/-!
# Writing diagnostics

A diagnostic is written part by part, from its header to its last note.  Where a part has a style, an
emitter with colours writes the style's code before it and a reset behind it, and one without writes
the part only.

* `ColorMode`, `Style`           when to use colour, and what it may be;
* `caretIndent`                  the blank space that brings a caret below a column;
* `Chunk`                        what is written at once: a text, a code or a reset;
* `Emitter`                      whether to use colours, and what was written so far;
* `Emit`                         a step that writes;
* `writeSnippet`, `writeNote`    the parts of a diagnostic;
* `emit`, `emitAll`              whole diagnostics, one behind the other;
* `after`, `output`              the emitter after that, and what was written, as one text.
-/

namespace Ebnf

/-! ## colour -/

inductive ColorMode where
  /-- colour on a terminal only -/
  | auto
  | always
  | never
deriving DecidableEq

namespace ColorMode

/-- how output is coloured if nothing else is said -/
def standard : ColorMode := .auto

def useColors (m : ColorMode) (terminal : Bool) : Bool :=
  match m with
  | .auto => terminal
  | .always => true
  | .never => false

end ColorMode

inductive Style where
  | error
  | bold
  | gutter
deriving DecidableEq

/-- what switches the style on -/
def Style.opening : Style → String
  | .error => "\x1b[1;31m"
  | .bold => "\x1b[1m"
  | .gutter => "\x1b[1;34m"

/-- what switches every style off -/
def Style.reset : String := "\x1b[0m"

/-! ## the indent -/

namespace Diagnostic

/-- blank space below the characters that begin within the first `width` bytes, a tab below a tab;
where the characters end early, a space for each byte that is missing -/
def caretIndent : (width : Nat) → List Char → List Char
  | 0, _ => []
  | width + 1, [] => List.replicate (width + 1) ' '
  | width + 1, c :: cs =>
    (if c = '\t' then '\t' else ' ') :: caretIndent (width + 1 - c.utf8Size) cs

theorem caretIndent_zero (cs : List Char) : caretIndent 0 cs = [] := by
  cases cs <;> rfl

end Diagnostic

/-! ## emitters -/

inductive Chunk where
  | text (s : String)
  /-- the code that switches a style on -/
  | opening (s : Style)
  /-- the code that switches every style off -/
  | reset
deriving DecidableEq

def Chunk.toText : Chunk → String
  | text s => s
  | opening s => s.opening
  | reset => Style.reset

structure Emitter where
  colors : Bool
  /-- what was written, in order -/
  written : List Chunk := []
deriving DecidableEq

abbrev Emit := StateM Emitter Unit

namespace Emitter

open Diagnostic (Code Snippet caretIndent)

def ofMode (m : ColorMode) (terminal : Bool) : Emitter := { colors := m.useColors terminal }

/-- an emitter without colours, for logs -/
def plain : Emitter := ofMode .never false

def write (cs : List Chunk) : Emit := modify fun e => { e with written := e.written ++ cs }

def writeText (s : String) : Emit := write [.text s]

def writeColored (text : String) (s : Style) : Emit := do
  if (← get).colors then write [.opening s, .text text, .reset]
  else writeText text

def writeLevel : Emit := writeColored "error" .error

def writeCode (code : Code) : Emit := do
  if (← get).colors then write [.opening .bold, .text s!"[{code.name}]", .reset]
  else writeText s!"[{code.name}]"

/-- the carets, and the label if there is one -/
def writeCarets (width : Nat) (label : String) : Emit :=
  let carets := "".pushn '^' (max width 1)
  if label.isEmpty then writeColored carets .error
  else writeColored (carets ++ " " ++ label) .error

def writeSnippet (s : Snippet) (label : String) : Emit := do
  let number := toString s.line
  let pad := "".pushn ' ' (number.length + 1)
  writeColored (pad ++ "-->") .gutter
  writeText (" " ++ s.place ++ "\n")
  writeColored (pad ++ " |") .gutter
  writeText "\n"
  writeColored (" " ++ number ++ " |") .gutter
  writeText (" " ++ s.lineText ++ "\n")
  -- the row of carets
  writeColored (pad ++ " |") .gutter
  writeText (" " ++ String.ofList (caretIndent (s.column - 1) s.lineText.toList))
  writeCarets s.width label
  writeText "\n"

def writeNoteMark : Emit := do
  if (← get).colors then write [.opening .bold, .text "note", .reset]
  else writeText "note"

def writeNote (note : String) : Emit := do
  writeText "  = "
  writeNoteMark
  writeText (": " ++ note ++ "\n")

def emit (d : Diagnostic) : Emit := do
  writeLevel
  writeCode d.code
  writeText (": " ++ d.message ++ "\n")
  d.snippet.forM fun s => writeSnippet s d.label
  d.notes.forM writeNote

def emitAll (ds : List Diagnostic) : Emit := ds.forM emit

/-- the emitter after it has written some diagnostics -/
def after (e : Emitter) (ds : List Diagnostic) : Emitter := ((emitAll ds).run e).2

/-- what was written, as one text -/
def output (e : Emitter) : String := String.join (e.written.map Chunk.toText)

end Emitter

end Ebnf
