import Ebnf.Diagnostic.Emitter

/-!
# What an emitter writes

An emitter asks at every styled part whether to use colours, and has a path for either answer.  Both
paths write the same pieces: with colours a styled piece stands between its code and a reset, without
them it stands alone.

* `Piece`, `Diagnostic.pieces`   a text and how it looks, and a diagnostic as such texts;
* `render`               the pieces of diagnostics, one behind the other;
* `Writes`               a step writes some pieces, with colours or without;
* `writes_emit`          a diagnostic is written as its pieces;
* `output_after`         so what is written of diagnostics is their rendering.
-/

namespace Ebnf

/-! ## pieces -/

structure Piece where
  text : String
  style : Option Style := none
deriving DecidableEq

namespace Piece

def plain (p : Piece) : String := p.text

def colored (p : Piece) : String :=
  match p.style with
  | some s => s.opening ++ p.text ++ Style.reset
  | none => p.text

def join (colors : Bool) (ps : List Piece) : String :=
  String.join (ps.map fun p => if colors then p.colored else p.plain)

end Piece

namespace Diagnostic

namespace Snippet

/-- the carets, and the label if there is one -/
def carets (s : Snippet) (label : String) : String :=
  let cs := "".pushn '^' (max s.width 1)
  if label.isEmpty then cs else cs ++ " " ++ label

/-- an arrow to the place, an empty row, the line, and the row of carets -/
def pieces (s : Snippet) (label : String) : List Piece :=
  let number := toString s.line
  let pad := "".pushn ' ' (number.length + 1)
  let indent := String.ofList (caretIndent (s.column - 1) s.lineText.toList)
  [⟨pad ++ "-->", some .gutter⟩, ⟨" " ++ s.place ++ "\n", none⟩,
    ⟨pad ++ " |", some .gutter⟩, ⟨"\n", none⟩,
    ⟨" " ++ number ++ " |", some .gutter⟩, ⟨" " ++ s.lineText ++ "\n", none⟩,
    ⟨pad ++ " |", some .gutter⟩, ⟨" " ++ indent, none⟩, ⟨s.carets label, some .error⟩, ⟨"\n", none⟩]

end Snippet

def notePieces (note : String) : List Piece :=
  [⟨"  = ", none⟩, ⟨"note", some .bold⟩, ⟨": " ++ note ++ "\n", none⟩]

/-- header, snippet and notes -/
def pieces (d : Diagnostic) : List Piece :=
  let header : List Piece :=
    [⟨"error", some .error⟩, ⟨"[" ++ d.code.name ++ "]", some .bold⟩,
      ⟨": " ++ d.message ++ "\n", none⟩]
  let snippet := match d.snippet with
    | some s => s.pieces d.label
    | none => []
  header ++ snippet ++ d.notes.flatMap notePieces

def render (colors : Bool) (ds : List Diagnostic) : String :=
  Piece.join colors (ds.flatMap pieces)

end Diagnostic

/-! ## the pieces that are written -/

/-- a piece as it is written -/
def Piece.chunks (colors : Bool) (p : Piece) : List Chunk :=
  match p.style with
  | some s => if colors then [.opening s, .text p.text, .reset] else [.text p.text]
  | none => [.text p.text]

theorem Piece.join_cons (colors : Bool) (p : Piece) (ps : List Piece) :
    join colors (p :: ps) = (if colors then p.colored else p.plain) ++ join colors ps := by
  rw [join, List.map_cons, String.join_cons]
  rfl

theorem Piece.join_chunks (colors : Bool) (ps : List Piece) :
    String.join ((ps.flatMap (chunks colors)).map Chunk.toText) = join colors ps := by
  induction ps with
  | nil => rfl
  | cons p ps ih =>
    have hp : String.join ((p.chunks colors).map Chunk.toText) =
        if colors then p.colored else p.plain := by
      obtain ⟨text, style⟩ := p
      cases style <;> cases colors <;>
        simp [chunks, Chunk.toText, colored, plain, String.append_assoc]
    rw [List.flatMap_cons, List.map_append, String.join_append, ih, hp, join_cons]

namespace Emitter

open Diagnostic (Snippet notePieces)

/-- the step writes these pieces behind what was written, whether it uses colours or not -/
def Writes (m : Emit) (ps : List Piece) : Prop :=
  ∀ e : Emitter,
    m.run e = ((), { e with written := e.written ++ ps.flatMap (Piece.chunks e.colors) })

section
variable {m n : Emit} {ps qs : List Piece}

theorem writes_pure : Writes (pure ()) [] := by
  intro e
  rw [List.flatMap_nil, List.append_nil]
  rfl

theorem Writes.bind (hm : Writes m ps) (hn : Writes n qs) :
    Writes (m >>= fun _ => n) (ps ++ qs) := by
  intro e
  rw [StateT.run_bind, hm e, List.flatMap_append, ← List.append_assoc]
  exact hn _

theorem writes_forM {α : Type} {f : α → Emit} {pieces : α → List Piece}
    (h : ∀ a, Writes (f a) (pieces a)) (as : List α) :
    Writes (as.forM f) (as.flatMap pieces) := by
  induction as with
  | nil => exact writes_pure
  | cons a as ih => exact (h a).bind ih

end

/-! ## what each step writes -/

theorem writes_text (s : String) : Writes (writeText s) [⟨s, none⟩] := by
  intro e
  rfl

theorem writes_colored (text : String) (s : Style) : Writes (writeColored text s) [⟨text, some s⟩] := by
  intro e
  obtain ⟨colors, written⟩ := e
  cases colors <;> rfl

theorem writes_code (code : Diagnostic.Code) :
    Writes (writeCode code) [⟨"[" ++ code.name ++ "]", some .bold⟩] := by
  intro e
  obtain ⟨colors, written⟩ := e
  cases colors <;> rfl

theorem writes_carets (s : Snippet) (label : String) :
    Writes (writeCarets s.width label) [⟨s.carets label, some .error⟩] := by
  unfold writeCarets Snippet.carets
  dsimp only
  split
  · exact writes_colored _ _
  · exact writes_colored _ _

theorem writes_snippet (s : Snippet) (label : String) :
    Writes (writeSnippet s label) (s.pieces label) :=
  (writes_colored _ _).bind <| (writes_text _).bind <|
  (writes_colored _ _).bind <| (writes_text _).bind <|
  (writes_colored _ _).bind <| (writes_text _).bind <|
  (writes_colored _ _).bind <| (writes_text _).bind <| (writes_carets s label).bind <| writes_text _

theorem writes_noteMark : Writes writeNoteMark [⟨"note", some .bold⟩] := by
  intro e
  obtain ⟨colors, written⟩ := e
  cases colors <;> rfl

theorem writes_note (note : String) : Writes (writeNote note) (notePieces note) :=
  (writes_text _).bind <| writes_noteMark.bind <| writes_text _

theorem writes_header {m : Emit} {ps : List Piece} (d : Diagnostic) (hm : Writes m ps) :
    Writes (do
      writeLevel
      writeCode d.code
      writeText (": " ++ d.message ++ "\n")
      m) ([⟨"error", some .error⟩, ⟨"[" ++ d.code.name ++ "]", some .bold⟩,
        ⟨": " ++ d.message ++ "\n", none⟩] ++ ps) :=
  (writes_colored _ _).bind <| (writes_code d.code).bind <| (writes_text _).bind hm

theorem writes_emit (d : Diagnostic) : Writes (emit d) d.pieces := by
  have hnotes := writes_forM writes_note d.notes
  unfold emit Diagnostic.pieces
  dsimp only
  rw [List.append_assoc]
  cases d.snippet with
  | none => exact writes_header d (writes_pure.bind hnotes)
  | some s => exact writes_header d ((writes_snippet s d.label).bind hnotes)

theorem after_eq (e : Emitter) (ds : List Diagnostic) :
    e.after ds = { e with
      written := e.written ++ (ds.flatMap Diagnostic.pieces).flatMap (Piece.chunks e.colors) } :=
  congrArg Prod.snd (writes_forM writes_emit ds e)

theorem written_concat (e : Emitter) (before : List Diagnostic) (d : Diagnostic) :
    (e.after (before ++ [d])).written =
      (e.after before).written ++ d.pieces.flatMap (Piece.chunks e.colors) := by
  rw [after_eq, after_eq, List.flatMap_append, List.flatMap_append, List.flatMap_singleton,
    ← List.append_assoc]

/-- what is written of diagnostics is their rendering -/
theorem output_after (e : Emitter) (ds : List Diagnostic) :
    (e.after ds).output = e.output ++ Diagnostic.render e.colors ds := by
  rw [after_eq, output, List.map_append, String.join_append, Piece.join_chunks]
  rfl

theorem output_plain (ds : List Diagnostic) :
    (plain.after ds).output = Diagnostic.render false ds := by
  rw [output_after]
  exact String.empty_append

end Emitter

end Ebnf
