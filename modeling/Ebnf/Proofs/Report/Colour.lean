import Ebnf.Proofs.Report.Lines

/-!
# Colour only wraps the plain text

* `Closed`               each code that is opened is closed before another opens;
* `withoutEscapes`       a text without its control sequences;
* `shown_join`           pieces that are free of escape characters are left behind;
* `colour_wraps_plain`   what that says of two emitters, one with colours and one without.
-/

namespace Ebnf

/-! ## codes are closed -/

/-- behind each code that is opened comes a reset, and only texts come between them -/
def Closed (cs : List Chunk) : Prop :=
  ∀ before s behind, cs = before ++ .opening s :: behind →
    ∃ inside rest, behind = inside ++ .reset :: rest ∧ ∀ c ∈ inside, ∃ t, c = .text t

section
variable {cs ds : List Chunk}

theorem closed_of_not_mem (h : ∀ s, Chunk.opening s ∉ cs) : Closed cs := by
  rintro before s behind rfl
  exact absurd (List.mem_append_right before List.mem_cons_self) (h s)

theorem closed_styled (s : Style) (text : String) : Closed [.opening s, .text text, .reset] := by
  intro before s' behind h
  cases before with
  | nil =>
    rw [List.nil_append, List.cons.injEq] at h
    obtain ⟨_, rfl⟩ := h
    exact ⟨[.text text], [], rfl, fun c hc => ⟨text, List.mem_singleton.mp hc⟩⟩
  | cons c before =>
    have htail : [.text text, .reset] = before ++ .opening s' :: behind := (List.cons.inj h).2
    exact closed_of_not_mem (by simp) before s' behind htail

theorem Closed.append (hcs : Closed cs) (hds : Closed ds) : Closed (cs ++ ds) := by
  intro before s behind h
  rcases List.append_eq_append_iff.mp h with ⟨r, rfl, hr⟩ | ⟨r, rfl, hr⟩
  · exact hds r s behind hr
  · cases r with
    | nil => exact hds [] s behind hr.symm
    | cons c r =>
      -- the code is opened in the first part, and closed there
      rw [List.cons_append, List.cons.injEq] at hr
      obtain ⟨rfl, rfl⟩ := hr
      obtain ⟨inside, rest, rfl, htext⟩ := hcs before s r rfl
      exact ⟨inside, rest ++ ds, by rw [List.append_assoc, List.cons_append], htext⟩

end

theorem Piece.closed_chunks (colors : Bool) (p : Piece) : Closed (p.chunks colors) := by
  have htext : Closed [.text p.text] := closed_of_not_mem (by simp)
  unfold chunks
  split
  · split
    · exact closed_styled _ _
    · exact htext
  · exact htext

theorem closed_pieces (colors : Bool) (ps : List Piece) : Closed (ps.flatMap (Piece.chunks colors)) := by
  induction ps with
  | nil => exact closed_of_not_mem fun _ => List.not_mem_nil
  | cons p ps ih => exact (p.closed_chunks colors).append ih

/-! ## texts without control sequences -/

def escape : Char := '\x1b'

inductive Reading where
  /-- in a text that is shown -/
  | text
  /-- behind an escape character -/
  | escaped
  /-- in the parameters of a control sequence -/
  | control
deriving DecidableEq

/-- the characters that are shown; a control sequence goes from an escape character and a bracket to a
final character between `@` and `~` -/
def shown : Reading → List Char → List Char
  | _, [] => []
  | .text, c :: cs => if c = escape then shown .escaped cs else c :: shown .text cs
  | .escaped, c :: cs => if c = '[' then shown .control cs else shown .text cs
  | .control, c :: cs => if '@' ≤ c ∧ c ≤ '~' then shown .text cs else shown .control cs

def withoutEscapes (s : String) : String := String.ofList (shown .text s.toList)

theorem shown_append {cs : List Char} (h : escape ∉ cs) (ds : List Char) :
    shown .text (cs ++ ds) = cs ++ shown .text ds := by
  induction cs with
  | nil => rfl
  | cons c cs ih =>
    have hc : c ≠ escape := fun he => h (he ▸ List.mem_cons_self)
    rw [List.cons_append, shown, if_neg hc, ih (List.not_mem_of_not_mem_cons h), List.cons_append]

theorem shown_opening (s : Style) (cs : List Char) :
    shown .text (s.opening.toList ++ cs) = shown .text cs := by
  cases s <;> rfl

theorem shown_reset (cs : List Char) : shown .text (Style.reset.toList ++ cs) = shown .text cs := rfl

theorem Piece.shown_colored {p : Piece} (h : Lacks escape p.text) (cs : List Char) :
    shown .text (p.colored.toList ++ cs) = p.text.toList ++ shown .text cs := by
  unfold colored
  split
  · rw [String.toList_append, String.toList_append, List.append_assoc, List.append_assoc, shown_opening,
      shown_append h, shown_reset]
  · exact shown_append h cs

theorem shown_join {ps : List Piece} (h : ∀ p ∈ ps, Lacks escape p.text) :
    withoutEscapes (Piece.join true ps) = Piece.join false ps := by
  have hshown : shown .text (Piece.join true ps).toList = (Piece.join false ps).toList := by
    induction ps with
    | nil => rfl
    | cons p ps ih =>
      rw [Piece.join_cons, Piece.join_cons, String.toList_append, String.toList_append]
      have hp := Piece.shown_colored (h p List.mem_cons_self) (Piece.join true ps).toList
      exact hp.trans (congrArg _ (ih fun q hq => h q (List.mem_cons_of_mem p hq)))
  rw [withoutEscapes, hshown, String.ofList_toList]

/-! ## the texts of a diagnostic -/

namespace Diagnostic

/-- the texts that come from outside -/
def texts (d : Diagnostic) : List String :=
  [d.message, d.label] ++ d.notes ++ (d.snippet.map fun s => [s.file, s.lineText]).getD []

section
variable {d : Diagnostic}

/-- only the file, the line and the label of a snippet can bring in an escape character -/
theorem lacks_escape_snippet {s : Snippet} {label : String} (hfile : Lacks escape s.file)
    (hline : Lacks escape s.lineText) (hlabel : Lacks escape label) :
    ∀ p ∈ s.pieces label, Lacks escape p.text := by
  have hpad : Lacks escape ("".pushn ' ' ((toString s.line).length + 1)) :=
    lacks_pushn (by decide) _
  have hnumber : Lacks escape s.line.repr := lacks_repr (by decide) s.line
  have hplace : Lacks escape s.place := (lacks_place (by decide) (by decide)).mpr hfile
  have hindent : Lacks escape (String.ofList (caretIndent (s.column - 1) s.lineText.toList)) :=
    lacks_caretIndent (by decide) (by decide) _ _
  have hcarets : Lacks escape (s.carets label) := (lacks_carets (by decide) (by decide)).mpr hlabel
  have hfixed : Lacks escape "-->" ∧ Lacks escape " " ∧ Lacks escape "\n" ∧ Lacks escape " |" := by
    decide
  unfold Snippet.pieces
  rw [Nat.toString_eq_repr] at hpad
  simp [hline, hpad, hnumber, hplace, hindent, hcarets, hfixed]

theorem lacks_escape_pieces (h : ∀ t ∈ d.texts, Lacks escape t) :
    ∀ p ∈ d.pieces, Lacks escape p.text := by
  unfold texts at h
  simp only [List.forall_mem_append, List.forall_mem_cons] at h
  obtain ⟨⟨⟨hmessage, hlabel, _⟩, hnotes⟩, hsnippet⟩ := h
  have hfixed : Lacks escape "error" ∧ Lacks escape "[" ∧ Lacks escape "]" ∧ Lacks escape ": " ∧
      Lacks escape "\n" ∧ Lacks escape "  = " ∧ Lacks escape "note" := by decide
  have hname : Lacks escape d.code.name := by cases d.code <;> decide
  unfold pieces
  dsimp only
  rw [List.forall_mem_append, List.forall_mem_append]
  refine ⟨⟨by simp [hmessage, hname, hfixed], ?_⟩, ?_⟩
  · cases hs : d.snippet with
    | none => nofun
    | some s =>
      rw [hs] at hsnippet
      have hline : Lacks escape s.lineText := hsnippet s.lineText (.tail _ (.head _))
      exact lacks_escape_snippet (hsnippet s.file (.head _)) hline hlabel
  · intro p hp
    obtain ⟨note, hnote, hp⟩ := List.mem_flatMap.mp hp
    have hpieces : ∀ p ∈ notePieces note, Lacks escape p.text := by
      simp [notePieces, hfixed, hnotes note hnote]
    exact hpieces p hp

end

end Diagnostic

/-! ## two emitters -/

section
variable {m m' : ColorMode} {terminal terminal' : Bool}

/-- let one emitter use colours and another not.  The one without writes the pieces of some diagnostics
as they are, and the one with colours writes the same pieces, each styled one between its code and a
reset.  So each code is closed before another opens and before its diagnostic ends; and if the texts of
the diagnostics are free of escape characters, the control sequences are all that is written more -/
theorem colour_wraps_plain (hplain : m.useColors terminal = false)
    (hcolor : m'.useColors terminal' = true) (ds : List Diagnostic) :
    let plain := (Emitter.ofMode m terminal).after
    let coloured := (Emitter.ofMode m' terminal').after
    let ps := ds.flatMap Diagnostic.pieces
    (plain ds).output = String.join (ps.map Piece.text) ∧
    (coloured ds).output = String.join (ps.map Piece.colored) ∧
    (∀ before d behind, ds = before ++ d :: behind →
      ∃ cs, (coloured (before ++ [d])).written = (coloured before).written ++ cs ∧ Closed cs) ∧
    ((∀ d ∈ ds, ∀ t ∈ d.texts, Lacks escape t) →
      withoutEscapes (coloured ds).output = (plain ds).output) := by
  intro plain coloured ps
  have hplains : (plain ds).output = Piece.join false ps := by
    rw [Emitter.output_after, ← hplain]
    exact String.empty_append
  have hcoloured : (coloured ds).output = Piece.join true ps := by
    rw [Emitter.output_after, ← hcolor]
    exact String.empty_append
  refine ⟨hplains, hcoloured, ?_, ?_⟩
  · rintro before d behind -
    exact ⟨_, Emitter.written_concat _ before d, closed_pieces _ d.pieces⟩
  · intro h
    rw [hplains, hcoloured]
    refine shown_join fun p hp => ?_
    obtain ⟨d, hd, hp⟩ := List.mem_flatMap.mp hp
    exact Diagnostic.lacks_escape_pieces (h d hd) p hp

/-- a diagnostic with all parts and one with a header only, in a log and on a terminal -/
theorem colour_wraps_plain_log :
    let ds : List Diagnostic :=
      [{ code := .expectedText
         message := "expected 'b'"
         snippet := some { file := "input", line := 1, column := 2, lineText := "ac" }
         label := "here"
         notes := ["while parsing rule start"] },
       { code := .unknown, message := "no match" }]
    let plain := "error[E1002]: expected 'b'\n  --> input:1:2\n   |\n 1 | ac\n   |  ^ here\n" ++
      "  = note: while parsing rule start\nerror[E9001]: no match\n"
    let coloured := "\x1b[1;31merror\x1b[0m\x1b[1m[E1002]\x1b[0m: expected 'b'\n" ++
      "\x1b[1;34m  -->\x1b[0m input:1:2\n\x1b[1;34m   |\x1b[0m\n\x1b[1;34m 1 |\x1b[0m ac\n" ++
      "\x1b[1;34m   |\x1b[0m  \x1b[1;31m^ here\x1b[0m\n" ++
      "  = \x1b[1mnote\x1b[0m: while parsing rule start\n" ++
      "\x1b[1;31merror\x1b[0m\x1b[1m[E9001]\x1b[0m: no match\n"
    ColorMode.never.useColors true = false ∧ ColorMode.auto.useColors true = true ∧
    (∀ d ∈ ds, ∀ t ∈ d.texts, Lacks escape t) ∧
    ((Emitter.ofMode .never true).after ds).output = plain ∧
    ((Emitter.ofMode .auto true).after ds).output = coloured ∧ withoutEscapes coloured = plain := by
  intro ds plain coloured
  have hplain : ColorMode.never.useColors true = false := rfl
  have hcolor : ColorMode.auto.useColors true = true := rfl
  obtain ⟨hplains, hcoloured, _, hleft⟩ := colour_wraps_plain hplain hcolor ds
  have hfree : ∀ d ∈ ds, ∀ t ∈ d.texts, Lacks escape t := by decide
  have hp : ((Emitter.ofMode .never true).after ds).output = plain :=
    hplains.trans (by decide +kernel)
  have hc : ((Emitter.ofMode .auto true).after ds).output = coloured :=
    hcoloured.trans (by decide +kernel)
  refine ⟨hplain, hcolor, hfree, hp, hc, ?_⟩
  rw [← hc, ← hp]
  exact hleft hfree

end

end Ebnf
