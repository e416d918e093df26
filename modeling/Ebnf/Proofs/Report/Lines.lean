import Ebnf.Grammar.Basic
import Ebnf.Lexed
import Ebnf.Proofs.Report.Pieces

/-!
# The lines of a rendered diagnostic

A diagnostic is laid out as a header, four lines of its snippet, and a line for each note.  The plain
rendering has just these lines if all that is written into them is free of line feeds.

* `Lacks`, `OneLine`  a text without a character, and one without a line feed;
* `textLines`         the stretches of a text between its line feeds;
* `Diagnostic.lines`  header, snippet and notes, each as the text of its line;
* `Keeps`             the plain rendering has these lines and no others;
* `toList_output`     what is written is these texts, each ended by a line feed;
* `keeps_iff`         it keeps the layout just if message, label, file, source line and notes are each
                      free of line feeds;
* `oneLine_lineText`  a line that is cut out of a source is.
-/

namespace Ebnf

/-! ## texts without a character -/

def Lacks (c : Char) (s : String) : Prop := c ∉ s.toList

instance (c : Char) (s : String) : Decidable (Lacks c s) :=
  inferInstanceAs (Decidable (c ∉ s.toList))

section
variable {c d : Char} {s t : String}

@[simp] theorem lacks_append : Lacks c (s ++ t) ↔ Lacks c s ∧ Lacks c t := by
  unfold Lacks
  rw [String.toList_append, List.mem_append, not_or]

@[simp] theorem lacks_toString : Lacks c (toString s) ↔ Lacks c s := Iff.rfl

/-- a number has digits only -/
theorem lacks_repr (hc : c.isDigit = false) (n : Nat) : Lacks c n.repr := by
  intro h
  rw [Nat.toList_repr] at h
  have hdigit := Nat.isDigit_of_mem_toDigits (by decide) (by decide) h
  exact absurd hdigit (Bool.eq_false_iff.mp hc)

theorem toList_pushn (s : String) (c : Char) (n : Nat) :
    (s.pushn c n).toList = s.toList ++ List.replicate n c := by
  rw [String.pushn_eq_repeat_push]
  induction n with
  | zero => simp [Nat.repeat]
  | succ n ih => rw [Nat.repeat, String.toList_push, ih, List.replicate_succ', List.append_assoc]

theorem lacks_pushn (h : c ≠ d) (n : Nat) : Lacks c ("".pushn d n) := by
  intro hmem
  rw [toList_pushn, String.toList_empty, List.nil_append] at hmem
  exact h (List.eq_of_mem_replicate hmem)

end

/-! ## texts without line feeds -/

def OneLine (s : String) : Prop := '\n' ∉ s.toList

instance (s : String) : Decidable (OneLine s) := inferInstanceAs (Decidable ('\n' ∉ s.toList))

/-- the stretches between the line feeds; a text that ends with one has an empty stretch behind it -/
def textLines (s : String) : List String := (s.toList.splitOn '\n').map String.ofList

section
variable {s t : String}

@[simp] theorem oneLine_append : OneLine (s ++ t) ↔ OneLine s ∧ OneLine t := lacks_append

theorem oneLine_ofList {cs : List Char} : OneLine (String.ofList cs) ↔ '\n' ∉ cs := by
  rw [OneLine, String.toList_ofList]

@[simp] theorem oneLine_toString : OneLine (toString s) ↔ OneLine s := Iff.rfl

@[simp] theorem oneLine_repr (n : Nat) : OneLine n.repr := lacks_repr (by decide) n

theorem oneLine_intercalate {sep : String} (hsep : OneLine sep) {ts : List String}
    (h : ∀ t ∈ ts, OneLine t) : OneLine (sep.intercalate ts) := by
  induction ts with
  | nil => exact List.not_mem_nil
  | cons t ts ih =>
    have ht := h t List.mem_cons_self
    have hts := ih fun u hu => h u (List.mem_cons_of_mem t hu)
    cases ts with
    | nil => rwa [String.intercalate_singleton]
    | cons u ts =>
      rw [String.intercalate_cons_cons]
      exact oneLine_append.mpr ⟨oneLine_append.mpr ⟨ht, hsep⟩, hts⟩

end

theorem not_mem_of_mem_splitOn {α : Type} [BEq α] [LawfulBEq α] {a : α} {xs l : List α}
    (h : l ∈ xs.splitOn a) : a ∉ l := by
  induction xs generalizing l with
  | nil =>
    rw [List.mem_singleton.mp h]
    exact List.not_mem_nil
  | cons x xs ih =>
    rw [List.splitOn_cons_eq_if_modifyHead] at h
    by_cases hx : x == a
    · rw [if_pos hx] at h
      rcases List.mem_cons.mp h with rfl | h
      · exact List.not_mem_nil
      · exact ih h
    · rw [if_neg hx] at h
      obtain ⟨y, ys, e⟩ := List.exists_cons_of_ne_nil (List.splitOn_ne_nil a xs)
      rw [e, List.modifyHead_cons] at h
      rcases List.mem_cons.mp h with rfl | h
      · have hy := ih (e ▸ List.mem_cons_self)
        exact fun hmem => (List.mem_cons.mp hmem).elim (fun he => hx (beq_iff_eq.mpr he.symm)) hy
      · exact ih (e ▸ List.mem_cons_of_mem y h)

/-- texts that are each ended by a line feed are read back as the stretches between theirs -/
theorem splitOn_flatMap (ls : List String) :
    (ls.flatMap fun l => l.toList ++ ['\n']).splitOn '\n' =
      ls.flatMap (fun l => l.toList.splitOn '\n') ++ [[]] := by
  induction ls with
  | nil => rfl
  | cons l ls ih =>
    rw [List.flatMap_cons, List.append_assoc, List.singleton_append, List.splitOn_append_cons_self, ih,
      List.flatMap_cons, List.append_assoc]

theorem splitOn_lines {ls : List String} (h : ∀ l ∈ ls, OneLine l) :
    (ls.flatMap fun l => l.toList ++ ['\n']).splitOn '\n' = ls.map String.toList ++ [[]] := by
  have hone : ls.map (fun l => l.toList.splitOn '\n') = ls.map fun l => [l.toList] :=
    List.map_congr_left fun l hl => List.splitOn_eq_singleton (h l hl)
  rw [splitOn_flatMap, List.map_eq_flatMap, List.flatMap_def, hone, ← List.flatMap_def]

/-! ## the lines of a diagnostic -/

namespace Diagnostic

/-- an arrow to the place, an empty row, the line, and the row of carets -/
def Snippet.lines (s : Snippet) (label : String) : List String :=
  let number := toString s.line
  let pad := "".pushn ' ' (number.length + 1)
  let indent := String.ofList (caretIndent (s.column - 1) s.lineText.toList)
  [pad ++ "--> " ++ s.place, pad ++ " |", " " ++ number ++ " | " ++ s.lineText,
    pad ++ " | " ++ indent ++ s.carets label]

def header (d : Diagnostic) : String := "error[" ++ d.code.name ++ "]: " ++ d.message

def lines (d : Diagnostic) : List String :=
  [d.header] ++ (d.snippet.map fun s => s.lines d.label).getD [] ++
    d.notes.map fun note => "  = note: " ++ note

theorem length_lines (d : Diagnostic) :
    d.lines.length = 1 + (if d.snippet.isSome then 4 else 0) + d.notes.length := by
  unfold lines
  rw [List.length_append, List.length_append, List.length_map]
  cases d.snippet <;> rfl

/-- the plain rendering has the lines of the diagnostic and no others -/
def Keeps (d : Diagnostic) : Prop :=
  textLines (Emitter.plain.after [d]).output = d.lines ++ [""]

instance (d : Diagnostic) : Decidable d.Keeps :=
  inferInstanceAs (Decidable (textLines (Emitter.plain.after [d]).output = d.lines ++ [""]))

theorem toList_output (d : Diagnostic) :
    (Emitter.plain.after [d]).output.toList = d.lines.flatMap fun l => l.toList ++ ['\n'] := by
  have hjoin : ∀ ps, (Piece.join false ps).toList = ps.flatMap fun p => p.text.toList := by
    intro ps
    rw [Piece.join, String.toList_join, List.flatMap_map]
    rfl
  have hnotes : ∀ notes : List String, ((notes.flatMap notePieces).flatMap fun p => p.text.toList) =
      (notes.map fun note => "  = note: " ++ note).flatMap fun l => l.toList ++ ['\n'] := by
    intro notes
    induction notes with
    | nil => rfl
    | cons note notes ih => simp [notePieces, ih]
  rw [Emitter.output_plain, render, hjoin, List.flatMap_singleton, pieces, lines, List.flatMap_append,
    List.flatMap_append, List.flatMap_append, List.flatMap_append, hnotes]
  congr 2
  · simp [header]
  · cases d.snippet with
    | none => rfl
    | some s => simp [Snippet.pieces, Snippet.lines]

theorem keeps_iff_lines {d : Diagnostic} : d.Keeps ↔ ∀ l ∈ d.lines, OneLine l := by
  unfold Keeps textLines
  rw [toList_output]
  constructor
  · intro h l hl
    have hmem : l ∈ d.lines ++ [""] := List.mem_append_left _ hl
    rw [← h] at hmem
    obtain ⟨cs, hcs, rfl⟩ := List.mem_map.mp hmem
    exact oneLine_ofList.mpr (not_mem_of_mem_splitOn hcs)
  · intro h
    rw [splitOn_lines h, List.map_append, List.map_map]
    have hid : String.ofList ∘ String.toList = id := funext fun l => String.ofList_toList
    rw [hid, List.map_id]
    rfl

/-! ## what is written into the lines -/

theorem lacks_caretIndent {c : Char} (ht : c ≠ '\t') (hb : c ≠ ' ') (width : Nat) (cs : List Char) :
    Lacks c (String.ofList (caretIndent width cs)) := by
  rw [Lacks, String.toList_ofList]
  induction cs generalizing width with
  | nil =>
    cases width with
    | zero => exact List.not_mem_nil
    | succ width => exact fun h => hb (List.eq_of_mem_replicate h)
  | cons b cs ih =>
    cases width with
    | zero => exact List.not_mem_nil
    | succ width =>
      intro h
      rcases List.mem_cons.mp h with h | h
      · split at h
        · exact ht h
        · exact hb h
      · exact ih _ h

theorem oneLine_name (c : Code) : OneLine c.name := by cases c <;> decide

theorem lacks_place {c : Char} (hdigit : c.isDigit = false) (hcolon : c ≠ ':') {s : Snippet} :
    Lacks c s.place ↔ Lacks c s.file := by
  have h : Lacks c ":" := mt List.mem_singleton.mp hcolon
  simp [Snippet.place, lacks_repr hdigit, h]

theorem oneLine_place {s : Snippet} : OneLine s.place ↔ OneLine s.file :=
  lacks_place (by decide) (by decide)

theorem lacks_carets {c : Char} (hcaret : c ≠ '^') (hblank : c ≠ ' ') {s : Snippet}
    {label : String} : Lacks c (s.carets label) ↔ Lacks c label := by
  have hcarets := lacks_pushn hcaret (max s.width 1)
  have hspace : Lacks c " " := mt List.mem_singleton.mp hblank
  unfold Snippet.carets
  dsimp only
  by_cases he : label.isEmpty
  · rw [if_pos he, String.isEmpty_iff.mp he]
    exact iff_of_true hcarets List.not_mem_nil
  · rw [if_neg he]
    simp [hcarets, hspace]

theorem oneLine_carets {s : Snippet} {label : String} : OneLine (s.carets label) ↔ OneLine label :=
  lacks_carets (by decide) (by decide)

theorem oneLine_header {d : Diagnostic} : OneLine d.header ↔ OneLine d.message := by
  have h : OneLine "error[" ∧ OneLine "]: " := by decide
  simp [header, h, oneLine_name]

theorem oneLine_snippet_lines {s : Snippet} {label : String} : (∀ l ∈ s.lines label, OneLine l) ↔
    OneLine s.file ∧ OneLine s.lineText ∧ OneLine label := by
  have hpad : OneLine ("".pushn ' ' ((toString s.line).length + 1)) := lacks_pushn (by decide) _
  have hindent : OneLine (String.ofList (caretIndent (s.column - 1) s.lineText.toList)) :=
    lacks_caretIndent (by decide) (by decide) _ _
  have h : OneLine "--> " ∧ OneLine " |" ∧ OneLine " " ∧ OneLine " | " := by decide
  unfold Snippet.lines
  rw [Nat.toString_eq_repr] at hpad
  simp [oneLine_place, oneLine_carets, hpad, hindent, h]

/-- the layout is kept just if all that comes from outside is free of line feeds -/
theorem keeps_iff {d : Diagnostic} : d.Keeps ↔ OneLine d.message ∧
    (∀ s, d.snippet = some s → OneLine s.file ∧ OneLine s.lineText ∧ OneLine d.label) ∧
    ∀ note ∈ d.notes, OneLine note := by
  have hnote : OneLine "  = note: " := by decide
  have hsnippet : (∀ l ∈ (d.snippet.map fun s => s.lines d.label).getD [], OneLine l) ↔
      ∀ s, d.snippet = some s → OneLine s.file ∧ OneLine s.lineText ∧ OneLine d.label := by
    cases d.snippet with
    | none => exact iff_of_true nofun nofun
    | some s => simp [oneLine_snippet_lines]
  have hnotes : (∀ l ∈ d.notes.map fun note => "  = note: " ++ note, OneLine l) ↔
      ∀ note ∈ d.notes, OneLine note := by
    simp [hnote]
  rw [keeps_iff_lines, lines, List.forall_mem_append, List.forall_mem_append, List.forall_mem_singleton,
    oneLine_header, hsnippet, hnotes, and_assoc]

theorem oneLine_toText {d : Diagnostic} : OneLine d.toText ↔
    OneLine d.message ∧ ∀ s, d.snippet = some s → OneLine s.file := by
  have h : OneLine "error[" ∧ OneLine "]: " ∧ OneLine " at " := by decide
  unfold toText
  dsimp only
  cases d.snippet with
  | none => simp [h, oneLine_name]
  | some s => simp [h, oneLine_name, oneLine_place]

end Diagnostic

/-! ## lines of a source -/

theorem Utf8.newline_of_char? {b : UInt8} {rest : List UInt8} (h : Utf8.char? (b :: rest) = some '\n') :
    b = 10 := by
  obtain ⟨l, hl⟩ := ByteArray.exists_of_utf8DecodeChar?_eq_some h
  have hbytes := congrArg (fun bs : ByteArray => bs.data.toList) hl
  have henc : String.utf8EncodeChar '\n' = [10] := by decide
  simp [henc] at hbytes
  exact hbytes.1

theorem Utf8.newline_mem_decodeFrom {skip : Nat} {bs : List UInt8}
    (h : '\n' ∈ Utf8.decodeFrom skip bs) : 10 ∈ bs := by
  induction bs generalizing skip with
  | nil =>
    cases skip <;> cases h
  | cons b rest ih =>
    cases skip with
    | succ skip => exact List.mem_cons_of_mem b (ih h)
    | zero =>
      rw [decodeFrom] at h
      cases hc : char? (b :: rest) with
      | some c =>
        rw [hc] at h
        rcases List.mem_cons.mp h with rfl | h
        · rw [newline_of_char? hc]
          exact List.mem_cons_self
        · exact List.mem_cons_of_mem b (ih h)
      | none =>
        rw [hc] at h
        rcases List.mem_cons.mp h with h | h
        · cases h
        · exact List.mem_cons_of_mem b (ih h)

theorem oneLine_decodeLossy {bs : List UInt8} (h : 10 ∉ bs) : OneLine (Utf8.decodeLossy bs) :=
  oneLine_ofList.mpr fun hmem => h (Utf8.newline_mem_decodeFrom hmem)

theorem oneLine_lineText (x : Lexed) (i : Nat) : OneLine (x.lineText (x.location i)) := by
  refine oneLine_decodeLossy fun hmem => ?_
  generalize hstart : (x.location i).lineStart = start at hmem
  have hsize : (x.location i).lineSize =
      (Location.trim ((x.bytes.toList.drop start).takeWhile (· != Location.lineFeed))).length := by
    rw [← hstart]
    rfl
  rw [Lexed.slice, Array.toList_extract, List.extract_eq_take_drop, Nat.add_sub_cancel_left, hsize] at hmem
  generalize x.bytes.toList.drop start = rest at hmem
  -- what is shown of the line lies before its line feed
  have hmem : 10 ∈ rest.takeWhile (· != Location.lineFeed) := by
    refine (List.prefix_of_prefix_length_le (List.take_prefix _ rest) (List.takeWhile_prefix _)
      ?_).subset hmem
    rw [List.length_take]
    exact Nat.le_trans (Nat.min_le_left _ _) (Location.length_trim_le _)
  have hne := List.all_takeWhile (p := (· != Location.lineFeed)) (l := rest)
  exact absurd (List.all_eq_true.mp hne 10 hmem) (by decide)

end Ebnf
