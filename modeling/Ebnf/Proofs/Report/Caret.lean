import Mathlib.Data.List.Basic
import Ebnf.Proofs.Report.Lines
import Ebnf.Proofs.Source.Location
import Ebnf.Report

/-!
# The caret below a token

A snippet counts its column in bytes, and the caret is brought below it by one blank for each
character.  So where a token begins with a character, the caret stands below that character, in
whatever width the characters before it are written.

* `blankBelow`            what stands below a character;
* `caretIndent_append`    the indent is one blank for each character;
* `LineCut`               a text cut where a line begins and where a token of the line does;
* `Lexed.exists_lineCut`  the line that is printed goes up to the token, or only the carriage return
                          of its end is missing;
* `textLines_output`      the rows of a rendering;
* `CaretBelow`            a row of carets right below a row of the source, and where its caret is;
* `caret_below_token`     the caret has as many characters before it as the token has in its line.
-/

namespace Ebnf

namespace Diagnostic

/-! ## the indent -/

/-- what stands in the row of carets below a character -/
def blankBelow (c : Char) : Char := if c = '\t' then '\t' else ' '

theorem blankBelow_cases (c : Char) : blankBelow c = '\t' ∨ blankBelow c = ' ' := by
  unfold blankBelow
  split
  · exact .inl rfl
  · exact .inr rfl

/-- below characters that end before the column there is one blank for each -/
theorem caretIndent_append (cs ds : List Char) (width : Nat) :
    caretIndent ((cs.flatMap String.utf8EncodeChar).length + width) (cs ++ ds) =
      cs.map blankBelow ++ caretIndent width ds := by
  induction cs with
  | nil => simp
  | cons c cs ih =>
    have hpos := c.utf8Size_pos
    have hwidth : ((c :: cs).flatMap String.utf8EncodeChar).length + width =
        c.utf8Size - 1 + (cs.flatMap String.utf8EncodeChar).length + width + 1 := by
      rw [List.flatMap_cons, List.length_append, String.length_utf8EncodeChar]
      omega
    have hrest : c.utf8Size - 1 + (cs.flatMap String.utf8EncodeChar).length + width + 1 - c.utf8Size =
        (cs.flatMap String.utf8EncodeChar).length + width := by omega
    rw [hwidth, List.cons_append, caretIndent, hrest, ih]
    rfl

theorem caretIndent_nil (width : Nat) : caretIndent width [] = List.replicate width ' ' := by
  cases width <;> rfl

end Diagnostic

/-! ## lines cut at a token -/

/-- `front` ends where a line begins, and `before` is what the line has before a place in it; of the
line, `line` is printed, which leaves out no more than a carriage return before the place -/
structure LineCut (text line front before after : String) : Prop where
  eq : text = front ++ before ++ after
  begins : front = "" ∨ ∃ u, front = u ++ "\n"
  within : OneLine before
  shown : (∃ rest hidden, line = before ++ rest ∧ after = rest ++ hidden) ∨ before = line ++ "\r"

theorem encode_lineFeed : Utf8.encode "\n" = [Location.lineFeed] := by decide

theorem encode_carriageReturn : Utf8.encode "\r" = [Location.carriageReturn] := by decide

theorem exists_append_lineFeed {s : String}
    (h : (Utf8.encode s).getLast? = some Location.lineFeed) : ∃ u, s = u ++ "\n" := by
  obtain ⟨init, hinit⟩ := List.getLast?_eq_some_iff.mp h
  have hbyte : (Utf8.encode s)[init.length]? = some Location.lineFeed := by
    rw [hinit, List.getElem?_concat_length]
  have hvalid := (Utf8.isValid_of_getElem? encode_lineFeed hbyte).1
  obtain ⟨u, v, rfl, hu⟩ := String.Pos.Raw.isValid_iff_exists_append.mp hvalid
  have hlen : (Utf8.encode u).length = init.length := by
    rw [Utf8.length_encode]
    exact (congrArg String.Pos.Raw.byteIdx hu).symm
  rw [Utf8.encode_append] at hinit
  have hv := (List.append_inj hinit hlen).2
  rw [← encode_lineFeed, Utf8.encode_inj] at hv
  exact ⟨u, by rw [hv]⟩

theorem oneLine_of_not_mem_encode {s : String} (h : Location.lineFeed ∉ Utf8.encode s) :
    OneLine s := by
  have hone := oneLine_decodeLossy h
  rwa [Utf8.decodeLossy_encode] at hone

/-- where a text is cut in two ways, the earlier cut leaves the stretch up to the later one -/
theorem exists_append_of_le {s t u v : String} (h : s ++ t = u ++ v)
    (hle : (Utf8.encode s).length ≤ (Utf8.encode u).length) : ∃ r, u = s ++ r ∧ t = r ++ v := by
  have hlist : s.toList ++ t.toList = u.toList ++ v.toList := by
    rw [← String.toList_append, h, String.toList_append]
  rcases List.append_eq_append_iff.mp hlist with ⟨r, hu, ht⟩ | ⟨r, hs, hv⟩
  · exact ⟨String.ofList r, by simp [← String.toList_inj, hu], by simp [← String.toList_inj, ht]⟩
  · -- the later cut is the earlier one
    obtain rfl : s = u ++ String.ofList r := by simp [← String.toList_inj, hs]
    rw [Utf8.encode_append, List.length_append] at hle
    have hr : Utf8.encode (String.ofList r) = Utf8.encode "" :=
      List.eq_nil_of_length_eq_zero (by omega)
    rw [Utf8.encode_inj] at hr
    rw [hr, String.append_empty] at h ⊢
    exact ⟨"", (String.append_empty).symm, by simpa using h⟩

namespace Location

theorem eq_trim_append {body : List UInt8} (h : (trim body).length < body.length) :
    body = trim body ++ [carriageReturn] := by
  unfold trim at h ⊢
  split
  · rename_i hlast
    obtain ⟨init, rfl⟩ := List.getLast?_eq_some_iff.mp hlast
    rw [List.dropLast_concat]
  · rename_i hlast
    rw [if_neg hlast] at h
    exact absurd h (Nat.lt_irrefl _)

section
variable {s front line behind : String} {offset : Nat} {frontBytes body more : List UInt8}

theorem Line.exists_lineCut (h : Line (Utf8.encode s) offset frontBytes body more)
    (hs : s = front ++ line ++ behind) (hfront : (Utf8.encode front).length = frontBytes.length)
    (hline : (Utf8.encode line).length = (trim body).length)
    (hoffset : String.Pos.Raw.IsValid s ⟨offset⟩) :
    ∃ before after, LineCut s line front before after ∧
      (Utf8.encode (front ++ before)).length = offset := by
  obtain ⟨upTo, after, hcut, hpos⟩ := String.Pos.Raw.isValid_iff_exists_append.mp hoffset
  have hupTo : (Utf8.encode upTo).length = offset := by
    rw [Utf8.length_encode]
    exact (congrArg String.Pos.Raw.byteIdx hpos).symm
  have hsplit : front ++ (line ++ behind) = upTo ++ after := by
    rw [← String.append_assoc, ← hs, hcut]
  obtain ⟨before, rfl, hrest⟩ := exists_append_of_le hsplit (by rw [hfront, hupTo]; exact h.start_le)
  have hbytes : frontBytes = Utf8.encode front ∧
      body ++ more = Utf8.encode before ++ Utf8.encode after := by
    have heq := h.eq
    rw [hcut, Utf8.encode_append, Utf8.encode_append, List.append_assoc] at heq
    exact List.append_inj heq.symm hfront.symm
  obtain ⟨rfl, hbody⟩ := hbytes
  rw [Utf8.encode_append, List.length_append] at hupTo
  have hle : (Utf8.encode before).length ≤ body.length := by
    have hstop := h.le_stop
    omega
  have hbegin : Utf8.encode before <+: body :=
    List.prefix_of_prefix_length_le ⟨Utf8.encode after, hbody.symm⟩ (List.prefix_append _ _) hle
  refine ⟨before, after, ⟨hcut, ?_, ?_, ?_⟩, ?_⟩
  · rcases h.before with he | hlast
    · rw [← Utf8.encode_empty, Utf8.encode_inj] at he
      exact .inl he
    · exact .inr (exists_append_lineFeed hlast)
  · exact oneLine_of_not_mem_encode fun hmem => h.within (hbegin.subset hmem)
  · by_cases hshort : (Utf8.encode before).length ≤ (Utf8.encode line).length
    · obtain ⟨rest, hrow, hafter⟩ := exists_append_of_le hrest.symm hshort
      exact .inl ⟨rest, behind, hrow, hafter⟩
    · -- the place lies behind what is printed, so all of the line comes before it
      obtain ⟨r, rfl, _⟩ := exists_append_of_le hrest (Nat.le_of_not_le hshort)
      have hlt : (trim body).length < body.length := by omega
      have hall : Utf8.encode (line ++ r) = body := hbegin.eq_of_length_le (by
        have hlen := congrArg List.length (eq_trim_append hlt)
        rw [List.length_append, List.length_singleton] at hlen
        omega)
      rw [Utf8.encode_append, eq_trim_append hlt] at hall
      have hr := (List.append_inj hall hline).2
      rw [← encode_carriageReturn, Utf8.encode_inj] at hr
      exact .inr (by rw [hr])
  · rw [Utf8.encode_append, List.length_append, hupTo]

end

end Location

namespace Lexed

theorem exists_lineCut (x : Lexed) {i : Nat}
    (hi : String.Pos.Raw.IsValid x.text ⟨(x.token i).start⟩) :
    ∃ front before after, LineCut x.text (x.lineText (x.location i)) front before after ∧
      (Utf8.encode (front ++ before)).length = (x.token i).start ∧
      (Utf8.encode before).length = (x.location i).column := by
  have hle : (x.token i).start ≤ (Utf8.encode x.text).length := by
    rw [← x.bytes_size]
    exact x.boundary_le i
  obtain ⟨frontBytes, body, more, hline, hlocate⟩ := Location.exists_line hle x.linesBefore
  have hlocation : x.location i = _ := (congrArg (Location.locate · _ _) x.bytes_eq).trans hlocate
  have hlocates : Location.Locates _ _ x.linesBefore _ := hline.locates
  obtain ⟨front, line, behind, htext, hfront, hsize⟩ := hlocates.exists_text
  have hprinted : x.lineText (x.location i) = line :=
    x.lineText_eq htext (by rw [hfront, hlocation]) (by rw [hsize, hlocation])
  obtain ⟨before, after, hcut, hstart⟩ := hline.exists_lineCut htext hfront hsize hi
  refine ⟨front, before, after, hprinted ▸ hcut, hstart, ?_⟩
  rw [Utf8.encode_append, List.length_append, hfront] at hstart
  rw [hlocation]
  exact (Nat.sub_eq_of_eq_add' hstart.symm).symm

end Lexed

/-! ## rows of a rendering -/

/-- what has no line feed stands in the first row of what it begins -/
theorem splitOn_append {cs ds row : List Char} {rows : List (List Char)} (h : '\n' ∉ cs)
    (hrows : ds.splitOn '\n' = row :: rows) : (cs ++ ds).splitOn '\n' = (cs ++ row) :: rows := by
  induction cs with
  | nil => exact hrows
  | cons c cs ih =>
    have hc : c ≠ '\n' := fun he => h (he ▸ List.mem_cons_self)
    rw [List.cons_append, List.splitOn_cons_eq_if_modifyHead, if_neg (mt beq_iff_eq.mp hc),
      ih (List.not_mem_of_not_mem_cons h)]
    rfl

theorem textLines_of_oneLine {s : String} (h : OneLine s) : textLines s = [s] := by
  rw [textLines, List.splitOn_eq_singleton h, List.map_singleton, String.ofList_toList]

theorem exists_textLines_append {s : String} (h : OneLine s) (t : String) :
    ∃ row rows, textLines (s ++ t) = (s ++ row) :: rows := by
  obtain ⟨row, rows, hrows⟩ := List.exists_cons_of_ne_nil (List.splitOn_ne_nil '\n' t.toList)
  refine ⟨String.ofList row, rows.map String.ofList, ?_⟩
  rw [textLines, String.toList_append, splitOn_append h hrows, List.map_cons, String.ofList_append,
    String.ofList_toList]

namespace Diagnostic

theorem textLines_output (d : Diagnostic) :
    textLines (Emitter.plain.after [d]).output = d.lines.flatMap textLines ++ [""] := by
  rw [textLines, toList_output, splitOn_flatMap, List.map_append, List.map_flatMap]
  rfl

def gutter (line : Nat) : String := " " ++ toString line ++ " | "

def blankGutter (line : Nat) : String := "".pushn ' ' ((toString line).length + 1) ++ " | "

theorem length_blankGutter (line : Nat) : (blankGutter line).length = (gutter line).length := by
  have hspace : " ".length = 1 := rfl
  rw [blankGutter, gutter, String.length_append, String.length_pushn, String.length_append,
    String.length_append, hspace, String.length_empty, Nat.zero_add, Nat.add_comm 1]

theorem exists_carets (s : Snippet) (label : String) : ∃ more, s.carets label = "^" ++ more := by
  obtain ⟨n, hn⟩ : ∃ n, max s.width 1 = n + 1 := Nat.exists_eq_succ_of_ne_zero (by omega)
  have hcarets : "".pushn '^' (max s.width 1) = "^" ++ "".pushn '^' n := by
    rw [← String.toList_inj, hn, toList_pushn, String.toList_append, toList_pushn]
    rfl
  unfold Snippet.carets
  dsimp only
  rw [hcarets]
  split
  · exact ⟨_, rfl⟩
  · exact ⟨_, by rw [String.append_assoc, String.append_assoc]⟩

/-! ## the row of carets -/

section
variable {c : Char} (ht : c ≠ '\t') (hb : c ≠ ' ') (hbar : c ≠ '|')
include hb

include ht in
theorem lacks_blanks (before : String) : Lacks c (before.map blankBelow) := by
  intro h
  rw [String.toList_map] at h
  obtain ⟨b, _, rfl⟩ := List.mem_map.mp h
  rcases blankBelow_cases b with e | e
  · exact ht e
  · exact hb e

include hbar in
theorem lacks_blankGutter (line : Nat) : Lacks c (blankGutter line) := by
  have hend : Lacks c " | " := by
    show c ∉ [' ', '|', ' ']
    simp [hb, hbar]
  exact lacks_append.mpr ⟨lacks_pushn hb _, hend⟩

include ht hbar in
/-- no line feed or caret stands before the first caret -/
theorem lacks_margin (line : Nat) (before : String) :
    Lacks c (blankGutter line ++ before.map blankBelow) :=
  lacks_append.mpr ⟨lacks_blankGutter hb hbar line, lacks_blanks ht hb before⟩

end

theorem idxOf_caret (line : Nat) (before more : String) :
    (blankGutter line ++ before.map blankBelow ++ "^" ++ more).toList.idxOf '^' =
      (gutter line ++ before).length := by
  have hmargin : Lacks '^' (blankGutter line ++ before.map blankBelow) :=
    lacks_margin (by decide) (by decide) (by decide) line before
  rw [String.append_assoc, String.toList_append, List.idxOf_append_of_notMem hmargin,
    String.length_toList, String.length_append, String.length_append, length_blankGutter,
    String.length_map, String.toList_append]
  rfl

theorem exists_rows {d : Diagnostic} {s : Snippet} {before : String} (hs : d.snippet = some s)
    (hline : OneLine s.lineText)
    (hindent : caretIndent (s.column - 1) s.lineText.toList = before.toList.map blankBelow) :
    ∃ above more below, textLines (Emitter.plain.after [d]).output = above ++ [gutter s.line ++ s.lineText,
      blankGutter s.line ++ before.map blankBelow ++ "^" ++ more] ++ below := by
  obtain ⟨carets, hcarets⟩ := exists_carets s d.label
  have hblanks : String.ofList (before.toList.map blankBelow) = before.map blankBelow := by
    rw [← String.toList_inj, String.toList_ofList, String.toList_map]
  obtain ⟨arrow, bar, hlines⟩ : ∃ arrow bar, s.lines d.label = [arrow, bar,
      gutter s.line ++ s.lineText, blankGutter s.line ++ before.map blankBelow ++ "^" ++ carets] := by
    unfold Snippet.lines
    dsimp only
    rw [hindent, hblanks, hcarets, ← String.append_assoc]
    exact ⟨_, _, rfl⟩
  have hsource : OneLine (gutter s.line ++ s.lineText) := by
    have h : OneLine " " ∧ OneLine " | " := by decide
    simp [gutter, h, hline]
  have hmargin : OneLine (blankGutter s.line ++ before.map blankBelow ++ "^") := by
    have hcaret : OneLine "^" := by decide
    exact oneLine_append.mpr ⟨lacks_margin (by decide) (by decide) (by decide) _ _, hcaret⟩
  obtain ⟨more, rows, hrows⟩ := exists_textLines_append hmargin carets
  refine ⟨textLines d.header ++ textLines arrow ++ textLines bar, more,
    rows ++ (d.notes.map fun note => "  = note: " ++ note).flatMap textLines ++ [""], ?_⟩
  rw [textLines_output, lines, hs, Option.map_some, Option.getD_some, hlines]
  simp [textLines_of_oneLine hsource, hrows]

end Diagnostic

open Diagnostic

/-! ## the caret of a token -/

/-- one blank stands below each character between the start of the line and the token, also below a
carriage return that is not printed -/
theorem LineCut.caretIndent_eq {text line front before after : String}
    (h : LineCut text line front before after) :
    caretIndent (Utf8.encode before).length line.toList = before.toList.map blankBelow := by
  rw [Utf8.encode_eq_flatMap]
  rcases h.shown with ⟨rest, _, rfl, _⟩ | rfl
  · have hindent := caretIndent_append before.toList rest.toList 0
    rwa [caretIndent_zero, List.append_nil, Nat.add_zero, ← String.toList_append] at hindent
  · have hindent := caretIndent_append line.toList [] 1
    rw [caretIndent_nil, List.append_nil] at hindent
    rw [String.toList_append, List.flatMap_append, List.length_append, List.map_append]
    exact hindent

/-- one of the rows is the line of the token `i`, and the one right below it has its first caret where
the token begins: below what the line has before the token stands one blank for each character, a tab
below a tab, and the gutters are of the same width -/
def CaretBelow (x : Lexed) (i : Nat) (rows : List String) : Prop :=
  ∃ front before after above more below,
    LineCut x.text (x.lineText (x.location i)) front before after ∧
    (Utf8.encode (front ++ before)).length = (x.token i).start ∧
    let source := gutter (x.location i).line ++ x.lineText (x.location i)
    let carets := blankGutter (x.location i).line ++ before.map blankBelow ++ "^" ++ more
    rows = above ++ [source, carets] ++ below ∧
    carets.toList.idxOf '^' = (gutter (x.location i).line ++ before).length

/-- let the snippet of a diagnostic be that of a token that begins where a character does.  Then its
plain rendering has the caret below the token, even if that is a part of the line's end -/
theorem caret_below_token (x : Lexed) (i width : Nat) {d : Diagnostic}
    (hs : d.snippet = some (Report.snippet x i width))
    (hi : String.Pos.Raw.IsValid x.text ⟨(x.token i).start⟩) :
    CaretBelow x i (textLines (Emitter.plain.after [d]).output) := by
  obtain ⟨front, before, after, hcut, hstart, hcolumn⟩ := x.exists_lineCut hi
  have hindent : caretIndent ((Report.snippet x i width).column - 1)
      (Report.snippet x i width).lineText.toList = before.toList.map blankBelow := by
    rw [← hcut.caretIndent_eq, hcolumn]
    rfl
  obtain ⟨above, more, below, hrows⟩ := exists_rows hs (oneLine_lineText x i) hindent
  exact ⟨front, before, after, above, more, below, hcut, hstart, hrows,
    idxOf_caret (x.location i).line before more⟩

/-- the line feed behind `é`, a tab, `x` and a carriage return is the fifth character of its line, and
its sixth byte -/
theorem caret_below_token_feed :
    let x := Lexed.ofText "é\tx\r\n" "a.txt" 99 {}
    let d : Diagnostic :=
      { code := .expectedText
        message := "expected 'y'"
        snippet := some (Report.snippet x 5 1)
        label := "here" }
    d.snippet = some (Report.snippet x 5 1) ∧
    String.Pos.Raw.IsValid x.text ⟨(x.token 5).start⟩ ∧
    textLines (Emitter.plain.after [d]).output = ["error[E1002]: expected 'y'",
      "    --> a.txt:100:6", "     |", " 100 | é\tx", "     |  \t  ^ here", ""] ∧
    CaretBelow x 5 (textLines (Emitter.plain.after [d]).output) := by
  intro x d
  have hi : String.Pos.Raw.IsValid x.text ⟨(x.token 5).start⟩ := by
    have hstart : (x.token 5).start = 5 := by decide +kernel
    rw [hstart]
    exact (Utf8.isValid_of_getElem? encode_lineFeed (by decide +kernel)).1
  exact ⟨rfl, hi, by decide +kernel, caret_below_token x 5 1 rfl hi⟩

end Ebnf
