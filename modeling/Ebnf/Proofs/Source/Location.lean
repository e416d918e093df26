import Mathlib.Data.List.Induction
import Mathlib.Data.List.TakeWhile
import Ebnf.Proofs.Source.Characters
import Ebnf.Proofs.Source.Partition

/-!
# The line of a token

The location of a token is the line its first byte lies in, however long the token is and even if
that byte is part of the line's end.

* `IsFeed`                the first line feed from a place on;
* `Locates`               what the location of an offset says;
* `Locates.unique`        that is enough to know it;
* `Line`                  bytes cut where the line of an offset begins and ends;
* `locates_iff`           reading back and forth from an offset finds its location;
* `Locates.exists_text`   no character is cut where a line begins or ends;
* `location_exact`        all of that for the tokens of a source.
-/

namespace Ebnf

namespace Location

/-- the first line feed from `start` on stands at `e`; there is none if `e` is the end -/
structure IsFeed (bytes : List UInt8) (start e : Nat) : Prop where
  start_le : start ≤ e
  le_length : e ≤ bytes.length
  feed : e < bytes.length → bytes[e]? = some lineFeed
  first : ∀ i, start ≤ i → i < e → bytes[i]? ≠ some lineFeed

/-- what `l` says of the byte at `offset`, with `linesBefore` lines before the source -/
structure Locates (bytes : List UInt8) (offset linesBefore : Nat) (l : Location) : Prop where
  start_le : l.lineStart ≤ offset
  column : l.column = offset - l.lineStart
  begins : l.lineStart = 0 ∨ bytes[l.lineStart - 1]? = some lineFeed
  inside : ∀ i, l.lineStart ≤ i → i < offset → bytes[i]? ≠ some lineFeed
  line : l.line = min (linesBefore + 1 + (bytes.take offset).count lineFeed) Word.maxWord
  stop : ∃ e, IsFeed bytes l.lineStart e ∧ l.lineStart + l.lineSize =
    if l.lineStart < e ∧ bytes[e - 1]? = some carriageReturn then e - 1 else e

section
variable {bytes : List UInt8} {offset linesBefore start : Nat}

theorem IsFeed.le_of_isFeed {e e' : Nat} (h : IsFeed bytes start e) (h' : IsFeed bytes start e') :
    e ≤ e' := by
  apply Nat.le_of_not_lt
  intro hlt
  have hlen := h.le_length
  exact h.first e' h'.start_le hlt (h'.feed (by omega))

theorem IsFeed.unique {e e' : Nat} (h : IsFeed bytes start e) (h' : IsFeed bytes start e') :
    e = e' :=
  Nat.le_antisymm (h.le_of_isFeed h') (h'.le_of_isFeed h)

theorem Locates.start_le_start {l l' : Location} (h : Locates bytes offset linesBefore l)
    (h' : Locates bytes offset linesBefore l') : l.lineStart ≤ l'.lineStart := by
  apply Nat.le_of_not_lt
  intro hlt
  have hle := h.start_le
  -- the line feed in front of the later start would lie inside the other line
  rcases h.begins with h0 | hfeed
  · omega
  · exact h'.inside (l.lineStart - 1) (by omega) (by omega) hfeed

theorem Locates.unique {l l' : Location} (h : Locates bytes offset linesBefore l)
    (h' : Locates bytes offset linesBefore l') : l = l' := by
  have hstart := Nat.le_antisymm (h.start_le_start h') (h'.start_le_start h)
  have hcolumn : l.column = l'.column := by rw [h.column, h'.column, hstart]
  have hline : l.line = l'.line := h.line.trans h'.line.symm
  obtain ⟨e, he, hsize⟩ := h.stop
  obtain ⟨e', he', hsize'⟩ := h'.stop
  rw [hstart] at he hsize
  rw [he.unique he', ← hsize'] at hsize
  have hsize := Nat.add_left_cancel hsize
  cases l
  cases l'
  rw [mk.injEq]
  exact ⟨hstart, hsize, hline, hcolumn⟩

/-! ## lines cut out of the bytes -/

/-- `body` is the line that an offset lies in, up to its line feed -/
structure Line (bytes : List UInt8) (offset : Nat) (front body more : List UInt8) : Prop where
  eq : bytes = front ++ (body ++ more)
  before : front = [] ∨ front.getLast? = some lineFeed
  within : lineFeed ∉ body
  after : more = [] ∨ more.head? = some lineFeed
  start_le : front.length ≤ offset
  le_stop : offset ≤ front.length + body.length

/-- reading back from the end of some bytes stops behind their last line feed -/
theorem exists_back (bs : List UInt8) : ∃ front back, bs = front ++ back ∧ lineFeed ∉ back ∧
    (front = [] ∨ front.getLast? = some lineFeed) ∧
    (bs.reverse.takeWhile (· != lineFeed)).length = back.length := by
  induction bs using List.reverseRecOn with
  | nil => exact ⟨[], [], rfl, List.not_mem_nil, .inl rfl, rfl⟩
  | append_singleton bs b ih =>
    rw [List.reverse_append, List.reverse_singleton, List.singleton_append]
    by_cases hb : b = lineFeed
    · subst hb
      refine ⟨bs ++ [lineFeed], [], (List.append_nil _).symm, List.not_mem_nil, .inr ?_, ?_⟩
      · exact List.getLast?_concat
      · rw [List.takeWhile_cons_of_neg (by simp)]
    · obtain ⟨front, back, rfl, hback, hfront, hlen⟩ := ih
      refine ⟨front, back ++ [b], List.append_assoc _ _ _, ?_, hfront, ?_⟩
      · simp [hback, Ne.symm hb]
      · rw [List.takeWhile_cons_of_pos (by simpa using hb), List.length_cons, hlen,
          List.length_append, List.length_singleton]

/-- reading on from a place stops at the first line feed -/
theorem exists_ahead (bs : List UInt8) : ∃ more, bs = bs.takeWhile (· != lineFeed) ++ more ∧
    lineFeed ∉ bs.takeWhile (· != lineFeed) ∧ (more = [] ∨ more.head? = some lineFeed) := by
  refine ⟨bs.dropWhile (· != lineFeed), List.takeWhile_append_dropWhile.symm, fun hmem => ?_, ?_⟩
  · simpa using List.mem_takeWhile_imp hmem
  · have hhead := List.head?_dropWhile_not (· != lineFeed) bs
    cases e : bs.dropWhile (· != lineFeed) with
    | nil => exact .inl rfl
    | cons b rest =>
      rw [e] at hhead
      simpa using hhead

theorem exists_line (h : offset ≤ bytes.length) (linesBefore : Nat) :
    ∃ front body more, Line bytes offset front body more ∧
      locate bytes offset linesBefore = ⟨front.length, (trim body).length,
        Word.satAdd linesBefore (1 + (bytes.take offset).count lineFeed),
        offset - front.length⟩ := by
  obtain ⟨front, back, hsplit, hback, hfront, hlen⟩ := exists_back (bytes.take offset)
  obtain ⟨more, hmore, hwithin, hafter⟩ := exists_ahead (bytes.drop offset)
  have hoffset : front.length + back.length = offset := by
    rw [← List.length_append, ← hsplit, List.length_take, Nat.min_eq_left h]
  have hbytes : bytes = front ++ (back ++ bytes.drop offset) := by
    rw [← List.append_assoc, ← hsplit, List.take_append_drop]
  have hdrop : bytes.drop front.length = back ++ bytes.drop offset :=
    (congrArg (List.drop front.length) hbytes).trans List.drop_left
  -- what lies between the start of the line and the offset has no line feed to stop at
  have htake : (back ++ bytes.drop offset).takeWhile (· != lineFeed) =
      back ++ (bytes.drop offset).takeWhile (· != lineFeed) :=
    List.takeWhile_append_of_pos fun b hb => bne_iff_ne.mpr fun e => hback (e ▸ hb)
  refine ⟨front, back ++ (bytes.drop offset).takeWhile (· != lineFeed), more,
    ⟨?_, hfront, ?_, hafter, by omega, ?_⟩, ?_⟩
  · rw [List.append_assoc, ← hmore, ← hbytes]
  · simp [hback, hwithin]
  · rw [List.length_append]
    omega
  · rw [locate, Nat.min_eq_left h, hlen]
    have hstart : offset - back.length = front.length := by omega
    have hcolumn : back.length = offset - front.length := by omega
    rw [hstart, hdrop, htake, ← hcolumn]

section
variable {front body more : List UInt8} (h : Line bytes offset front body more)
include h

theorem Line.getElem?_body {i : Nat} (hi : i < body.length) :
    bytes[front.length + i]? = body[i]? := by
  rw [h.eq, List.getElem?_append_right (Nat.le_add_right _ _), Nat.add_sub_cancel_left,
    List.getElem?_append_left hi]

theorem Line.isFeed : IsFeed bytes front.length (front.length + body.length) where
  start_le := Nat.le_add_right _ _
  le_length := by
    rw [h.eq, ← List.append_assoc, List.length_append, List.length_append]
    exact Nat.le_add_right _ _
  feed hlt := by
    rw [h.eq, ← List.append_assoc, ← List.length_append,
      List.getElem?_append_right (Nat.le_refl _), Nat.sub_self, ← List.head?_eq_getElem?]
    rcases h.after with rfl | hhead
    · have hlen := congrArg List.length h.eq
      rw [List.append_nil, List.length_append] at hlen
      omega
    · exact hhead
  first i hle hlt he := by
    obtain ⟨n, rfl⟩ := Nat.exists_eq_add_of_le hle
    rw [h.getElem?_body (by omega)] at he
    exact h.within (List.mem_of_getElem? he)

theorem Line.trim_eq : front.length + (trim body).length =
    let e := front.length + body.length
    if front.length < e ∧ bytes[e - 1]? = some carriageReturn then e - 1 else e := by
  rcases List.eq_nil_or_concat body with rfl | ⟨init, b, rfl⟩
  · simp [trim]
  · rw [List.concat_eq_append] at h ⊢
    have hlast := h.getElem?_body (i := init.length) (by simp)
    rw [List.getElem?_concat_length] at hlast
    dsimp only
    rw [List.length_append, List.length_singleton, ← Nat.add_assoc, Nat.add_sub_cancel, hlast,
      trim, List.getLast?_concat, List.dropLast_concat]
    by_cases hb : b = carriageReturn
    · rw [if_pos (congrArg some hb), if_pos ⟨by omega, congrArg some hb⟩]
    · rw [if_neg (mt Option.some.inj hb), if_neg fun hc => hb (Option.some.inj hc.2)]
      simp [Nat.add_assoc]

theorem Line.locates : Locates bytes offset linesBefore ⟨front.length, (trim body).length,
    Word.satAdd linesBefore (1 + (bytes.take offset).count lineFeed), offset - front.length⟩ where
  start_le := h.start_le
  column := rfl
  begins := by
    rcases h.before with rfl | hlast
    · exact .inl rfl
    · refine .inr ?_
      have hne : front ≠ [] := fun e => by simp [e] at hlast
      have hpos := List.length_pos_iff.mpr hne
      rw [h.eq]
      show (front ++ _)[front.length - 1]? = _
      rw [List.getElem?_append_left (by omega), ← List.getLast?_eq_getElem?, hlast]
  inside i hle hlt := by
    have hstop := h.le_stop
    exact h.isFeed.first i hle (by omega)
  line := by
    show min (_ + (1 + _)) _ = _
    rw [Nat.add_assoc]
  stop := ⟨_, h.isFeed, h.trim_eq⟩

end

theorem locates_iff (h : offset ≤ bytes.length) {l : Location} :
    Locates bytes offset linesBefore l ↔ l = locate bytes offset linesBefore := by
  obtain ⟨front, body, more, hline, he⟩ := exists_line h linesBefore
  rw [he]
  refine ⟨fun hl => hl.unique hline.locates, ?_⟩
  rintro rfl
  exact hline.locates

/-- characters begin and end where a line does -/
theorem Locates.exists_text {s : String} {l : Location}
    (h : Locates (Utf8.encode s) offset linesBefore l) :
    ∃ u t w, s = u ++ t ++ w ∧ (Utf8.encode u).length = l.lineStart ∧
      (Utf8.encode t).length = l.lineSize := by
  have hfeed : Utf8.encode "\n" = [lineFeed] := by decide
  have hreturn : Utf8.encode "\r" = [carriageReturn] := by decide
  have hstart : String.Pos.Raw.IsValid s ⟨l.lineStart⟩ := by
    by_cases h0 : l.lineStart = 0
    · rw [h0]
      exact String.Pos.Raw.isValid_zero
    · have hvalid := (Utf8.isValid_of_getElem? hfeed (h.begins.resolve_left h0)).2
      rwa [Nat.sub_add_cancel (Nat.pos_of_ne_zero h0)] at hvalid
  have hstop : String.Pos.Raw.IsValid s ⟨l.lineStart + l.lineSize⟩ := by
    obtain ⟨e, he, hstop⟩ := h.stop
    rw [hstop]
    split
    · rename_i hc
      exact (Utf8.isValid_of_getElem? hreturn hc.2).1
    · rcases Nat.lt_or_eq_of_le he.le_length with hlt | rfl
      · exact (Utf8.isValid_of_getElem? hfeed (he.feed hlt)).1
      · rw [Utf8.length_encode]
        exact String.Pos.Raw.isValid_rawEndPos
  have hbetween := Utf8.exists_between hstart hstop (Nat.le_add_right _ _)
  rwa [Nat.add_sub_cancel_left] at hbetween

end

end Location

namespace Lexed

open Location

theorem lineText_eq (x : Lexed) {l : Location} {u t w : String} (h : x.text = u ++ t ++ w)
    (hu : (Utf8.encode u).length = l.lineStart) (ht : (Utf8.encode t).length = l.lineSize) :
    x.lineText l = t := by
  have hbytes : Utf8.encode x.text = Utf8.encode u ++ (Utf8.encode t ++ Utf8.encode w) := by
    rw [h, Utf8.encode_append, Utf8.encode_append, List.append_assoc]
  have hslice : x.slice l.lineStart (l.lineStart + l.lineSize) = Utf8.encode t := by
    rw [x.slice_eq_iff (Nat.le_add_right _ _), ← hu, ← ht, hbytes, List.drop_left]
    · exact ⟨List.prefix_append _ _, rfl⟩
    · rw [x.bytes_size, hbytes, List.length_append, List.length_append, hu, ht]
      omega
  rw [lineText, hslice, Utf8.decodeLossy_encode]

/-- the location of a token is found, and the text of its line cuts no character -/
theorem location_exact (x : Lexed) (i : Nat) :
    (∀ l, Locates (Utf8.encode x.text) (x.token i).start x.linesBefore l ↔ l = x.location i) ∧
    (x.size ≤ i → (x.token i).start = (Utf8.encode x.text).length) ∧
    ∃ before after, x.text = before ++ x.lineText (x.location i) ++ after ∧
      (Utf8.encode before).length = (x.location i).lineStart ∧
      (Utf8.encode (x.lineText (x.location i))).length = (x.location i).lineSize := by
  have hle : (x.token i).start ≤ (Utf8.encode x.text).length := by
    rw [← x.bytes_size]
    exact x.boundary_le i
  have hiff : ∀ l, Locates (Utf8.encode x.text) (x.token i).start x.linesBefore l ↔
      l = x.location i := by
    intro l
    rw [locates_iff hle, location, x.bytes_eq]
  refine ⟨hiff, fun hi => ?_, ?_⟩
  · rw [← x.bytes_size]
    exact x.boundary_of_size_le hi
  · obtain ⟨before, text, after, htext, hstart, hsize⟩ := ((hiff _).mpr rfl).exists_text
    rw [x.lineText_eq htext hstart hsize]
    exact ⟨before, after, htext, hstart, hsize⟩

/-- the line feed behind a carriage return lies past the text of its line -/
example : (ofText "é\r\nx" "input" 0 {}).location 3 = ⟨0, 2, 1, 3⟩ := by decide +kernel

end Lexed

end Ebnf
