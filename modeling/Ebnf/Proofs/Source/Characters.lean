import Ebnf.Utf8

/-!
# Bytes and characters of a text

The bytes of a text lie in those of another one only where its characters do: no character begins
inside another.

* `isValid_of_begins`   where the bytes of a text begin and end, characters begin and end;
* `exists_between`      between two such places a text stands.
-/

namespace Ebnf.Utf8

theorem length_encode (s : String) : (encode s).length = s.utf8ByteSize := Array.length_toList

/-- where the bytes of a text begin and end in those of `s`, so do characters of `s` -/
theorem isValid_of_begins {s t : String} {i : Nat} (ht : t ≠ "")
    (h : encode t <+: (encode s).drop i) :
    String.Pos.Raw.IsValid s ⟨i⟩ ∧ String.Pos.Raw.IsValid s ⟨i + (encode t).length⟩ := by
  have hpos : 0 < (encode t).length := by
    rw [length_encode]
    exact Nat.pos_of_ne_zero (mt String.utf8ByteSize_eq_zero_iff.mp ht)
  have hle : i + (encode t).length ≤ s.utf8ByteSize := by
    have hlen := h.length_le
    rw [List.length_drop, length_encode s] at hlen
    omega
  have e : s.toByteArray.extract i (i + (encode t).length) = t.toByteArray := by
    apply ByteArray.ext
    apply Array.toList_inj.mp
    rw [ByteArray.data_extract, Array.toList_extract, List.extract_eq_take_drop,
      Nat.add_sub_cancel_left]
    exact (List.prefix_iff_eq_take.mp h).symm
  have hiff := String.Pos.Raw.isValidUTF8_extract_iff (s := s) ⟨i⟩ ⟨i + (encode t).length⟩
    (Nat.le_add_right _ _) hle
  rw [e] at hiff
  rcases hiff.mp t.isValidUTF8 with heq | hvalid
  · have hbyte := congrArg String.Pos.Raw.byteIdx heq
    dsimp only at hbyte
    omega
  · exact hvalid

/-- a byte that is a character of its own is one wherever it is found -/
theorem isValid_of_getElem? {s t : String} {i : Nat} {b : UInt8} (ht : encode t = [b])
    (h : (encode s)[i]? = some b) :
    String.Pos.Raw.IsValid s ⟨i⟩ ∧ String.Pos.Raw.IsValid s ⟨i + 1⟩ := by
  have hne : t ≠ "" := fun e => by simp [e] at ht
  have hbegins : encode t <+: (encode s).drop i := by
    obtain ⟨hi, he⟩ := List.getElem?_eq_some_iff.mp h
    rw [ht, List.drop_eq_getElem_cons hi, he]
    exact List.prefix_append [b] _
  have hvalid := isValid_of_begins hne hbegins
  rwa [ht] at hvalid

theorem exists_between {s : String} {i j : Nat} (hi : String.Pos.Raw.IsValid s ⟨i⟩)
    (hj : String.Pos.Raw.IsValid s ⟨j⟩) (hij : i ≤ j) :
    ∃ u t w, s = u ++ t ++ w ∧ (encode u).length = i ∧ (encode t).length = j - i := by
  obtain ⟨v, w, rfl, hv⟩ := String.Pos.Raw.isValid_iff_exists_append.mp hj
  obtain rfl : j = v.utf8ByteSize := congrArg String.Pos.Raw.byteIdx hv
  rcases String.Pos.Raw.isValid_append.mp hi with hi | ⟨hle, _⟩
  · obtain ⟨u, t, rfl, hu⟩ := String.Pos.Raw.isValid_iff_exists_append.mp hi
    obtain rfl : i = u.utf8ByteSize := congrArg String.Pos.Raw.byteIdx hu
    refine ⟨u, t, w, rfl, length_encode u, ?_⟩
    rw [length_encode, String.utf8ByteSize_append, Nat.add_sub_cancel_left]
  · -- both places are the same
    obtain rfl : i = v.utf8ByteSize := Nat.le_antisymm hij hle
    refine ⟨v, "", w, ?_, length_encode v, (Nat.sub_self _).symm⟩
    rw [String.append_empty]

end Ebnf.Utf8
