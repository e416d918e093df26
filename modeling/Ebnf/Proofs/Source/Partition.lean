import Ebnf.Lexed

/-!
# The tokens of a source partition it

* `Abut`            tokens that lie side by side from one offset to another, none of them empty;
* `abut_tokenize`   the tokens of a source do, from its first byte to its end;
* `boundary`        where a token starts; past the last token, where the source ends;
* `boundary_lt`     a later token starts later;
* `isEof_token`     only the end of the input has the category of the end of the input;
* `covered`         the bytes of a run of whole tokens;
* `covered_eq`      they are the bytes between two boundaries.
-/

namespace Ebnf

/-! ## tokens side by side -/

/-- the tokens begin at `a`, each where the one before ends, and the last ends at `b` -/
def Abut : (a : Nat) → List Token → (b : Nat) → Prop
  | a, [], b => a = b
  | a, t :: ts, b => t.start = a ∧ 0 < t.size ∧ Abut t.stop ts b

theorem abut_tokenizeFrom (w : Words) (skip pos : Nat) (bs : List UInt8) (h : skip ≤ bs.length) :
    Abut (pos + skip) (tokenizeFrom w skip pos bs) (pos + bs.length) := by
  induction bs generalizing skip pos with
  | nil =>
    obtain rfl : skip = 0 := Nat.le_zero.mp h
    rfl
  | cons b rest ih =>
    rw [List.length_cons] at h
    have e : pos + (b :: rest).length = pos + 1 + rest.length := by
      rw [List.length_cons]
      omega
    rw [e]
    cases skip with
    | succ n =>
      have ih := ih n (pos + 1) (by omega)
      rwa [show pos + 1 + n = pos + (n + 1) by omega] at ih
    | zero =>
      unfold tokenizeFrom
      split
      · rename_i n hn
        obtain ⟨hpos, hle⟩ := Words.bounds_of_longestMatch hn
        rw [List.length_cons] at hle
        have ih := ih (n - 1) (pos + 1) (by omega)
        rw [show pos + 1 + (n - 1) = pos + n by omega] at ih
        exact ⟨rfl, hpos, ih⟩
      · exact ⟨rfl, Nat.one_pos, ih 0 (pos + 1) (Nat.zero_le _)⟩

theorem abut_tokenize (w : Words) (bs : List UInt8) : Abut 0 (tokenize w bs) bs.length := by
  have h := abut_tokenizeFrom w 0 0 bs (Nat.zero_le _)
  rwa [Nat.zero_add, Nat.zero_add] at h

theorem Abut.start_head {a b : Nat} {ts : List Token} (h : Abut a ts b) :
    (ts[0]?.map Token.start).getD b = a := by
  cases ts with
  | nil => exact h.symm
  | cons t ts => exact h.1

theorem Abut.stop_of_getElem? {a b : Nat} {ts : List Token} (h : Abut a ts b) {i : Nat} {t : Token}
    (ht : ts[i]? = some t) : 0 < t.size ∧ t.stop = (ts[i + 1]?.map Token.start).getD b := by
  induction ts generalizing a i with
  | nil => cases ht
  | cons u ts ih =>
    obtain ⟨_, hsize, hrest⟩ := h
    cases i with
    | zero =>
      obtain rfl : u = t := Option.some.inj ht
      exact ⟨hsize, hrest.start_head.symm⟩
    | succ i => exact ih hrest ht

theorem isEof_of_mem_tokenizeFrom {w : Words} {skip pos : Nat} {bs : List UInt8} {t : Token}
    (h : t ∈ tokenizeFrom w skip pos bs) : t.mask.isEof = false := by
  induction bs generalizing skip pos with
  | nil => cases skip <;> cases h
  | cons b rest ih =>
    cases skip with
    | succ n => exact ih h
    | zero =>
      unfold tokenizeFrom at h
      split at h
      · rcases List.mem_cons.mp h with rfl | h
        · exact Mask.isEof_word
        · exact ih h
      · rcases List.mem_cons.mp h with rfl | h
        · exact isEof_classify b
        · exact ih h

namespace Lexed

variable (x : Lexed)

/-! ## boundaries -/

def boundary (i : Nat) : Nat := (x.token i).start

theorem boundary_eq (i : Nat) :
    x.boundary i = (x.tokens[i]?.map Token.start).getD x.bytes.size := by
  unfold boundary token
  cases x.tokens[i]? <;> rfl

theorem abut_tokens : Abut 0 x.tokens.toList x.bytes.size := by
  have h := abut_tokenize x.words x.bytes.toList
  rwa [← x.tokens_eq, Array.length_toList] at h

theorem boundary_of_size_le {i : Nat} (h : x.size ≤ i) : x.boundary i = x.bytes.size := by
  rw [boundary, token_of_size_le h, Token.start_eof]

theorem stop_token {i : Nat} (h : i < x.size) :
    0 < (x.token i).size ∧ (x.token i).stop = x.boundary (i + 1) := by
  have ht : x.tokens[i]? = some x.tokens[i] := Array.getElem?_eq_getElem h
  rw [token_of_getElem? ht, boundary_eq, ← Array.getElem?_toList]
  exact x.abut_tokens.stop_of_getElem? (by rw [Array.getElem?_toList, ht])

theorem boundary_lt_succ {i : Nat} (h : i < x.size) : x.boundary i < x.boundary (i + 1) := by
  obtain ⟨hsize, hstop⟩ := x.stop_token h
  rw [← hstop]
  exact Nat.lt_add_of_pos_right hsize

theorem boundary_mono {i j : Nat} (h : i ≤ j) : x.boundary i ≤ x.boundary j := by
  by_cases hi : x.size ≤ i
  · refine Nat.le_of_eq ?_
    rw [x.boundary_of_size_le hi, x.boundary_of_size_le (Nat.le_trans hi h)]
  · obtain ⟨n, rfl⟩ := Nat.exists_eq_add_of_le h
    clear h
    induction n with
    | zero => exact Nat.le_refl _
    | succ n ih =>
      refine Nat.le_trans ih ?_
      by_cases hk : i + n < x.size
      · exact Nat.le_of_lt (x.boundary_lt_succ hk)
      · refine Nat.le_of_eq ?_
        rw [x.boundary_of_size_le (Nat.le_of_not_lt hk), x.boundary_of_size_le (by omega)]

theorem boundary_le (i : Nat) : x.boundary i ≤ x.bytes.size := by
  rw [← x.boundary_of_size_le (Nat.le_max_right i x.size)]
  exact x.boundary_mono (Nat.le_max_left _ _)

/-- no token is empty, so there are no more of them than bytes -/
theorem size_le : x.size ≤ x.bytes.size := by
  have h : ∀ i, i ≤ x.size → i ≤ x.boundary i := by
    intro i hi
    induction i with
    | zero => exact Nat.zero_le _
    | succ i ih => exact Nat.lt_of_le_of_lt (ih (Nat.le_of_succ_le hi)) (x.boundary_lt_succ hi)
  have hsize := h x.size (Nat.le_refl _)
  rwa [x.boundary_of_size_le (Nat.le_refl _)] at hsize

/-- no token ends past the source, the end of the input included -/
theorem stop_token_le (i : Nat) : (x.token i).stop ≤ x.bytes.size := by
  by_cases hi : i < x.size
  · rw [(x.stop_token hi).2]
    exact x.boundary_le _
  · exact Nat.le_of_eq (congrArg Token.stop (x.token_of_size_le (Nat.le_of_not_lt hi)))

theorem isEof_token {i : Nat} : (x.token i).mask.isEof = true ↔ x.size ≤ i := by
  constructor
  · intro h
    apply Nat.le_of_not_lt
    intro hlt
    have ht : x.tokens[i]? = some x.tokens[i] := Array.getElem?_eq_getElem hlt
    have hmem : x.tokens[i] ∈ tokenize x.words x.bytes.toList := by
      rw [← x.tokens_eq]
      exact Array.mem_toList_iff.mpr (Array.getElem_mem _)
    rw [token_of_getElem? ht, isEof_of_mem_tokenizeFrom hmem] at h
    cases h
  · intro h
    rw [token_of_size_le h]
    exact Token.isEof_mask_eof _

/-! ## runs of whole tokens -/

theorem slice_self (a : Nat) : x.slice a a = [] := by
  rw [slice, Array.toList_extract, List.extract_eq_take_drop, Nat.sub_self, List.take_zero]

theorem slice_append {a b c : Nat} (hab : a ≤ b) (hbc : b ≤ c) :
    x.slice a b ++ x.slice b c = x.slice a c := by
  rw [slice, slice, ← Array.toList_append, Array.extract_append_extract, Nat.min_eq_left hab,
    Nat.max_eq_right hbc, slice]

/-- a stretch of the source is what the source goes on with where it begins -/
theorem slice_eq_iff {a b : Nat} {bs : List UInt8} (hab : a ≤ b) (hb : b ≤ x.bytes.size) :
    x.slice a b = bs ↔ bs <+: (Utf8.encode x.text).drop a ∧ b = a + bs.length := by
  have e : x.slice a b = ((Utf8.encode x.text).drop a).take (b - a) := by
    rw [slice, Array.toList_extract, List.extract_eq_take_drop, x.bytes_eq]
  rw [x.bytes_size] at hb
  rw [e]
  constructor
  · rintro rfl
    refine ⟨List.take_prefix _ _, ?_⟩
    rw [List.length_take, List.length_drop]
    omega
  · rintro ⟨hp, rfl⟩
    rw [Nat.add_sub_cancel_left]
    exact (List.prefix_iff_eq_take.mp hp).symm

/-- the bytes of the tokens from `i` on and before `j` -/
def covered (i j : Nat) : List UInt8 := (List.range' i (j - i)).flatMap x.tokenBytes

@[simp] theorem covered_self (i : Nat) : x.covered i i = [] := by
  rw [covered, Nat.sub_self]
  rfl

theorem covered_cons {i j : Nat} (h : i < j) :
    x.covered i j = x.tokenBytes i ++ x.covered (i + 1) j := by
  rw [covered, show j - i = (j - (i + 1)) + 1 by omega, List.range'_succ, List.flatMap_cons]
  rfl

theorem tokenBytes_eq {i : Nat} (h : i < x.size) :
    x.tokenBytes i = x.slice (x.boundary i) (x.boundary (i + 1)) := by
  rw [← (x.stop_token h).2]
  rfl

theorem covered_eq {i j : Nat} (h : i ≤ j) (hj : j ≤ x.size) :
    x.covered i j = x.slice (x.boundary i) (x.boundary j) := by
  obtain ⟨n, rfl⟩ := Nat.exists_eq_add_of_le h
  induction n generalizing i with
  | zero => rw [Nat.add_zero, covered_self, slice_self]
  | succ n ih =>
    have e : i + (n + 1) = i + 1 + n := by omega
    have ih := ih (Nat.le_add_right (i + 1) n) (by omega)
    rw [covered_cons x (by omega), e, ih, tokenBytes_eq x (by omega),
      slice_append x (x.boundary_mono (Nat.le_succ i)) (x.boundary_mono (Nat.le_add_right _ n))]

theorem covered_append {i j k : Nat} (hij : i ≤ j) (hjk : j ≤ k) (hk : k ≤ x.size) :
    x.covered i j ++ x.covered j k = x.covered i k := by
  rw [x.covered_eq hij (Nat.le_trans hjk hk), x.covered_eq hjk hk,
    x.covered_eq (Nat.le_trans hij hjk) hk, slice_append x (x.boundary_mono hij) (x.boundary_mono hjk)]

theorem rangeSpan_eq {i j : Nat} (h : i ≤ j) (hj : j ≤ x.size) :
    x.rangeSpan ⟨i, j⟩ = ⟨x.boundary i, x.boundary j⟩ := by
  unfold rangeSpan
  by_cases hij : j ≤ i
  · obtain rfl : i = j := Nat.le_antisymm h hij
    rw [if_pos hij]
    rfl
  · have hlast : j - 1 < x.size := by omega
    have e : j - 1 + 1 = j := by omega
    have hstop := (x.stop_token hlast).2
    rw [e] at hstop
    rw [if_neg hij]
    show Span.mk _ (x.token (j - 1)).stop = _
    rw [hstop]
    rfl

theorem spanBytes_rangeSpan {i j : Nat} (h : i ≤ j) (hj : j ≤ x.size) :
    x.spanBytes (x.rangeSpan ⟨i, j⟩) = x.covered i j := by
  rw [x.rangeSpan_eq h hj, x.covered_eq h hj]
  rfl

end Lexed

end Ebnf
