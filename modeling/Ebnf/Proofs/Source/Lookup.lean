import Mathlib.Data.Finset.Card
import Ebnf.Proofs.Source.WordIndex

/-!
# Words as they are filed and found

A word is registered once, and its position stands once in the index.  So the index answers what a
plain search of the list of words would, whatever the bytes at hand are.

* `wordsAt`              the lengths of the words of a list that some bytes begin with;
* `place_eq_mergeSort`   to put a position in its place is to sort its bucket again;
* `Words.Filed`          each word once, in the bucket of its first byte; longer words first;
* `Filed.insert`, `filed_ofList`   so it stays, whatever word is registered;
* `size_ofList`          as many words are registered as are distinct and not empty;
* `Numbered`, `registered_eq`   if there are machine words for all of these, none is refused;
* `Answers`, `lookup_exact`     the longest match is the longest word of the list that the bytes begin
                         with.
-/

namespace Ebnf

/-- the lengths of the words of the list, the empty one left out, that `rest` begins with -/
def wordsAt (words : List String) (rest : List UInt8) : Set Nat :=
  {n | ∃ s ∈ words, s ≠ "" ∧ Utf8.encode s <+: rest ∧ (Utf8.encode s).length = n}

section
variable {words : List String} {rest : List UInt8}

theorem encode_ne_nil {s : String} : Utf8.encode s ≠ [] ↔ s ≠ "" := by
  rw [← Utf8.encode_empty, Ne, Utf8.encode_inj]

theorem lengthsAt_ofList (words : List String) (rest : List UInt8) :
    (Words.ofList words).lengthsAt rest = wordsAt words rest := by
  ext n
  constructor
  · rintro ⟨x, hx, _, hp, hn⟩
    obtain ⟨hne, s, hs, rfl⟩ := Words.mem_table_ofList.mp hx
    exact ⟨s, hs, encode_ne_nil.mp hne, hp, hn⟩
  · rintro ⟨s, hs, hne, hp, hn⟩
    have hne := encode_ne_nil.mpr hne
    exact ⟨Utf8.encode s, Words.mem_table_ofList.mpr ⟨hne, s, hs, rfl⟩, hne, hp, hn⟩

theorem isGreatest_of_longestMatch {n : Nat}
    (h : (Words.ofList words).longestMatch rest = some n) : IsGreatest (wordsAt words rest) n := by
  rw [← lengthsAt_ofList]
  exact (Words.indexed_ofList words).isGreatest h

theorem not_nonempty_of_longestMatch (h : (Words.ofList words).longestMatch rest = none) :
    ¬ (wordsAt words rest).Nonempty := by
  rw [← lengthsAt_ofList, Set.not_nonempty_iff_eq_empty]
  exact (Words.indexed_ofList words).lengthsAt_eq_empty h

end

namespace Words

/-! ## one position more -/

section
variable {len : Nat → Nat} {i : Nat} {js : List Nat}

theorem place_perm : (place len i js).Perm (i :: js) := by
  induction js with
  | nil => exact List.Perm.refl _
  | cons j js ih =>
    rw [place]
    split
    · exact List.Perm.refl _
    · exact (ih.cons j).trans (List.Perm.swap i j js)

theorem count_place (k : Nat) : (place len i js).count k = js.count k + if i = k then 1 else 0 := by
  rw [place_perm.count_eq, List.count_cons]
  simp

theorem place_of_forall_lt (h : ∀ j ∈ js, len j < len i) : place len i js = i :: js := by
  cases js with
  | nil => rfl
  | cons j js => rw [place, if_pos (h j List.mem_cons_self)]

theorem le_trans_of_length (len : Nat → Nat) (a b c : Nat) (hab : decide (len b ≤ len a))
    (hbc : decide (len c ≤ len b)) : decide (len c ≤ len a) :=
  decide_eq_true (Nat.le_trans (of_decide_eq_true hbc) (of_decide_eq_true hab))

theorem le_total_of_length (len : Nat → Nat) (a b : Nat) :
    decide (len b ≤ len a) || decide (len a ≤ len b) := by
  rw [Bool.or_eq_true, decide_eq_true_eq, decide_eq_true_eq]
  exact Nat.le_total (len b) (len a)

/-- a bucket with a position more behind it, sorted again: the position comes to its place -/
theorem place_eq_mergeSort (h : js.Pairwise fun j k => len k ≤ len j) :
    place len i js = (js ++ [i]).mergeSort fun j k => len k ≤ len j := by
  induction js with
  | nil => simp [place]
  | cons j js ih =>
    obtain ⟨hj, hjs⟩ := List.pairwise_cons.mp h
    have hsorted :=
      List.pairwise_mergeSort (le_trans_of_length len) (le_total_of_length len) (j :: js ++ [i])
    obtain ⟨front, back, hcons, hrest, hfront⟩ :=
      List.mergeSort_cons (le_trans_of_length len) (le_total_of_length len) j (js ++ [i])
    rw [← ih hjs] at hrest
    rw [List.cons_append] at hsorted ⊢
    rw [hcons] at hsorted ⊢
    -- what comes before `j` is longer than it, and of the others only `i` can be
    have honly : ∀ k ∈ front, k = i ∧ len j < len i := by
      intro k hk
      have hlonger : len j < len k := by simpa using hfront k hk
      have hmem : k ∈ place len i js := hrest ▸ List.mem_append_left _ hk
      rcases mem_place.mp hmem with rfl | hmem
      · exact ⟨rfl, hlonger⟩
      · exact absurd hlonger (Nat.not_lt.mpr (hj k hmem))
    by_cases hlt : len j < len i
    · rw [place_of_forall_lt fun k hk => Nat.lt_of_le_of_lt (hj k hk) hlt] at hrest
      rw [place, if_pos hlt]
      cases front with
      | nil =>
        -- `j` would come before the longer `i`
        obtain rfl : i :: js = back := hrest
        have hle : len i ≤ len j := by simpa using List.rel_of_pairwise_cons hsorted List.mem_cons_self
        exact absurd hlt (Nat.not_lt.mpr hle)
      | cons k front =>
        obtain ⟨rfl, htail⟩ := List.cons.inj hrest
        cases front with
        | nil =>
          obtain rfl : js = back := htail
          rfl
        | cons k' front =>
          -- a second `i` would be one of the others
          obtain ⟨rfl, _⟩ := honly k' (List.mem_cons_of_mem _ List.mem_cons_self)
          have hmem : k' ∈ js := htail ▸ List.mem_cons_self
          exact absurd hlt (Nat.not_lt.mpr (hj k' hmem))
    · obtain rfl : front = [] := by
        refine List.eq_nil_iff_forall_not_mem.mpr fun k hk => ?_
        exact hlt (honly k hk).2
      rw [place, if_neg hlt, hrest]
      rfl

end

/-- positions in the order of the lengths of their words, the longest first -/
def longestFirst (w : Words) (is : List Nat) : List Nat :=
  is.mergeSort fun i j => (w.word j).length ≤ (w.word i).length

theorem Indexed.bucket_insert_eq {w : Words} (hw : w.Indexed) {b : UInt8} {bs : List UInt8}
    (h : b :: bs ∉ w.table) :
    (w.insert (b :: bs)).bucket b = (w.insert (b :: bs)).longestFirst (w.bucket b ++ [w.size]) := by
  rw [bucket_insert h, if_pos rfl]
  exact place_eq_mergeSort (hw.sorted_old h b)

/-! ## the index -/

/-- each word is registered once, its position stands once in the bucket of its first byte and nowhere
else, and longer words stand first -/
structure Filed (w : Words) : Prop where
  nonempty : [] ∉ w.table
  distinct : w.table.toList.Nodup
  once : ∀ i c, (w.bucket c).count i = if w.table[i]?.bind List.head? = some c then 1 else 0
  sorted : ∀ c, (w.bucket c).Pairwise fun i j => (w.word j).length ≤ (w.word i).length

section
variable {w : Words} {b : UInt8} {bs rest : List UInt8} {n : Nat}

theorem filed_empty : Filed {} where
  nonempty h := by simp at h
  distinct := List.nodup_nil
  once i c := by simp
  sorted := indexed_empty.sorted

theorem Filed.indexed (hw : w.Filed) : w.Indexed where
  complete i b rest h := by
    have hcount := hw.once i b
    rw [h, Option.bind_some, List.head?_cons, if_pos rfl] at hcount
    exact List.count_pos_iff.mp (hcount ▸ Nat.one_pos)
  sorted := hw.sorted

/-- a new word goes behind the others in the table, and into the bucket of its first byte -/
theorem Filed.once_insert (hw : w.Filed) (h : b :: bs ∉ w.table) (i : Nat) (c : UInt8) :
    ((w.insert (b :: bs)).bucket c).count i =
      if (w.insert (b :: bs)).table[i]?.bind List.head? = some c then 1 else 0 := by
  rw [table_insert h, Array.getElem?_push, bucket_insert h]
  by_cases hi : i = w.table.size
  · have hold : ∀ c, (w.bucket c).count i = 0 := by
      intro c
      rw [hw.once, hi, Array.getElem?_eq_none (Nat.le_refl _), Option.bind_none, if_neg nofun]
    rw [if_pos hi, Option.bind_some, List.head?_cons]
    by_cases hc : b = c
    · rw [if_pos hc, count_place, hold, if_pos hi.symm, if_pos (congrArg some hc)]
    · rw [if_neg hc, hold, if_neg (mt Option.some.inj hc)]
  · rw [if_neg hi, ← hw.once]
    by_cases hc : b = c
    · rw [if_pos hc, count_place, if_neg (Ne.symm hi), hc]
      rfl
    · rw [if_neg hc]

theorem Filed.insert (hw : w.Filed) (bs : List UInt8) : (w.insert bs).Filed := by
  by_cases h : bs ∈ w.table
  · rw [insert_of_mem h]
    exact hw
  cases bs with
  | nil => exact hw
  | cons b bs =>
    refine ⟨?_, ?_, hw.once_insert h, (hw.indexed.insert _).sorted⟩
    · rw [mem_table_insert]
      rintro (hmem | ⟨he, _⟩)
      · exact hw.nonempty hmem
      · cases he
    · rw [table_insert h, Array.toList_push, List.nodup_append_comm]
      exact List.nodup_cons.mpr ⟨mt Array.mem_toList_iff.mp h, hw.distinct⟩

theorem filed_ofList (words : List String) : (ofList words).Filed :=
  ofList_induction filed_empty (fun _ bs hw => hw.insert bs) words

theorem size_ofList (words : List String) : (ofList words).size = (words.toFinset.erase "").card := by
  have hdistinct := (filed_ofList words).distinct
  have himage : (ofList words).table.toList.toFinset = (words.toFinset.erase "").image Utf8.encode := by
    ext x
    rw [List.mem_toFinset, Array.mem_toList_iff, mem_table_ofList, Finset.mem_image]
    constructor
    · rintro ⟨hne, s, hs, rfl⟩
      exact ⟨s, Finset.mem_erase.mpr ⟨encode_ne_nil.mp hne, List.mem_toFinset.mpr hs⟩, rfl⟩
    · rintro ⟨s, hs, rfl⟩
      obtain ⟨hne, hs⟩ := Finset.mem_erase.mp hs
      exact ⟨encode_ne_nil.mpr hne, s, List.mem_toFinset.mp hs, rfl⟩
  calc (ofList words).size = (ofList words).table.toList.toFinset.card :=
        (List.toFinset_card_of_nodup hdistinct).symm
    _ = (words.toFinset.erase "").card := by
        rw [himage, Finset.card_image_of_injective _ fun _ _ => Utf8.encode_inj.mp]

/-! ## positions that fit a machine word -/

/-- there is a machine word for each of the words that are distinct and not empty -/
def Numbered (words : List String) : Prop := (words.toFinset.erase "").card ≤ Word.maxWord + 1

instance (words : List String) : Decidable (Numbered words) :=
  inferInstanceAs (Decidable ((words.toFinset.erase "").card ≤ Word.maxWord + 1))

theorem Numbered.congr {words words' : List String} (h : Numbered words)
    (hsame : ∀ s, s ≠ "" → (s ∈ words ↔ s ∈ words')) : Numbered words' := by
  have he : words'.toFinset.erase "" = words.toFinset.erase "" := by
    ext s
    simp only [Finset.mem_erase, List.mem_toFinset]
    exact and_congr_right fun hs => (hsame s hs).symm
  rw [Numbered, he]
  exact h

theorem Filed.register (hw : w.Filed) (bs : List UInt8) : (w.register bs).Filed := by
  unfold Words.register
  split
  · exact hw.insert bs
  · exact hw

theorem insert_eq_of_size_le (h : (w.insert bs).size ≤ w.size) : w.insert bs = w := by
  by_cases hmem : bs ∈ w.table
  · exact insert_of_mem hmem
  cases bs with
  | nil => rfl
  | cons b bs =>
    rw [size, table_insert hmem, Array.size_push] at h
    exact absurd h (Nat.not_succ_le_self _)

/-- none is refused as long as all have a position -/
theorem registered_eq {words : List String} (h : Numbered words) :
    registered words = ofList words := by
  induction words using List.reverseRecOn with
  | nil => rfl
  | append_singleton words s ih =>
    have hsub : words.toFinset.erase "" ⊆ (words ++ [s]).toFinset.erase "" := by
      refine Finset.erase_subset_erase _ fun t ht => ?_
      rw [List.mem_toFinset] at ht ⊢
      exact List.mem_append_left [s] ht
    have hwords := ih (Nat.le_trans (Finset.card_le_card hsub) h)
    have hlast : ofList (words ++ [s]) = (ofList words).insert (Utf8.encode s) :=
      List.foldl_concat ..
    have hregister : registered (words ++ [s]) = (registered words).register (Utf8.encode s) :=
      List.foldl_concat ..
    rw [Numbered, ← size_ofList, hlast] at h
    rw [hregister, hwords, hlast, register]
    split
    · rfl
    · -- there are as many words as can be, so this one is among them
      exact (insert_eq_of_size_le (by omega)).symm

/-! ## looking up -/

theorem longestMatch_eq_some_iff {words : List String} :
    (ofList words).longestMatch rest = some n ↔ IsGreatest (wordsAt words rest) n := by
  refine ⟨isGreatest_of_longestMatch, fun h => ?_⟩
  cases e : (ofList words).longestMatch rest with
  | none => exact absurd ⟨n, h.1⟩ (not_nonempty_of_longestMatch e)
  | some m => rw [(isGreatest_of_longestMatch e).unique h]

theorem longestMatch_eq_none_iff {words : List String} :
    (ofList words).longestMatch rest = none ↔ wordsAt words rest = ∅ := by
  rw [← Set.not_nonempty_iff_eq_empty]
  refine ⟨not_nonempty_of_longestMatch, fun h => ?_⟩
  cases e : (ofList words).longestMatch rest with
  | none => rfl
  | some n => exact absurd ⟨n, (isGreatest_of_longestMatch e).1⟩ h

/-- what is registered answers as a plain search of the list does: with the greatest length of the
words that the bytes begin with, and with none only if there are none -/
structure Answers (words : List String) (w : Words) : Prop where
  greatest : ∀ rest n, w.longestMatch rest = some n ↔ IsGreatest (wordsAt words rest) n
  none : ∀ rest, w.longestMatch rest = none ↔ wordsAt words rest = ∅
  size : w.size = (words.toFinset.erase "").card
  filed : w.Filed

theorem answers_ofList (words : List String) : Answers words (ofList words) where
  greatest _ _ := longestMatch_eq_some_iff
  none _ := longestMatch_eq_none_iff
  size := size_ofList words
  filed := filed_ofList words

/-- the index answers as a plain search of the list does, also under the limit if the words can all be
numbered.  It is in order, as it stays whatever word is registered: a new word has its position put
behind those of its bucket, which is sorted again -/
theorem lookup_exact (words : List String) :
    Answers words (ofList words) ∧ (Numbered words → Answers words (registered words)) ∧
    ∀ w : Words, w.Filed → ∀ bs, (w.insert bs).Filed ∧ (w.register bs).Filed ∧
      ∀ b tail, bs = b :: tail → bs ∉ w.table →
        (w.insert bs).bucket b = (w.insert bs).longestFirst (w.bucket b ++ [w.size]) := by
  refine ⟨answers_ofList words, fun h => registered_eq h ▸ answers_ofList words, fun w hw bs => ?_⟩
  refine ⟨hw.insert bs, hw.register bs, ?_⟩
  rintro b tail rfl hnew
  exact hw.indexed.bucket_insert_eq hnew

end

/-- one word begins another, one is given twice and one is empty; the bytes at hand may cut a character,
and go on with what is none -/
theorem lookup_exact_overlapping :
    let words := ["ifeq", "if", "", "é", "if"]
    let w := registered words
    Numbered words ∧ w.longestMatch (Utf8.encode "ifeq (a,b)") = some 4 ∧
    IsGreatest (wordsAt words (Utf8.encode "ifneq")) 2 ∧
    IsGreatest (wordsAt words [0xC3, 0xA9, 0xFF]) 2 ∧ wordsAt words [0xC3] = ∅ ∧
    w.size = 3 ∧ w.Filed ∧ (w.insert (Utf8.encode "ifx")).Filed ∧
    (w.insert (Utf8.encode "ifx")).longestFirst [0, 1, 3] = [0, 3, 1] := by
  intro words w
  have hnumbered : Numbered words := by decide
  obtain ⟨_, hregistered, hinsert⟩ := lookup_exact words
  have hw : Answers words w := hregistered hnumbered
  obtain ⟨hfiled, _, hbucket⟩ := hinsert w hw.filed (Utf8.encode "ifx")
  have hsorted := hbucket 105 [102, 120] (by decide +kernel) (by decide +kernel)
  refine ⟨hnumbered, by decide +kernel, (hw.greatest _ _).mp (by decide +kernel),
    (hw.greatest _ _).mp (by decide +kernel), (hw.none _).mp (by decide +kernel), ?_, hw.filed, hfiled, ?_⟩
  · rw [hw.size]
    decide +kernel
  · have hbefore : w.bucket 105 ++ [w.size] = [0, 1, 3] := by decide +kernel
    rw [← hbefore, ← hsorted]
    decide +kernel

end Words

end Ebnf
