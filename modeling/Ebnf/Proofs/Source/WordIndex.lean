import Mathlib.Order.Bounds.Basic
import Ebnf.Words

/-!
# The longest registered word

The index of registered words finds a word by its first byte, and among those of one byte the longest
first.  So it answers what a search of the whole table would.

* `place_sorted`        a position is put where its bucket stays sorted;
* `Words.Indexed`       a bucket holds all words that begin with its byte, longest first;
* `Indexed.insert`, `indexed_ofList`   it does, whatever words are registered in whatever order;
* `mem_table_ofList`    the table holds the words of the list, the empty one left out;
* `Words.lengthsAt`     the lengths of the registered words that some bytes begin with;
* `Indexed.isGreatest`, `Indexed.lengthsAt_eq_empty`   the longest match is the greatest of them, and
                        there is none only if there are none.
-/

namespace Ebnf.Words

/-! ## sorted buckets -/

theorem place_sorted {len : Nat → Nat} {i : Nat} {js : List Nat}
    (h : js.Pairwise fun j k => len k ≤ len j) :
    (place len i js).Pairwise fun j k => len k ≤ len j := by
  induction js with
  | nil => exact List.pairwise_singleton _ _
  | cons j js ih =>
    obtain ⟨hj, hjs⟩ := List.pairwise_cons.mp h
    rw [place]
    by_cases hlt : len j < len i
    · rw [if_pos hlt]
      refine List.pairwise_cons.mpr ⟨fun k hk => ?_, h⟩
      rcases List.mem_cons.mp hk with rfl | hk
      · exact Nat.le_of_lt hlt
      · exact Nat.le_trans (hj k hk) (Nat.le_of_lt hlt)
    · rw [if_neg hlt]
      refine List.pairwise_cons.mpr ⟨fun k hk => ?_, ih hjs⟩
      rcases mem_place.mp hk with rfl | hk
      · exact Nat.le_of_not_lt hlt
      · exact hj k hk

/-! ## registering a word -/

variable {w : Words} {b : UInt8} {bs rest x : List UInt8} {i n : Nat}

theorem insert_of_mem (h : bs ∈ w.table) : w.insert bs = w := by
  cases bs with
  | nil => rfl
  | cons b bs => rw [insert, if_pos (Array.contains_iff_mem.mpr h)]

theorem table_insert (h : b :: bs ∉ w.table) :
    (w.insert (b :: bs)).table = w.table.push (b :: bs) := by
  rw [insert, if_neg (mt Array.contains_iff_mem.mp h)]

theorem bucket_insert (h : b :: bs ∉ w.table) (c : UInt8) :
    (w.insert (b :: bs)).bucket c =
      if b = c then place (fun j => ((w.insert (b :: bs)).word j).length) w.table.size (w.bucket b)
      else w.bucket c := by
  have hc : c.toNat < 256 := c.toNat_lt
  have hword : ∀ j, (w.insert (b :: bs)).word j = (w.table.push (b :: bs)).getD j [] := by
    intro j
    rw [word, table_insert h]
  simp only [hword]
  rw [insert, if_neg (mt Array.contains_iff_mem.mp h)]
  show (Vector.set _ b.toNat _ b.toNat_lt)[c.toNat] = _
  rw [Vector.getElem_set]
  by_cases he : b = c
  · rw [if_pos he, if_pos (congrArg UInt8.toNat he)]
  · rw [if_neg he, if_neg (mt UInt8.toNat_inj.mp he)]
    rfl

theorem word_insert (h : b :: bs ∉ w.table) (hi : i < w.table.size) :
    (w.insert (b :: bs)).word i = w.word i := by
  rw [word, word, table_insert h, Array.getD_eq_getD_getElem?, Array.getD_eq_getD_getElem?,
    Array.getElem?_push, if_neg (Nat.ne_of_lt hi)]

theorem mem_table_insert : x ∈ (w.insert bs).table ↔ x ∈ w.table ∨ (x = bs ∧ bs ≠ []) := by
  cases bs with
  | nil => simp
  | cons b bs =>
    by_cases h : b :: bs ∈ w.table
    · rw [insert_of_mem h]
      constructor
      · exact .inl
      · rintro (hx | ⟨rfl, _⟩)
        · exact hx
        · exact h
    · rw [table_insert h, Array.mem_push]
      simp

/-! ## the index -/

/-- a bucket holds the positions of all words that begin with its byte, longest first -/
structure Indexed (w : Words) : Prop where
  complete : ∀ i b rest, w.table[i]? = some (b :: rest) → i ∈ w.bucket b
  sorted : ∀ b, (w.bucket b).Pairwise fun i j => (w.word j).length ≤ (w.word i).length

theorem lt_size_of_mem_bucket (h : i ∈ w.bucket b) : i < w.table.size := by
  obtain ⟨_, hi⟩ := w.begins b i h
  exact (Array.getElem?_eq_some_iff.mp hi).1

theorem indexed_empty : Indexed {} where
  complete i b rest h := by simp at h
  sorted b := by
    rw [bucket_empty]
    exact List.Pairwise.nil

/-- the words at hand compare as before, so their buckets stay sorted -/
theorem Indexed.sorted_old (hw : w.Indexed) (h : b :: bs ∉ w.table) (c : UInt8) :
    (w.bucket c).Pairwise fun i j =>
      ((w.insert (b :: bs)).word j).length ≤ ((w.insert (b :: bs)).word i).length := by
  refine List.Pairwise.imp_of_mem (fun {i j} hi hj hle => ?_) (hw.sorted c)
  rw [word_insert h (lt_size_of_mem_bucket hi), word_insert h (lt_size_of_mem_bucket hj)]
  exact hle

theorem Indexed.insert (hw : w.Indexed) (bs : List UInt8) : (w.insert bs).Indexed := by
  by_cases h : bs ∈ w.table
  · rw [insert_of_mem h]
    exact hw
  cases bs with
  | nil => exact hw
  | cons b bs =>
    refine ⟨fun i c rest hi => ?_, fun c => ?_⟩
    · rw [table_insert h, Array.getElem?_push] at hi
      rw [bucket_insert h]
      by_cases hlast : i = w.table.size
      · rw [if_pos hlast] at hi
        obtain ⟨rfl, _⟩ := List.cons.inj (Option.some.inj hi)
        rw [if_pos rfl]
        exact mem_place.mpr (.inl hlast)
      · rw [if_neg hlast] at hi
        have hold := hw.complete i c rest hi
        by_cases he : b = c
        · subst he
          rw [if_pos rfl]
          exact mem_place.mpr (.inr hold)
        · rw [if_neg he]
          exact hold
    · rw [bucket_insert h]
      by_cases he : b = c
      · rw [if_pos he]
        exact place_sorted (hw.sorted_old h b)
      · rw [if_neg he]
        exact hw.sorted_old h c

/-- what holds of no words, and is kept whatever word is registered, holds of a list of words -/
theorem ofList_induction {P : Words → Prop} (empty : P {}) (insert : ∀ w bs, P w → P (w.insert bs))
    (words : List String) : P (ofList words) := by
  have hall : ∀ w : Words, P w → P (words.foldl (fun w s => w.insert (Utf8.encode s)) w) := by
    induction words with
    | nil => exact fun w hw => hw
    | cons s words ih => exact fun w hw => ih _ (insert w (Utf8.encode s) hw)
  exact hall {} empty

theorem indexed_ofList (words : List String) : (ofList words).Indexed :=
  ofList_induction indexed_empty (fun _ bs hw => hw.insert bs) words

theorem mem_table_ofList {words : List String} :
    x ∈ (ofList words).table ↔ x ≠ [] ∧ ∃ s ∈ words, Utf8.encode s = x := by
  have hall : ∀ w : Words, x ∈ (words.foldl (fun w s => w.insert (Utf8.encode s)) w).table ↔
      x ∈ w.table ∨ x ≠ [] ∧ ∃ s ∈ words, Utf8.encode s = x := by
    induction words with
    | nil => simp
    | cons s words ih =>
      intro w
      show x ∈ (words.foldl _ (w.insert (Utf8.encode s))).table ↔ _
      rw [ih, mem_table_insert]
      simp only [List.mem_cons, exists_eq_or_imp, and_or_left, or_assoc]
      have hcomm : (x = Utf8.encode s ∧ Utf8.encode s ≠ []) ↔ (x ≠ [] ∧ Utf8.encode s = x) := by
        constructor
        · rintro ⟨rfl, hne⟩
          exact ⟨hne, rfl⟩
        · rintro ⟨hne, rfl⟩
          exact ⟨rfl, hne⟩
      rw [hcomm]
  refine (hall {}).trans ?_
  simp

/-! ## the longest match -/

/-- the lengths of the registered words that `rest` begins with -/
def lengthsAt (w : Words) (rest : List UInt8) : Set Nat :=
  {n | ∃ x ∈ w.table, x ≠ [] ∧ x <+: rest ∧ x.length = n}

theorem word_of_getElem? (h : w.table[i]? = some x) : w.word i = x := by
  rw [word, Array.getD_eq_getD_getElem?, h]
  rfl

theorem Indexed.exists_mem_bucket (hw : w.Indexed) (hx : x ∈ w.table) (hne : x ≠ [])
    (hp : x <+: b :: rest) : ∃ i ∈ w.bucket b, w.word i = x := by
  obtain ⟨i, hi⟩ := Array.mem_iff_getElem?.mp hx
  rcases List.prefix_cons_iff.mp hp with rfl | ⟨tail, rfl, _⟩
  · exact absurd rfl hne
  · exact ⟨i, hw.complete i b tail hi, word_of_getElem? hi⟩

theorem Indexed.isGreatest (hw : w.Indexed) (h : w.longestMatch bs = some n) :
    IsGreatest (w.lengthsAt bs) n := by
  cases bs with
  | nil => cases h
  | cons b rest =>
    rw [longestMatch, Option.map_eq_some_iff] at h
    obtain ⟨i, hi, rfl⟩ := h
    obtain ⟨hp, before, after, hsplit, hbefore⟩ := List.find?_eq_some_iff_append.mp hi
    have hmem : i ∈ w.bucket b := List.mem_of_find?_eq_some hi
    obtain ⟨tail, hword⟩ := w.begins b i hmem
    refine ⟨⟨w.word i, ?_, ?_, List.isPrefixOf_iff_prefix.mp hp, rfl⟩, ?_⟩
    · rw [word_of_getElem? hword]
      exact Array.mem_of_getElem? hword
    · rw [word_of_getElem? hword]
      exact List.cons_ne_nil b tail
    · rintro m ⟨x, hx, hne, hxp, rfl⟩
      obtain ⟨j, hj, rfl⟩ := hw.exists_mem_bucket hx hne hxp
      have hsorted := hw.sorted b
      rw [hsplit] at hj hsorted
      rcases List.mem_append.mp hj with hj | hj
      · -- a word before the first match is no beginning of the bytes
        have hno := hbefore j hj
        rw [List.isPrefixOf_iff_prefix.mpr hxp] at hno
        cases hno
      · rcases List.mem_cons.mp hj with rfl | hj
        · exact Nat.le_refl _
        · exact (List.pairwise_cons.mp (List.pairwise_append.mp hsorted).2.1).1 j hj

theorem Indexed.lengthsAt_eq_empty (hw : w.Indexed) (h : w.longestMatch bs = none) :
    w.lengthsAt bs = ∅ := by
  refine Set.eq_empty_iff_forall_notMem.mpr ?_
  rintro n ⟨x, hx, hne, hxp, rfl⟩
  cases bs with
  | nil => exact hne (List.prefix_nil.mp hxp)
  | cons b rest =>
    rw [longestMatch, Option.map_eq_none_iff, List.find?_eq_none] at h
    obtain ⟨j, hj, rfl⟩ := hw.exists_mem_bucket hx hne hxp
    exact h j hj (List.isPrefixOf_iff_prefix.mpr hxp)

end Ebnf.Words
