import Ebnf.Proofs.Source.Lookup
import Ebnf.Proofs.Source.Partition

/-!
# Tokens are cut by the longest word

* `Munch`               a token is the longest word that begins where it starts, or one byte if none
                        does;
* `MaximalMunch`        tokens that lie side by side, cover the bytes, and are each cut like that;
* `maximalMunch_tokenize`   the tokens of a source are;
* `MaximalMunch.unique` no other ones are;
* `tokens_maximal_munch`   so the words matter only as a set.
-/

namespace Ebnf

/-! ## one token -/

/-- the token is the longest word that begins where it starts, or one byte if none does -/
structure Munch (words : List String) (bs : List UInt8) (t : Token) : Prop where
  word : (wordsAt words (bs.drop t.start)).Nonempty →
    t.mask = .word ∧ IsGreatest (wordsAt words (bs.drop t.start)) t.size
  byte : ¬ (wordsAt words (bs.drop t.start)).Nonempty →
    t.size = 1 ∧ ∃ b, bs[t.start]? = some b ∧ t.mask = classify b

section
variable {words : List String} {bs rest : List UInt8} {t u : Token}

/-- where a token starts decides the whole of it -/
theorem Munch.unique (h : Munch words bs t) (h' : Munch words bs u) (hs : t.start = u.start) :
    t = u := by
  obtain ⟨mask, start, size⟩ := t
  obtain ⟨mask', start', size'⟩ := u
  obtain rfl : start = start' := hs
  by_cases hw : (wordsAt words (bs.drop start)).Nonempty
  · obtain ⟨rfl, hgreatest⟩ := h.word hw
    obtain ⟨rfl, hgreatest'⟩ := h'.word hw
    obtain rfl : size = size' := hgreatest.unique hgreatest'
    rfl
  · obtain ⟨rfl, b, hb, rfl⟩ := h.byte hw
    obtain ⟨rfl, b', hb', rfl⟩ := h'.byte hw
    obtain rfl := Option.some.inj (hb.symm.trans hb')
    rfl

end

/-! ## all tokens -/

/-- the tokens lie side by side, cover the bytes, and are each cut by the longest word -/
structure MaximalMunch (words : List String) (bs : List UInt8) (ts : List Token) : Prop where
  abut : Abut 0 ts bs.length
  munch : ∀ t ∈ ts, Munch words bs t

section
variable {words words' : List String} {bs rest : List UInt8} {ts us : List Token}

theorem munch_tokenizeFrom {skip pos : Nat} {t : Token} (hrest : bs.drop pos = rest)
    (ht : t ∈ tokenizeFrom (.ofList words) skip pos rest) : Munch words bs t := by
  induction rest generalizing skip pos with
  | nil => cases skip <;> cases ht
  | cons b rest ih =>
    have hdrop : bs.drop (pos + 1) = rest := by
      rw [← List.drop_drop, hrest, List.drop_succ_cons, List.drop_zero]
    cases skip with
    | succ n => exact ih hdrop ht
    | zero =>
      unfold tokenizeFrom at ht
      split at ht
      · rename_i n hn
        rcases List.mem_cons.mp ht with rfl | ht
        · rw [← hrest] at hn
          have hgreatest := isGreatest_of_longestMatch hn
          exact ⟨fun _ => ⟨rfl, hgreatest⟩, fun hno => absurd ⟨n, hgreatest.1⟩ hno⟩
        · exact ih hdrop ht
      · rename_i hn
        rcases List.mem_cons.mp ht with rfl | ht
        · rw [← hrest] at hn
          have hno := not_nonempty_of_longestMatch hn
          have hb : bs[pos]? = some b := by
            rw [← List.head?_drop, hrest]
            rfl
          exact ⟨fun hw => absurd hw hno, fun _ => ⟨rfl, b, hb, rfl⟩⟩
        · exact ih hdrop ht

theorem maximalMunch_tokenize (words : List String) (bs : List UInt8) :
    MaximalMunch words bs (tokenize (.ofList words) bs) :=
  ⟨abut_tokenize _ bs, fun _ ht => munch_tokenizeFrom List.drop_zero ht⟩

theorem Abut.le {a b : Nat} (h : Abut a ts b) : a ≤ b := by
  induction ts generalizing a with
  | nil => exact Nat.le_of_eq h
  | cons t ts ih =>
    obtain ⟨rfl, _, hrest⟩ := h
    exact Nat.le_trans (Nat.le_add_right t.start t.size) (ih hrest)

theorem Abut.lt {a b : Nat} {t : Token} (h : Abut a (t :: ts) b) : a < b := by
  obtain ⟨rfl, hsize, hrest⟩ := h
  exact Nat.lt_of_lt_of_le (Nat.lt_add_of_pos_right hsize) hrest.le

theorem Abut.eq_of_munch {a b : Nat} (h : Abut a ts b) (h' : Abut a us b)
    (ht : ∀ t ∈ ts, Munch words bs t) (hu : ∀ u ∈ us, Munch words bs u) : ts = us := by
  induction ts generalizing a us with
  | nil =>
    cases us with
    | nil => rfl
    | cons u us => exact absurd h (Nat.ne_of_lt h'.lt)
  | cons t ts ih =>
    cases us with
    | nil => exact absurd h' (Nat.ne_of_lt h.lt)
    | cons u us =>
      have hstart : t.start = u.start := h.1.trans h'.1.symm
      obtain rfl := (ht t List.mem_cons_self).unique (hu u List.mem_cons_self) hstart
      have hrest := ih h.2.2 h'.2.2 (fun v hv => ht v (List.mem_cons_of_mem t hv))
        (fun v hv => hu v (List.mem_cons_of_mem t hv))
      rw [hrest]

theorem MaximalMunch.unique (h : MaximalMunch words bs ts) (h' : MaximalMunch words bs us) :
    ts = us := h.abut.eq_of_munch h'.abut h.munch h'.munch

theorem wordsAt_congr (h : ∀ s, s ≠ "" → (s ∈ words ↔ s ∈ words')) (rest : List UInt8) :
    wordsAt words rest = wordsAt words' rest := by
  ext n
  constructor
  · rintro ⟨s, hs, hne, hp⟩
    exact ⟨s, (h s hne).mp hs, hne, hp⟩
  · rintro ⟨s, hs, hne, hp⟩
    exact ⟨s, (h s hne).mpr hs, hne, hp⟩

theorem MaximalMunch.congr (hm : MaximalMunch words bs ts)
    (h : ∀ s, s ≠ "" → (s ∈ words ↔ s ∈ words')) : MaximalMunch words' bs ts := by
  refine ⟨hm.abut, fun t ht => ?_⟩
  obtain ⟨hword, hbyte⟩ := hm.munch t ht
  rw [wordsAt_congr h] at hword hbyte
  exact ⟨hword, hbyte⟩

end

/-! ## sources -/

namespace Lexed

/-- the tokens of a source are those that are cut by the longest word, and no other ones are; so the
words may be given in another order, more than once, and with the empty word among them.  Words that
can all be numbered may as well be registered under the limit -/
theorem tokens_maximal_munch (text file : String) (linesBefore : Nat) (words : List String) :
    (∀ ts, MaximalMunch words (Utf8.encode text) ts ↔
      ts = (ofText text file linesBefore (.ofList words)).tokens.toList) ∧
    (∀ words', (∀ s, s ≠ "" → (s ∈ words ↔ s ∈ words')) →
      (ofText text file linesBefore (.ofList words')).tokens =
        (ofText text file linesBefore (.ofList words)).tokens) ∧
    (Words.Numbered words → ∀ words', (∀ s, s ≠ "" → (s ∈ words ↔ s ∈ words')) →
      (ofText text file linesBefore (.registered words')).tokens =
        (ofText text file linesBefore (.ofList words)).tokens) := by
  have htokens : ∀ ws, MaximalMunch ws (Utf8.encode text)
      (ofText text file linesBefore (.ofList ws)).tokens.toList :=
    fun ws => maximalMunch_tokenize ws (Utf8.encode text)
  have hsame : ∀ words', (∀ s, s ≠ "" → (s ∈ words ↔ s ∈ words')) →
      (ofText text file linesBefore (.ofList words')).tokens =
        (ofText text file linesBefore (.ofList words)).tokens := by
    intro words' h
    rw [← Array.toList_inj]
    exact (htokens words').unique ((htokens words).congr h)
  refine ⟨fun ts => ⟨fun h => h.unique (htokens words), fun h => h ▸ htokens words⟩, hsame,
    fun hnumbered words' h => ?_⟩
  rw [Words.registered_eq (hnumbered.congr h)]
  exact hsame words' h

/-- one word begins another, a third lies inside both; registered in another order, with one of them
twice and the empty word, they cut the same tokens -/
theorem tokens_maximal_munch_overlapping :
    Words.Numbered ["ab", "abc", "bc"] ∧
    (∀ s, s ≠ "" → (s ∈ ["ab", "abc", "bc"] ↔ s ∈ ["bc", "", "abc", "ab", "abc"])) ∧
    (ofText "abcab c" "a.txt" 0 (.ofList ["bc", "", "abc", "ab", "abc"])).tokens.toList =
      [⟨.word, 0, 3⟩, ⟨.word, 3, 2⟩, ⟨classify 32, 5, 1⟩, ⟨classify 99, 6, 1⟩] ∧
    (ofText "abcab c" "a.txt" 0 (.registered ["bc", "", "abc", "ab", "abc"])).tokens.toList =
      [⟨.word, 0, 3⟩, ⟨.word, 3, 2⟩, ⟨classify 32, 5, 1⟩, ⟨classify 99, 6, 1⟩] := by
  have hnumbered : Words.Numbered ["ab", "abc", "bc"] := by decide
  have hsame : ∀ s, s ≠ "" →
      (s ∈ ["ab", "abc", "bc"] ↔ s ∈ ["bc", "", "abc", "ab", "abc"]) := by
    intro s hs
    simp only [List.mem_cons, List.not_mem_nil, hs]
    tauto
  have hall := tokens_maximal_munch "abcab c" "a.txt" 0 ["ab", "abc", "bc"]
  have hcut : (ofText "abcab c" "a.txt" 0 (.ofList ["ab", "abc", "bc"])).tokens.toList =
      [⟨.word, 0, 3⟩, ⟨.word, 3, 2⟩, ⟨classify 32, 5, 1⟩, ⟨classify 99, 6, 1⟩] := by
    decide +kernel
  refine ⟨hnumbered, hsame, ?_, ?_⟩
  · rw [hall.2.1 _ hsame, hcut]
  · rw [hall.2.2 hnumbered _ hsame, hcut]

end Lexed

end Ebnf
