import Ebnf.Proofs.Source.Partition

/-!
# Spelling a text with whole tokens

* `spell_token_append`   a text that begins with a token is spelled by the token and the rest;
* `spell_eq_some_iff`    a text is spelled up to `j` just if the tokens before `j` cover it.
-/

namespace Ebnf.Lexed

variable (x : Lexed)

theorem spellFrom_eq_drop (skip i : Nat) (bs : List UInt8) :
    x.spellFrom skip i bs = x.spell i (bs.drop skip) := by
  induction bs generalizing skip with
  | nil => cases skip <;> rfl
  | cons b rest ih =>
    cases skip with
    | zero => rfl
    | succ n => exact ih n

theorem tokenBytes_ne_nil {i : Nat} : x.tokenBytes i ≠ [] ↔ i < x.size := by
  constructor
  · intro h
    apply Nat.lt_of_not_le
    intro hle
    apply h
    rw [tokenBytes, token_of_size_le hle]
    exact x.slice_self _
  · intro h he
    have hlt := x.boundary_lt_succ h
    have hle := x.boundary_le (i + 1)
    rw [x.tokenBytes_eq h, slice, Array.toList_eq_nil_iff, Array.extract_eq_empty_iff,
      Nat.min_eq_left hle] at he
    omega

/-- a text that is not empty is spelled by the token at hand and those behind it, or not at all -/
theorem spell_of_ne_nil {i : Nat} {bs : List UInt8} (h : bs ≠ []) :
    x.spell i bs =
      if !(x.tokenBytes i).isEmpty && (x.tokenBytes i).isPrefixOf bs then
        x.spell (i + 1) (bs.drop (x.tokenBytes i).length)
      else none := by
  obtain ⟨b, rest, rfl⟩ := List.exists_cons_of_ne_nil h
  rw [spell, spellFrom]
  cases x.tokenBytes i with
  | nil => rfl
  | cons a as =>
    rw [List.length_cons, Nat.add_sub_cancel, spellFrom_eq_drop, List.drop_succ_cons]

theorem spell_token_append {i : Nat} (h : i < x.size) (rest : List UInt8) :
    x.spell i (x.tokenBytes i ++ rest) = x.spell (i + 1) rest := by
  have hne := x.tokenBytes_ne_nil.mpr h
  cases e : x.tokenBytes i with
  | nil => exact absurd e hne
  | cons b bs =>
    have hp : (b :: bs).isPrefixOf (b :: (bs ++ rest)) = true :=
      List.isPrefixOf_iff_prefix.mpr (List.prefix_append (b :: bs) rest)
    show x.spellFrom 0 i (b :: (bs ++ rest)) = _
    rw [spellFrom, e, hp]
    show x.spellFrom bs.length (i + 1) (bs ++ rest) = _
    rw [spellFrom_eq_drop, List.drop_left]

theorem eq_append_of_spell {i j : Nat} {b : UInt8} {rest : List UInt8}
    (h : x.spell i (b :: rest) = some j) :
    i < x.size ∧ ∃ tail, b :: rest = x.tokenBytes i ++ tail ∧ x.spell (i + 1) tail = some j := by
  have h' := h
  rw [spell, spellFrom] at h'
  split at h'
  · rename_i hc
    obtain ⟨hne, hp⟩ := Bool.and_eq_true_iff.mp hc
    have hi : i < x.size := x.tokenBytes_ne_nil.mp (by simpa using hne)
    obtain ⟨tail, ht⟩ := List.isPrefixOf_iff_prefix.mp hp
    refine ⟨hi, tail, ht.symm, ?_⟩
    rw [← h, ← ht, x.spell_token_append hi]
  · cases h'

/-- a text is spelled up to `j` just if it is what the tokens before `j` cover; past the last token
nothing but the empty text is spelled -/
theorem spell_eq_some_iff {i j : Nat} {bs : List UInt8} :
    x.spell i bs = some j ↔ i ≤ j ∧ j ≤ max i x.size ∧ x.covered i j = bs := by
  constructor
  · intro h
    induction hn : bs.length using Nat.strongRecOn generalizing i bs with
    | _ n ih =>
      cases bs with
      | nil =>
        obtain rfl : i = j := Option.some.inj h
        exact ⟨Nat.le_refl _, Nat.le_max_left _ _, x.covered_self i⟩
      | cons b rest =>
        obtain ⟨hi, tail, ht, hs⟩ := x.eq_append_of_spell h
        have hlen : tail.length < n := by
          have hpos := List.length_pos_iff.mpr (x.tokenBytes_ne_nil.mpr hi)
          rw [← hn, ht, List.length_append]
          omega
        obtain ⟨h1, h2, h3⟩ := ih tail.length hlen hs rfl
        refine ⟨by omega, by omega, ?_⟩
        rw [x.covered_cons h1, h3, ht]
  · rintro ⟨hij, hj, rfl⟩
    obtain ⟨n, rfl⟩ := Nat.exists_eq_add_of_le hij
    induction n generalizing i with
    | zero =>
      rw [Nat.add_zero, covered_self]
      rfl
    | succ n ih =>
      have hi : i < x.size := by omega
      have e : i + (n + 1) = i + 1 + n := by omega
      rw [x.covered_cons (by omega), x.spell_token_append hi, e]
      exact ih (Nat.le_add_right _ n) (by omega)

end Ebnf.Lexed
