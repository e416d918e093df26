/-!
# Offsets that fit a word

Offsets, lengths and lines are natural numbers here, and a source is shorter than `2^32` bytes.
A caller may still ask for a sum or a difference of arbitrary words; such a question is answered
by a checked operation, which refuses what does not fit.

* `maxWord`    the largest word;
* `add`, `sub` checked sum and difference of two words;
* `satAdd`     a sum that stays at the largest word.
-/

namespace Ebnf

/-- why a checked operation refuses its arguments -/
inductive Overflow where
  | add
  | sub
deriving DecidableEq

def Overflow.message : Overflow → String
  | .add => "attempt to add with overflow"
  | .sub => "attempt to subtract with overflow"

namespace Word

def maxWord : Nat := 0xFFFFFFFF

def add (a b : Nat) : Except Overflow Nat :=
  if a + b ≤ maxWord then .ok (a + b) else .error .add

def sub (a b : Nat) : Except Overflow Nat :=
  if b ≤ a then .ok (a - b) else .error .sub

def satAdd (a b : Nat) : Nat := min (a + b) maxWord

theorem add_eq_ok {a b : Nat} (h : a + b ≤ maxWord) : add a b = .ok (a + b) := if_pos h

theorem add_eq_error_iff {a b : Nat} {e : Overflow} :
    add a b = .error e ↔ maxWord < a + b ∧ e = .add := by
  unfold add
  by_cases h : a + b ≤ maxWord
  · simp [h, Nat.not_lt.mpr h]
  · simp [h, Nat.lt_of_not_le h, eq_comm]

theorem sub_eq_ok {a b : Nat} (h : b ≤ a) : sub a b = .ok (a - b) := if_pos h

theorem sub_eq_error_iff {a b : Nat} {e : Overflow} :
    sub a b = .error e ↔ a < b ∧ e = .sub := by
  unfold sub
  by_cases h : b ≤ a
  · simp [h, Nat.not_lt.mpr h]
  · simp [h, Nat.lt_of_not_le h, eq_comm]

theorem satAdd_le (a b : Nat) : satAdd a b ≤ maxWord := Nat.min_le_right _ _

/-- saturated sums may be regrouped: one addition of the total does the same -/
theorem satAdd_satAdd (a b c : Nat) : satAdd (satAdd a b) c = satAdd a (b + c) := by
  unfold satAdd
  omega

end Word

end Ebnf
