import Ebnf.Mask
import Ebnf.Span

/-!
# Tokens

A token is a run of source bytes with the categories it belongs to.  The end of the input is a
token of its own, empty and past the last byte, so that reading on never fails.

* `stop`, `span`                 where the token ends, and its bytes as a span;
* `stopChecked`, `spanChecked`   the same for arbitrary words, refused if they overflow.
-/

namespace Ebnf

structure Token where
  mask : Mask
  /-- offset of the first byte -/
  start : Nat
  /-- number of bytes -/
  size : Nat
deriving DecidableEq

namespace Token

/-- the end of a source of `n` bytes -/
def eof (n : Nat) : Token := ⟨.eof, n, 0⟩

def stop (t : Token) : Nat := t.start + t.size

def span (t : Token) : Span := ⟨t.start, t.stop⟩

def stopChecked (t : Token) : Except Overflow Nat := Word.add t.start t.size

def spanChecked (t : Token) : Except Overflow Span := t.stopChecked.map (⟨t.start, ·⟩)

/-- does the token belong to one of the categories of `m`? -/
def is (t : Token) (m : Mask) : Bool := t.mask.intersects m

@[simp] theorem start_eof (n : Nat) : (eof n).start = n := rfl

@[simp] theorem stop_eof (n : Nat) : (eof n).stop = n := rfl

@[simp] theorem isEof_mask_eof (n : Nat) : (eof n).mask.isEof = true := Mask.isEof_eof

@[simp] theorem start_span (t : Token) : t.span.start = t.start := rfl

@[simp] theorem stop_span (t : Token) : t.span.stop = t.stop := rfl

theorem stopChecked_eq_ok {t : Token} (h : t.stop ≤ Word.maxWord) : t.stopChecked = .ok t.stop :=
  Word.add_eq_ok h

theorem spanChecked_eq_ok {t : Token} (h : t.stop ≤ Word.maxWord) : t.spanChecked = .ok t.span := by
  rw [spanChecked, stopChecked_eq_ok h]
  rfl

end Token

end Ebnf
