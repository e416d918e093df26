import Ebnf.Word

/-!
# Half-open ranges

* `Span`         bytes of a source;
* `TokenRange`   tokens of a source.

Both are written `start`, `stop`, and the element at `stop` is outside.  A caller may build one
whose `stop` lies before its `start`; only the checked length notices.
-/

namespace Ebnf

/-- bytes `start`, ..., `stop - 1` of a source -/
structure Span where
  start : Nat
  stop : Nat
deriving DecidableEq

namespace Span

def point (p : Nat) : Span := ⟨p, p⟩

def isEmpty (s : Span) : Bool := s.start == s.stop

def size (s : Span) : Nat := s.stop - s.start

/-- number of bytes, refused if the span runs backwards -/
def sizeChecked (s : Span) : Except Overflow Nat := Word.sub s.stop s.start

def toText (s : Span) : String := s!"{s.start}..{s.stop}"

theorem sizeChecked_eq_ok {s : Span} (h : s.start ≤ s.stop) : s.sizeChecked = .ok s.size :=
  Word.sub_eq_ok h

@[simp] theorem size_point (p : Nat) : (point p).size = 0 := Nat.sub_self p

theorem isEmpty_iff {s : Span} : s.isEmpty = true ↔ s.start = s.stop := by simp [isEmpty]

end Span

/-- tokens `start`, ..., `stop - 1` of a source -/
structure TokenRange where
  start : Nat
  stop : Nat
deriving DecidableEq

namespace TokenRange

def isEmpty (r : TokenRange) : Bool := r.start == r.stop

def size (r : TokenRange) : Nat := r.stop - r.start

/-- number of tokens, refused if the range runs backwards -/
def sizeChecked (r : TokenRange) : Except Overflow Nat := Word.sub r.stop r.start

theorem sizeChecked_eq_ok {r : TokenRange} (h : r.start ≤ r.stop) : r.sizeChecked = .ok r.size :=
  Word.sub_eq_ok h

end TokenRange

end Ebnf
