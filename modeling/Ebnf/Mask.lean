/-!
# Token categories and masks of them

A byte may belong to several categories at once: a newline is whitespace and a newline, an
upper-case letter is a letter and upper-case.  A `Mask` is a set of categories, one bit each.

* `Category`      the sixteen categories, `Category.all` in the order of their bits;
* `Mask`          a word of such bits; bits that no category has are kept and mean nothing;
* `contains`      all categories of the other mask are in this one;
* `intersects`    some category of the other mask is in this one;
* `toText`        the names of the categories, in the order of their bits;
* `classify`      the mask of a single byte.
-/

namespace Ebnf

/-! ## categories -/

inductive Category where
  /-- `0` to `9` -/
  | digit
  /-- an ASCII letter -/
  | alpha
  | upper
  | lower
  /-- printable ASCII that is no letter, digit, quote or bracket -/
  | symbol
  | quote
  /-- a bracket of any shape -/
  | paren
  /-- any whitespace -/
  | ws
  | space
  | tab
  | cr
  | nl
  /-- the zero byte -/
  | null
  /-- a registered word -/
  | word
  /-- a control byte or a byte outside ASCII -/
  | unknown
  /-- the end of the input -/
  | eof
deriving DecidableEq

namespace Category

def all : List Category :=
  [digit, alpha, upper, lower, symbol, quote, paren, ws, space, tab, cr, nl, null, word, unknown,
    eof]

def index : Category → UInt32
  | digit => 0
  | alpha => 1
  | upper => 2
  | lower => 3
  | symbol => 4
  | quote => 5
  | paren => 6
  | ws => 7
  | space => 8
  | tab => 9
  | cr => 10
  | nl => 11
  | null => 12
  | word => 13
  | unknown => 14
  | eof => 15

def name : Category → String
  | digit => "DIGIT"
  | alpha => "ALPHA"
  | upper => "UPPER"
  | lower => "LOWER"
  | symbol => "SYMBOL"
  | quote => "QUOTE"
  | paren => "PAREN"
  | ws => "WS"
  | space => "SPACE"
  | tab => "TAB"
  | cr => "CR"
  | nl => "NL"
  | null => "NULL"
  | word => "WORD"
  | unknown => "UNKNOWN"
  | eof => "EOF"

theorem mem_all (c : Category) : c ∈ all := by cases c <;> decide

end Category

/-! ## masks -/

structure Mask where
  bits : UInt32
deriving DecidableEq

namespace Mask

def of (c : Category) : Mask := ⟨1 <<< c.index⟩

def union (m n : Mask) : Mask := ⟨m.bits ||| n.bits⟩

def contains (m n : Mask) : Bool := m.bits &&& n.bits == n.bits

def intersects (m n : Mask) : Bool := m.bits &&& n.bits != 0

def has (m : Mask) (c : Category) : Bool := m.contains (of c)

def isEof (m : Mask) : Bool := m.has .eof

def categories (m : Mask) : List Category := Category.all.filter m.has

def toText (m : Mask) : String :=
  match m.categories with
  | [] => "NONE"
  | cs => "|".intercalate (cs.map Category.name)

def word : Mask := of .word

def eof : Mask := of .eof

theorem mem_categories {m : Mask} {c : Category} : c ∈ m.categories ↔ m.has c = true := by
  simp [categories, Category.mem_all]

theorem has_of (c d : Category) : (of c).has d = decide (c = d) := by
  cases c <;> cases d <;> decide

@[simp] theorem isEof_eof : eof.isEof = true := rfl

@[simp] theorem isEof_word : word.isEof = false := rfl

end Mask

/-! ## the category of a byte -/

def isBetween (lo hi b : UInt8) : Bool := lo ≤ b && b ≤ hi

/-- the categories of a byte; every byte has one -/
def classify (b : UInt8) : Mask :=
  if isBetween 48 57 b then .of .digit
  else if isBetween 65 90 b then (Mask.of .alpha).union (.of .upper)
  else if isBetween 97 122 b then (Mask.of .alpha).union (.of .lower)
  -- single quote, double quote, backtick
  else if [39, 34, 96].contains b then .of .quote
  -- round, square and curly brackets
  else if [40, 41, 91, 93, 123, 125].contains b then .of .paren
  else if b = 32 then (Mask.of .ws).union (.of .space)
  else if b = 9 then (Mask.of .ws).union (.of .tab)
  else if b = 13 then (Mask.of .ws).union (.of .cr)
  else if b = 10 then (Mask.of .ws).union (.of .nl)
  else if b = 0 then .of .null
  -- the rest of printable ASCII: backslash, caret, underscore, bar and tilde stand apart
  else if isBetween 33 47 b || isBetween 58 64 b || [92, 94, 95, 124, 126].contains b then
    .of .symbol
  else .of .unknown

theorem isEof_ite {p : Prop} [Decidable p] {m n : Mask} (hm : m.isEof = false)
    (hn : n.isEof = false) : (if p then m else n).isEof = false := by
  split
  · exact hm
  · exact hn

/-- no byte stands for the end of the input -/
theorem isEof_classify (b : UInt8) : (classify b).isEof = false := by
  unfold classify
  repeat refine isEof_ite rfl ?_
  rfl

end Ebnf
