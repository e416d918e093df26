import Ebnf.Word

/-!
# Lines and columns

A line ends before a line feed, and before a carriage return that stands right before its end.

* `Location`   the line an offset lies in, and the offset's column;
* `locate`     the location of an offset, found by reading the source from its start.
-/

namespace Ebnf

structure Location where
  /-- offset of the first byte of the line -/
  lineStart : Nat
  /-- number of bytes of the line, without its end -/
  lineSize : Nat
  /-- number of the line, counted from one -/
  line : Nat
  /-- offset within the line, counted from zero -/
  column : Nat
deriving DecidableEq

namespace Location

def lineFeed : UInt8 := 10

def carriageReturn : UInt8 := 13

def displayColumn (l : Location) : Nat := l.column + 1

def displayColumnChecked (l : Location) : Except Overflow Nat := Word.add l.column 1

theorem displayColumnChecked_eq_ok {l : Location} (h : l.displayColumn ≤ Word.maxWord) :
    l.displayColumnChecked = .ok l.displayColumn := Word.add_eq_ok h

def trim (line : List UInt8) : List UInt8 :=
  if line.getLast? = some carriageReturn then line.dropLast else line

theorem length_trim_le (line : List UInt8) : (trim line).length ≤ line.length := by
  unfold trim
  split
  · rw [List.length_dropLast]
    exact Nat.sub_le _ _
  · exact Nat.le_refl _

/-- the location of the byte at `offset`, or of the end of the source if it has no such byte;
`linesBefore` lines stand before the source -/
def locate (bytes : List UInt8) (offset linesBefore : Nat) : Location :=
  let offset := min offset bytes.length
  let before := bytes.take offset
  let column := (before.reverse.takeWhile (· != lineFeed)).length
  let lineStart := offset - column
  let line := (bytes.drop lineStart).takeWhile (· != lineFeed)
  { lineStart
    lineSize := (trim line).length
    line := Word.satAdd linesBefore (1 + before.count lineFeed)
    column }

end Location

end Ebnf
