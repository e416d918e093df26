import Ebnf.Location
import Ebnf.Token
import Ebnf.Words

/-!
# Tokenized sources

The tokens of a source lie side by side and cover it.  At each place the longest registered word
that begins there is one token; where none begins, one byte is.  No source is refused.

* `tokenize`       the tokens of some bytes;
* `Lexed`          a source with its tokens and what a report needs to name its lines;
* `Lexed.ofText`   tokenizes a text;
* `Lexed.token`    the token at an index, the end of the input past the last one;
* `Lexed.spell`    where a run of whole tokens that spells given bytes ends.
-/

namespace Ebnf

/-! ## tokens of bytes -/

/-- the tokens of `bs`, which starts at offset `pos`, once `skip` bytes are passed over -/
def tokenizeFrom (w : Words) : (skip pos : Nat) → (bs : List UInt8) → List Token
  | _, _, [] => []
  | skip + 1, pos, _ :: rest => tokenizeFrom w skip (pos + 1) rest
  | 0, pos, b :: rest =>
    match w.longestMatch (b :: rest) with
    | some n => ⟨.word, pos, n⟩ :: tokenizeFrom w (n - 1) (pos + 1) rest
    | none => ⟨classify b, pos, 1⟩ :: tokenizeFrom w 0 (pos + 1) rest

def tokenize (w : Words) (bs : List UInt8) : List Token := tokenizeFrom w 0 0 bs

theorem tokenizeFrom_eq_drop (w : Words) (skip pos : Nat) (bs : List UInt8)
    (h : skip ≤ bs.length) :
    tokenizeFrom w skip pos bs = tokenizeFrom w 0 (pos + skip) (bs.drop skip) := by
  induction bs generalizing skip pos with
  | nil => cases skip <;> rfl
  | cons b rest ih =>
    cases skip with
    | zero => rfl
    | succ n =>
      show tokenizeFrom w n (pos + 1) rest = _
      rw [ih n (pos + 1) (by simp at h; exact h), List.drop_succ_cons]
      congr 1
      omega

/-! ## sources -/

structure Lexed where
  text : String
  /-- name of the source, as reports show it -/
  file : String
  /-- number of lines that stand before the source in its file -/
  linesBefore : Nat
  words : Words
  bytes : Array UInt8
  tokens : Array Token
  bytes_eq : bytes.toList = Utf8.encode text
  tokens_eq : tokens.toList = tokenize words bytes.toList

namespace Lexed

def ofText (text file : String) (linesBefore : Nat) (words : Words) : Lexed :=
  let bytes := (Utf8.encode text).toArray
  { text, file, linesBefore, words, bytes
    tokens := (tokenize words bytes.toList).toArray
    bytes_eq := rfl
    tokens_eq := rfl }

/-- number of tokens, the end of the input not counted -/
def size (x : Lexed) : Nat := x.tokens.size

/-- the token at an index -/
def token (x : Lexed) (i : Nat) : Token := x.tokens[i]?.getD (.eof x.bytes.size)

/-- the bytes from `start` on and before `stop`, as far as the source has them -/
def slice (x : Lexed) (start stop : Nat) : List UInt8 := (x.bytes.extract start stop).toList

def spanBytes (x : Lexed) (s : Span) : List UInt8 := x.slice s.start s.stop

def tokenBytes (x : Lexed) (i : Nat) : List UInt8 := x.spanBytes (x.token i).span

/-- the text of a token; a token that cuts a character shows a replacement -/
def tokenText (x : Lexed) (i : Nat) : String := Utf8.decodeLossy (x.tokenBytes i)

def location (x : Lexed) (i : Nat) : Location :=
  .locate x.bytes.toList (x.token i).start x.linesBefore

def lineText (x : Lexed) (l : Location) : String :=
  Utf8.decodeLossy (x.slice l.lineStart (l.lineStart + l.lineSize))

/-- the text of a line for arbitrary words, refused if its end overflows -/
def lineTextChecked (x : Lexed) (l : Location) : Except Overflow String :=
  (Word.add l.lineStart l.lineSize).map fun stop => Utf8.decodeLossy (x.slice l.lineStart stop)

/-- bytes of the tokens from `start` on and before `stop`; empty where an empty range starts -/
def rangeSpan (x : Lexed) (r : TokenRange) : Span :=
  if r.stop ≤ r.start then .point (x.token r.start).start
  else ⟨(x.token r.start).start, (x.token (r.stop - 1)).stop⟩

/-- the index after a run of whole tokens, from `i` on, that spells `bs` once `skip` bytes are
passed over -/
def spellFrom (x : Lexed) : (skip i : Nat) → (bs : List UInt8) → Option Nat
  | _, i, [] => some i
  | skip + 1, i, _ :: rest => x.spellFrom skip i rest
  | 0, i, b :: rest =>
    let t := x.tokenBytes i
    if !t.isEmpty && t.isPrefixOf (b :: rest) then x.spellFrom (t.length - 1) (i + 1) rest
    else none

/-- the index after a run of whole tokens, from `i` on, that spells `bs` -/
def spell (x : Lexed) (i : Nat) (bs : List UInt8) : Option Nat := x.spellFrom 0 i bs

theorem bytes_size (x : Lexed) : x.bytes.size = (Utf8.encode x.text).length := by
  rw [← x.bytes_eq, Array.length_toList]

theorem token_of_getElem? {x : Lexed} {i : Nat} {t : Token} (h : x.tokens[i]? = some t) :
    x.token i = t := by
  rw [token, h]
  rfl

theorem token_of_size_le {x : Lexed} {i : Nat} (h : x.size ≤ i) :
    x.token i = .eof x.bytes.size := by
  rw [token, Array.getElem?_eq_none h]
  rfl

theorem spanBytes_eq (x : Lexed) (s : Span) :
    x.spanBytes s = ((Utf8.encode x.text).take s.stop).drop s.start := by
  rw [spanBytes, slice, Array.toList_extract, x.bytes_eq, List.extract_eq_take_drop,
    List.drop_take]

@[simp] theorem spell_nil (x : Lexed) (i : Nat) : x.spell i [] = some i := rfl

end Lexed

end Ebnf
