import Ebnf.Utf8
import Ebnf.Word

/-!
# Registered words

The words that are to be single tokens, indexed by their first byte.  Each bucket of the index
holds positions in the table, longest word first, so that the first word of a bucket that begins
the text at hand is the longest one that does.

* `begins`         a bucket holds positions of words that begin with its byte, so no word is empty;
* `insert`         registers a word; the empty word and a known word change nothing;
* `register`       registers a word as long as its position fits a machine word;
* `ofList`, `registered`   the words of a list, registered in order;
* `longestMatch`   the length of the longest registered word that begins some bytes.
-/

namespace Ebnf

theorem begins_empty (b : UInt8) (i : Nat)
    (h : i ∈ (Vector.replicate 256 ([] : List Nat)).get b.toFin) :
    ∃ rest, (#[] : Array (List UInt8))[i]? = some (b :: rest) := by
  have hnil : (Vector.replicate 256 ([] : List Nat)).get b.toFin = [] := by simp [Vector.get]
  rw [hnil] at h
  cases h

structure Words where
  /-- the registered words, in the order of registration -/
  table : Array (List UInt8) := #[]
  /-- per first byte, the positions of its words, longest first -/
  buckets : Vector (List Nat) 256 := Vector.replicate 256 []
  /-- a bucket holds positions of words that begin with its byte -/
  begins : ∀ b : UInt8, ∀ i ∈ buckets.get b.toFin, ∃ rest, table[i]? = some (b :: rest) := by
    exact begins_empty

namespace Words

def word (w : Words) (i : Nat) : List UInt8 := w.table.getD i []

/-- the positions of the words that begin with `b` -/
def bucket (w : Words) (b : UInt8) : List Nat := w.buckets.get b.toFin

def size (w : Words) : Nat := w.table.size

def isEmpty (w : Words) : Bool := w.table.isEmpty

/-- `i` put in front of the first position whose word is shorter than its own -/
def place (len : Nat → Nat) (i : Nat) : List Nat → List Nat
  | [] => [i]
  | j :: js => if len j < len i then i :: j :: js else j :: place len i js

theorem mem_place {len : Nat → Nat} {i k : Nat} {js : List Nat} :
    k ∈ place len i js ↔ k = i ∨ k ∈ js := by
  induction js with
  | nil => simp [place]
  | cons j js ih =>
    rw [place]
    split
    · exact List.mem_cons
    · rw [List.mem_cons, ih, List.mem_cons]
      exact or_left_comm

theorem begins_insert (w : Words) (b : UInt8) (bs : List UInt8) (len : Nat → Nat) (c : UInt8)
    (i : Nat)
    (hi : i ∈ (w.buckets.set b.toNat (place len w.table.size (w.bucket b)) b.toNat_lt).get c.toFin) :
    ∃ rest, (w.table.push (b :: bs))[i]? = some (c :: rest) := by
  have old : i ∈ w.bucket c → ∃ rest, (w.table.push (b :: bs))[i]? = some (c :: rest) := by
    intro h
    obtain ⟨rest, hr⟩ := w.begins c i h
    refine ⟨rest, ?_⟩
    obtain ⟨hlt, _⟩ := Array.getElem?_eq_some_iff.mp hr
    rw [Array.getElem?_push, if_neg (Nat.ne_of_lt hlt), hr]
  have hc : c.toNat < 256 := c.toNat_lt
  change i ∈ (w.buckets.set b.toNat _ b.toNat_lt)[c.toNat] at hi
  rw [Vector.getElem_set] at hi
  split at hi
  · rename_i e
    obtain rfl : b = c := UInt8.toNat_inj.mp e
    rcases mem_place.mp hi with rfl | h
    · exact ⟨bs, Array.getElem?_push_size⟩
    · exact old h
  · exact old hi

def insert (w : Words) : List UInt8 → Words
  | [] => w
  | b :: bs =>
    if w.table.contains (b :: bs) then w
    else
      let table := w.table.push (b :: bs)
      let js := place (fun i => (table.getD i []).length) w.table.size (w.bucket b)
      { table, buckets := w.buckets.set b.toNat js b.toNat_lt, begins := begins_insert w b bs _ }

/-- a position is a machine word, so behind the last of these no word is registered any more -/
def register (w : Words) (bs : List UInt8) : Words :=
  if w.size ≤ Word.maxWord then w.insert bs else w

/-- words of which none is refused for its position -/
def ofList (words : List String) : Words :=
  words.foldl (fun w s => w.insert (Utf8.encode s)) {}

def registered (words : List String) : Words :=
  words.foldl (fun w s => w.register (Utf8.encode s)) {}

/-- length of the longest registered word that `rest` begins with -/
def longestMatch (w : Words) : List UInt8 → Option Nat
  | [] => none
  | b :: rest =>
    ((w.bucket b).find? fun i => (w.word i).isPrefixOf (b :: rest)).map fun i => (w.word i).length

@[simp] theorem longestMatch_nil (w : Words) : w.longestMatch [] = none := rfl

/-- a match is not empty and does not go past the bytes at hand -/
theorem bounds_of_longestMatch {w : Words} {bs : List UInt8} {n : Nat}
    (h : w.longestMatch bs = some n) : 0 < n ∧ n ≤ bs.length := by
  cases bs with
  | nil => cases h
  | cons b rest =>
    rw [longestMatch, Option.map_eq_some_iff] at h
    obtain ⟨i, hi, rfl⟩ := h
    obtain ⟨tail, hw⟩ := w.begins b i (List.mem_of_find?_eq_some hi)
    have hp := List.find?_some hi
    refine ⟨?_, (List.isPrefixOf_iff_prefix.mp hp).length_le⟩
    rw [word, Array.getD_eq_getD_getElem?, hw]
    exact Nat.succ_pos _

@[simp] theorem insert_nil (w : Words) : w.insert [] = w := rfl

@[simp] theorem bucket_empty (b : UInt8) : ({} : Words).bucket b = [] := by
  simp [bucket, Vector.get]

@[simp] theorem longestMatch_empty (bs : List UInt8) : ({} : Words).longestMatch bs = none := by
  cases bs with
  | nil => rfl
  | cons b rest => rw [longestMatch, bucket_empty]; rfl

end Words

end Ebnf
