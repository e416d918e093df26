/-!
# UTF-8 bytes of a text

Everything below the grammar works on bytes; characters come back only when text is shown.

* `encode`         the bytes of a text;
* `decode?`        the text that some bytes encode, if they encode one;
* `decodeLossy`    text for bytes that may cut a character: each longest beginning of a
                   character that does not end as one becomes one replacement character.

`decode?_encode` and `decodeLossy_encode` say that both readings give a text back from its bytes.
-/

namespace Ebnf.Utf8

/-! ## encoding -/

def encode (s : String) : List UInt8 := s.toUTF8.data.toList

theorem encode_eq_flatMap (s : String) : encode s = s.toList.flatMap String.utf8EncodeChar := by
  show s.toByteArray.data.toList = _
  rw [← String.utf8Encode_toList, List.utf8Encode, List.toList_data_toByteArray]

@[simp] theorem encode_append (s t : String) : encode (s ++ t) = encode s ++ encode t := by
  simp [encode_eq_flatMap]

@[simp] theorem encode_empty : encode "" = [] := rfl

theorem toByteArray_encode (s : String) : (encode s).toByteArray = s.toByteArray := by
  apply ByteArray.ext
  simp [encode]

theorem encode_inj {s t : String} : encode s = encode t ↔ s = t := by
  refine ⟨fun h => ?_, fun h => h ▸ rfl⟩
  rw [← String.toByteArray_inj, ← toByteArray_encode, h, toByteArray_encode]

/-! ## exact decoding -/

def decode? (bs : List UInt8) : Option String := String.fromUTF8? bs.toByteArray

@[simp] theorem decode?_encode (s : String) : decode? (encode s) = some s := by
  rw [decode?, toByteArray_encode]
  have h : s.toByteArray.IsValidUTF8 := s.isValidUTF8
  simp [String.fromUTF8?, h, String.fromUTF8]

theorem encode_of_decode? {bs : List UInt8} {s : String} (h : decode? bs = some s) :
    encode s = bs := by
  rw [decode?, String.fromUTF8?] at h
  split at h
  · cases h
    simp [encode, String.toUTF8, String.fromUTF8]
  · cases h

theorem decode?_eq_some_iff {bs : List UInt8} {s : String} : decode? bs = some s ↔ bs = encode s :=
  ⟨fun h => (encode_of_decode? h).symm, fun h => h ▸ decode?_encode s⟩

/-! ## lossy decoding -/

/-- stands for bytes that are no character -/
def replacement : Char := '\uFFFD'

/-- the character whose bytes `bs` begins with -/
def char? (bs : List UInt8) : Option Char := (bs.take 4).toByteArray.utf8DecodeChar? 0

theorem char?_encode_append (c : Char) (rest : List UInt8) :
    char? (String.utf8EncodeChar c ++ rest) = some c := by
  have h : (String.utf8EncodeChar c).length ≤ 4 := by
    rw [String.length_utf8EncodeChar]; exact c.utf8Size_le_four
  rw [char?, List.take_append, List.take_of_length_le h, List.toByteArray_append]
  exact ByteArray.utf8DecodeChar?_utf8EncodeChar_append

/-- a byte inside a character of several bytes -/
def isContinuation (b : UInt8) : Bool := 0x80 ≤ b && b ≤ 0xBF

/-- can `b` be the second byte of a character of three or four bytes that begins with `lead`?

The narrower ranges leave out longer forms of shorter characters, surrogates, and what lies
above the last character. -/
def mayFollow (lead b : UInt8) : Bool :=
  if lead = 0xE0 then 0xA0 ≤ b && b ≤ 0xBF
  else if lead = 0xED then 0x80 ≤ b && b ≤ 0x9F
  else if 0xE1 ≤ lead && lead ≤ 0xEF then isContinuation b
  else if lead = 0xF0 then 0x90 ≤ b && b ≤ 0xBF
  else if 0xF1 ≤ lead && lead ≤ 0xF3 then isContinuation b
  else if lead = 0xF4 then 0x80 ≤ b && b ≤ 0x8F
  else false

/-- how many bytes after `lead` belong to the unfinished character it begins -/
def unfinished (lead : UInt8) : List UInt8 → Nat
  | [] => 0
  | [b] => if mayFollow lead b then 1 else 0
  | b :: c :: _ =>
    if mayFollow lead b then
      if 0xF0 ≤ lead && isContinuation c then 2 else 1
    else 0

/-- the characters of `bs` once its first `skip` bytes are passed over -/
def decodeFrom : (skip : Nat) → (bs : List UInt8) → List Char
  | _, [] => []
  | skip + 1, _ :: rest => decodeFrom skip rest
  | 0, b :: rest =>
    match char? (b :: rest) with
    | some c => c :: decodeFrom (c.utf8Size - 1) rest
    | none => replacement :: decodeFrom (unfinished b rest) rest

/-- text for bytes that need not be a text -/
def decodeLossy (bs : List UInt8) : String := String.ofList (decodeFrom 0 bs)

theorem decodeFrom_eq_drop (skip : Nat) (bs : List UInt8) :
    decodeFrom skip bs = decodeFrom 0 (bs.drop skip) := by
  induction bs generalizing skip with
  | nil => cases skip <;> rfl
  | cons b rest ih =>
    cases skip with
    | zero => rfl
    | succ n => exact ih n

theorem decodeFrom_encode_append (c : Char) (rest : List UInt8) :
    decodeFrom 0 (String.utf8EncodeChar c ++ rest) = c :: decodeFrom 0 rest := by
  have hl : (String.utf8EncodeChar c).length = c.utf8Size := String.length_utf8EncodeChar c
  have hp := c.utf8Size_pos
  have hc := char?_encode_append c rest
  cases he : String.utf8EncodeChar c with
  | nil => rw [he] at hl; simp at hl; omega
  | cons b t =>
    rw [he] at hc hl
    have ht : t.length = c.utf8Size - 1 := by simp at hl; omega
    rw [List.cons_append] at hc ⊢
    rw [decodeFrom, hc]
    show c :: decodeFrom (c.utf8Size - 1) (t ++ rest) = _
    rw [decodeFrom_eq_drop, ← ht, List.drop_left]

theorem decodeFrom_flatMap (cs : List Char) :
    decodeFrom 0 (cs.flatMap String.utf8EncodeChar) = cs := by
  induction cs with
  | nil => rfl
  | cons c cs ih => rw [List.flatMap_cons, decodeFrom_encode_append, ih]

@[simp] theorem decodeLossy_encode (s : String) : decodeLossy (encode s) = s := by
  rw [decodeLossy, encode_eq_flatMap, decodeFrom_flatMap, String.ofList_toList]

end Ebnf.Utf8
