import Mathlib.Data.List.Induction
import Ebnf.Proofs.Source.Spelling

/-!
# A source is read without overflow

A running program keeps offsets, lengths and columns in words.  A sum of two words may overflow, a
difference may be negative, and a slice or an index may ask for what is not there.  Under `Checked`
the reading of a source is spelled out with every such step in its place; each step is checked, and
the first that fails is what comes out.

* `Fault`, `Checked`       what a step may fail with;
* `get`, `slice`           an element, a stretch of a list;
* `toWord`                 a number as a word, the largest word if it is none;
* `place`, `longestMatch`, `scan`   registering words, finding them, tokenizing;
* `token`, `tokenBytes`, `tokenText`   look-ups by index, which may lie past the end;
* `locate`, `location`, `lineText`     lines and columns;
* `Reads`                  all of these give what they give without the checks;
* `reads`                  and so they do, if the source has fewer bytes than the largest word.
-/

namespace Ebnf

inductive Fault where
  | overflow (o : Overflow)
  /-- a slice or an index of what is not there -/
  | outOfBounds
  /-- a tree has as many nodes as the largest word; the one stop that is the input's doing -/
  | full
deriving DecidableEq

abbrev Checked := Except Fault

instance : MonadLift (Except Overflow) Checked := ⟨Except.mapError .overflow⟩

namespace Checked

/-! ## checked steps -/

section
variable {α β : Type}

@[simp] theorem ok_bind (a : α) (f : α → Checked β) : (Except.ok a >>= f : Checked β) = f a := rfl

@[simp] theorem lift_ok (a : α) :
    (liftM (Except.ok a : Except Overflow α) : Checked α) = .ok a := rfl

def get (xs : List α) (i : Nat) : Checked α :=
  match xs[i]? with
  | some a => .ok a
  | none => .error .outOfBounds

def slice (xs : List α) (start stop : Nat) : Checked (List α) :=
  if start ≤ stop ∧ stop ≤ xs.length then .ok (xs.extract start stop) else .error .outOfBounds

theorem get_eq_ok {xs : List α} {i : Nat} {a : α} (h : xs[i]? = some a) : get xs i = .ok a := by
  rw [get, h]

theorem slice_eq_ok {xs : List α} {start stop : Nat} (h : start ≤ stop) (h' : stop ≤ xs.length) :
    slice xs start stop = .ok (xs.extract start stop) := if_pos ⟨h, h'⟩

theorem slice_zero {xs : List α} {stop : Nat} (h : stop ≤ xs.length) :
    slice xs 0 stop = .ok (xs.take stop) := by
  rw [slice_eq_ok (Nat.zero_le _) h, List.extract_eq_take_drop, Nat.sub_zero, List.drop_zero]

theorem slice_length {xs : List α} {start : Nat} (h : start ≤ xs.length) :
    slice xs start xs.length = .ok (xs.drop start) := by
  rw [slice_eq_ok h (Nat.le_refl _), List.extract_eq_take_drop]
  exact congrArg Except.ok (List.take_of_length_le (Nat.le_of_eq List.length_drop))

end

/-- a number as a word; the largest word stands for what is larger -/
def toWord (n : Nat) : Nat := min n Word.maxWord

theorem toWord_of_le {n : Nat} (h : n ≤ Word.maxWord) : toWord n = n := Nat.min_eq_left h

/-! ## registered words -/

/-- `i` in front of the first of `js` whose word is shorter than its own -/
def place (table : List (List UInt8)) (i : Nat) : List Nat → Checked (List Nat)
  | [] => return [i]
  | j :: js => do
    let old ← get table j
    let new ← get table i
    if old.length < new.length then return i :: j :: js
    else
      let rest ← place table i js
      return j :: rest

def firstWord (w : Words) (rest : List UInt8) : List Nat → Checked (Option Nat)
  | [] => return none
  | i :: is => do
    let word ← get w.table.toList i
    if word.isPrefixOf rest then return some word.length else firstWord w rest is

def longestMatch (w : Words) : List UInt8 → Checked (Option Nat)
  | [] => return none
  | b :: rest => firstWord w (b :: rest) (w.bucket b)

theorem place_eq {table : Array (List UInt8)} {i : Nat} {js : List Nat} (hi : i < table.size)
    (h : ∀ j ∈ js, j < table.size) :
    place table.toList i js = .ok (Words.place (fun k => (table.getD k []).length) i js) := by
  have hget : ∀ k, k < table.size → get table.toList k = .ok (table.getD k []) := by
    intro k hk
    apply get_eq_ok
    rw [Array.getElem?_toList, Array.getElem?_eq_getElem hk, Array.getD_eq_getD_getElem?,
      Array.getElem?_eq_getElem hk]
    rfl
  induction js with
  | nil => rfl
  | cons j js ih =>
    have ih := ih fun k hk => h k (List.mem_cons_of_mem j hk)
    rw [place, Words.place, hget j (h j List.mem_cons_self), hget i hi, ok_bind, ok_bind, ih]
    by_cases hlt : (table.getD j []).length < (table.getD i []).length
    · rw [if_pos hlt, if_pos hlt]
      rfl
    · rw [if_neg hlt, if_neg hlt]
      rfl

/-- to register a word reads only words of the table -/
theorem place_bucket (w : Words) (b : UInt8) (bs : List UInt8) :
    place (w.table.push (b :: bs)).toList w.table.size (w.bucket b) =
      .ok (Words.place (fun k => ((w.table.push (b :: bs)).getD k []).length) w.table.size
        (w.bucket b)) := by
  have hsize : w.table.size < (w.table.push (b :: bs)).size := by
    rw [Array.size_push]
    exact Nat.lt_succ_self _
  refine place_eq hsize fun j hj => ?_
  obtain ⟨rest, hrest⟩ := w.begins b j hj
  exact Nat.lt_trans (Array.getElem?_eq_some_iff.mp hrest).1 hsize

theorem firstWord_eq {w : Words} {rest : List UInt8} {is : List Nat}
    (h : ∀ i ∈ is, ∃ word, w.table[i]? = some word) :
    firstWord w rest is =
      .ok ((is.find? fun i => (w.word i).isPrefixOf rest).map fun i => (w.word i).length) := by
  induction is with
  | nil => rfl
  | cons i is ih =>
    have ih := ih fun j hj => h j (List.mem_cons_of_mem i hj)
    obtain ⟨word, hword⟩ := h i List.mem_cons_self
    have hget : get w.table.toList i = .ok word := get_eq_ok (by rw [Array.getElem?_toList, hword])
    have e : w.word i = word := by rw [Words.word, Array.getD_eq_getD_getElem?, hword]; rfl
    rw [firstWord, hget, ok_bind, ih, List.find?_cons, e]
    cases hp : word.isPrefixOf rest with
    | true => exact congrArg (fun v => Except.ok (some (List.length v))) e.symm
    | false => rfl

theorem longestMatch_eq (w : Words) (bs : List UInt8) :
    longestMatch w bs = .ok (w.longestMatch bs) := by
  cases bs with
  | nil => rfl
  | cons b rest =>
    apply firstWord_eq
    intro i hi
    obtain ⟨tail, h⟩ := w.begins b i hi
    exact ⟨_, h⟩

/-! ## tokens of bytes -/

def munch (w : Words) (rest : List UInt8) : Checked (Mask × Nat) := do
  match ← longestMatch w rest with
  | some n => return (.word, n)
  | none =>
    let b ← get rest 0
    return (classify b, 1)

/-- the tokens from `pos` on, read in at most so many rounds; they end early where an offset or a
length is no word -/
def scanFrom (w : Words) (bs : List UInt8) : (rounds pos : Nat) → Checked (List Token)
  | 0, _ => return []
  | rounds + 1, pos => do
    if pos < bs.length then
      let rest ← slice bs pos bs.length
      let (mask, size) ← munch w rest
      if pos ≤ Word.maxWord ∧ size ≤ Word.maxWord then
        let tokens ← scanFrom w bs rounds (pos + size)
        return ⟨mask, pos, size⟩ :: tokens
      else return []
    else return []

/-- each round moves on by a byte or more -/
def scan (w : Words) (bs : List UInt8) : Checked (List Token) := scanFrom w bs bs.length 0

theorem munch_eq (w : Words) (b : UInt8) (rest : List UInt8) (pos : Nat) :
    ∃ mask n, munch w (b :: rest) = .ok (mask, n) ∧ 0 < n ∧ n ≤ (b :: rest).length ∧
      tokenizeFrom w 0 pos (b :: rest) =
        ⟨mask, pos, n⟩ :: tokenizeFrom w 0 (pos + n) ((b :: rest).drop n) := by
  rw [munch, longestMatch_eq, ok_bind, tokenizeFrom.eq_def w 0 pos (b :: rest)]
  dsimp only
  cases hm : w.longestMatch (b :: rest) with
  | none => exact ⟨_, _, rfl, Nat.one_pos, Nat.le_add_left 1 _, rfl⟩
  | some n =>
    obtain ⟨hpos, hle⟩ := Words.bounds_of_longestMatch hm
    refine ⟨_, n, rfl, hpos, hle, congrArg (List.cons _) ?_⟩
    obtain ⟨m, rfl⟩ : ∃ m, n = m + 1 := Nat.exists_eq_add_of_le' hpos
    rw [List.length_cons] at hle
    rw [Nat.add_sub_cancel, tokenizeFrom_eq_drop w m _ _ (by omega), List.drop_succ_cons,
      Nat.add_assoc, Nat.add_comm 1 m]

theorem scanFrom_eq {w : Words} {bs : List UInt8} (h : bs.length ≤ Word.maxWord)
    {rounds pos : Nat} (hr : bs.length ≤ pos + rounds) (hp : pos ≤ bs.length) :
    scanFrom w bs rounds pos = .ok (tokenizeFrom w 0 pos (bs.drop pos)) := by
  induction rounds generalizing pos with
  | zero =>
    rw [List.drop_eq_nil_of_le (show bs.length ≤ pos from hr)]
    rfl
  | succ rounds ih =>
    rw [scanFrom]
    by_cases hlt : pos < bs.length
    · obtain ⟨b, rest, hrest⟩ : ∃ b rest, bs.drop pos = b :: rest :=
        List.exists_cons_of_length_pos (by rw [List.length_drop]; omega)
      obtain ⟨mask, n, hmunch, hpos, hle, htokens⟩ := munch_eq w b rest pos
      rw [← hrest, List.length_drop] at hle
      have hn : pos ≤ Word.maxWord ∧ n ≤ Word.maxWord := by omega
      rw [if_pos hlt, slice_length hp, ok_bind, hrest, hmunch, ok_bind, htokens]
      dsimp only
      rw [if_pos hn, ih (by omega) (by omega), ← hrest, List.drop_drop]
      rfl
    · rw [if_neg hlt, List.drop_eq_nil_of_le (Nat.le_of_not_lt hlt)]
      rfl

/-- bytes are tokenized without a fault, if there are no more than words can count -/
theorem scan_eq {w : Words} {bs : List UInt8} (h : bs.length ≤ Word.maxWord) :
    scan w bs = .ok (tokenize w bs) :=
  scanFrom_eq h (Nat.le_add_left _ _) (Nat.zero_le _)

/-! ## lines and columns -/

/-- where the last line of some bytes starts, and its number; the bytes begin at `i`, in the line
`line`, which starts at `start` -/
def lastLine : (i start line : Nat) → List UInt8 → Nat × Nat
  | _, start, line, [] => (start, line)
  | i, start, line, b :: bs =>
    if b == Location.lineFeed then lastLine (i + 1) (i + 1) (Word.satAdd line 1) bs
    else lastLine (i + 1) start line bs

/-- a line ends at `stop`, or before a carriage return that stands there -/
def trimStop (bytes : List UInt8) (start stop : Nat) : Checked Nat := do
  if start < stop then
    let last ← Word.sub stop 1
    let b ← get bytes last
    if b = Location.carriageReturn then return last else return stop
  else return stop

def lineStop (bytes : List UInt8) (start : Nat) : Checked Nat := do
  let rest ← slice bytes start bytes.length
  let stop := match rest.findIdx? (· == Location.lineFeed) with
    | some n => start + n
    | none => bytes.length
  trimStop bytes start stop

def locate (bytes : List UInt8) (offset linesBefore : Nat) : Checked Location := do
  let offset := min offset bytes.length
  let before ← slice bytes 0 offset
  let (start, line) := lastLine 0 0 (Word.satAdd linesBefore 1) before
  let stop ← lineStop bytes start
  let size ← Word.sub stop start
  let column ← Word.sub offset start
  return { lineStart := toWord start, lineSize := toWord size, line, column := toWord column }

theorem lastLine_concat (i start line : Nat) (bs : List UInt8) (b : UInt8) :
    lastLine i start line (bs ++ [b]) =
      if b == Location.lineFeed then
        (i + bs.length + 1, Word.satAdd (lastLine i start line bs).2 1)
      else lastLine i start line bs := by
  induction bs generalizing i start line with
  | nil => rfl
  | cons a bs ih =>
    rw [List.cons_append, lastLine, lastLine, ih, ih, List.length_cons, ← Nat.add_assoc,
      Nat.add_right_comm i bs.length 1]
    cases a == Location.lineFeed <;> rfl

/-- reading forth finds the line that reading back from the end finds -/
theorem lastLine_eq (linesBefore : Nat) (bs : List UInt8) :
    lastLine 0 0 (Word.satAdd linesBefore 1) bs =
      (bs.length - (bs.reverse.takeWhile (· != Location.lineFeed)).length,
        Word.satAdd linesBefore (1 + bs.count Location.lineFeed)) := by
  induction bs using List.reverseRecOn with
  | nil => rfl
  | append_singleton bs b ih =>
    rw [lastLine_concat, ih, List.reverse_append, List.reverse_singleton, List.singleton_append,
      List.length_append, List.length_singleton, List.count_append, List.count_singleton]
    by_cases hb : b = Location.lineFeed
    · subst hb
      rw [List.takeWhile_cons_of_neg (by simp), Word.satAdd_satAdd]
      simp [Nat.add_assoc]
    · rw [List.takeWhile_cons_of_pos (by simpa using hb), List.length_cons, Nat.add_sub_add_right]
      simp [hb]

theorem findIdx?_lineFeed (bs : List UInt8) :
    (bs.findIdx? (· == Location.lineFeed)).getD bs.length =
      (bs.takeWhile (· != Location.lineFeed)).length := by
  induction bs with
  | nil => rfl
  | cons b bs ih =>
    rw [List.findIdx?_cons]
    by_cases hb : b = Location.lineFeed
    · subst hb
      rfl
    · rw [List.takeWhile_cons_of_pos (by simpa using hb), List.length_cons, List.length_cons, ← ih,
        if_neg (by simpa using hb)]
      cases bs.findIdx? (· == Location.lineFeed) <;> rfl

theorem trimStop_eq {bytes line more : List UInt8} {start : Nat}
    (h : bytes.drop start = line ++ more) :
    trimStop bytes start (start + line.length) =
      .ok (start + (Location.trim line).length) := by
  rcases List.eq_nil_or_concat line with rfl | ⟨init, b, rfl⟩
  · exact if_neg (Nat.lt_irrefl start)
  · rw [List.concat_eq_append] at h ⊢
    have hget : get bytes (start + init.length) = .ok b := by
      apply get_eq_ok
      rw [← List.getElem?_drop, h, List.append_assoc, List.getElem?_append_right (Nat.le_refl _),
        Nat.sub_self]
      rfl
    have hlen : start + (init ++ [b]).length = start + init.length + 1 := by
      rw [List.length_append, List.length_singleton, Nat.add_assoc]
    rw [trimStop, if_pos (by omega), Word.sub_eq_ok (by omega), lift_ok, ok_bind, hlen,
      Nat.add_sub_cancel, hget, ok_bind, Location.trim, List.getLast?_concat]
    by_cases hb : b = Location.carriageReturn
    · rw [if_pos hb, if_pos (congrArg some hb), List.dropLast_concat]
      rfl
    · rw [if_neg hb, if_neg (fun e => hb (Option.some.inj e)), hlen]
      rfl

theorem lineStop_eq {bytes : List UInt8} {start : Nat} (h : start ≤ bytes.length) :
    lineStop bytes start = .ok (start +
      (Location.trim ((bytes.drop start).takeWhile (· != Location.lineFeed))).length) := by
  have hstop : (match (bytes.drop start).findIdx? (· == Location.lineFeed) with
      | some n => start + n
      | none => bytes.length) =
        start + ((bytes.drop start).takeWhile (· != Location.lineFeed)).length := by
    rw [← findIdx?_lineFeed, List.length_drop]
    cases (bytes.drop start).findIdx? (· == Location.lineFeed) with
    | some n => rfl
    | none => exact (Nat.add_sub_of_le h).symm
  rw [lineStop, slice_length h, ok_bind, hstop]
  exact trimStop_eq List.takeWhile_append_dropWhile.symm

theorem length_back_le (bytes : List UInt8) (offset : Nat) :
    ((bytes.take offset).reverse.takeWhile (· != Location.lineFeed)).length ≤ offset := by
  have hback := (List.takeWhile_prefix (l := (bytes.take offset).reverse)
    (· != Location.lineFeed)).length_le
  rw [List.length_reverse, List.length_take] at hback
  exact Nat.le_trans hback (Nat.min_le_left _ _)

theorem length_line_le (bytes : List UInt8) (start : Nat) :
    (Location.trim ((bytes.drop start).takeWhile (· != Location.lineFeed))).length ≤
      bytes.length - start := by
  have hforth := (List.takeWhile_prefix (l := bytes.drop start) (· != Location.lineFeed)).length_le
  rw [List.length_drop] at hforth
  exact Nat.le_trans (Location.length_trim_le _) hforth

/-- a line lies in the source, and so does the column that is looked up -/
theorem locate_bounds (bytes : List UInt8) (offset linesBefore : Nat) :
    let l := Location.locate bytes offset linesBefore
    l.lineStart + l.lineSize ≤ bytes.length ∧ l.column ≤ bytes.length := by
  have hback := length_back_le bytes (min offset bytes.length)
  dsimp only [Location.locate]
  generalize (List.takeWhile _ (bytes.take _).reverse).length = column at hback ⊢
  have hline := length_line_le bytes (min offset bytes.length - column)
  omega

theorem locate_eq {bytes : List UInt8} (h : bytes.length ≤ Word.maxWord)
    (offset linesBefore : Nat) :
    locate bytes offset linesBefore = .ok (Location.locate bytes offset linesBefore) := by
  obtain ⟨hline, hcolumn⟩ := locate_bounds bytes offset linesBefore
  have hback := length_back_le bytes (min offset bytes.length)
  have hoffset : min offset bytes.length ≤ bytes.length := Nat.min_le_right _ _
  have hlen : (bytes.take (min offset bytes.length)).length = min offset bytes.length := by
    rw [List.length_take, Nat.min_eq_left hoffset]
  rw [locate]
  dsimp only [Location.locate] at hline hcolumn ⊢
  rw [slice_zero hoffset, ok_bind, lastLine_eq, hlen]
  dsimp only
  generalize (List.takeWhile _ (bytes.take _).reverse).length = column at hback hline hcolumn ⊢
  generalize hstart : min offset bytes.length - column = start at hline ⊢
  have hsub : min offset bytes.length - start = column := by omega
  rw [lineStop_eq (by omega), ok_bind, Word.sub_eq_ok (Nat.le_add_right _ _), lift_ok, ok_bind,
    Word.sub_eq_ok (by omega), lift_ok, ok_bind, Nat.add_sub_cancel_left, hsub,
    toWord_of_le (by omega), toWord_of_le (by omega), toWord_of_le (by omega)]
  rfl

/-! ## look-ups by index -/

section
variable (x : Lexed)

/-- the token at an index; past the last one the end of the input, as far out as a word can say -/
def token (i : Nat) : Token := x.tokens[i]?.getD (.eof (toWord x.bytes.size))

def spanBytes (s : Span) : Checked (List UInt8) :=
  let stop := min s.stop x.bytes.size
  slice x.bytes.toList (min s.start stop) stop

def tokenBytes (i : Nat) : Checked (List UInt8) := do
  let span ← (token x i).spanChecked
  spanBytes x span

def tokenText (i : Nat) : Checked String := do
  let bytes ← tokenBytes x i
  return Utf8.decodeLossy bytes

def location (i : Nat) : Checked Location :=
  locate x.bytes.toList (token x i).start x.linesBefore

def lineText (l : Location) : Checked String := do
  let stop ← Word.add l.lineStart l.lineSize
  let bytes ← spanBytes x ⟨l.lineStart, stop⟩
  return Utf8.decodeLossy bytes

/-- no step of tokenizing a source, or of looking something up in it, fails -/
structure Reads : Prop where
  scan : Checked.scan x.words x.bytes.toList = .ok x.tokens.toList
  token : ∀ i, Checked.token x i = x.token i
  span : ∀ i, (x.token i).spanChecked = .ok (x.token i).span
  spanBytes : ∀ s, Checked.spanBytes x s = .ok (x.spanBytes s)
  tokenBytes : ∀ i, Checked.tokenBytes x i = .ok (x.tokenBytes i)
  tokenText : ∀ i, Checked.tokenText x i = .ok (x.tokenText i)
  location : ∀ i, Checked.location x i = .ok (x.location i)
  displayColumn : ∀ i, (x.location i).displayColumnChecked = .ok (x.location i).displayColumn
  lineText : ∀ i, Checked.lineText x (x.location i) = .ok (x.lineText (x.location i))

variable {x}

theorem location_bounds (i : Nat) :
    (x.location i).lineStart + (x.location i).lineSize ≤ x.bytes.size ∧
      (x.location i).column ≤ x.bytes.size := by
  have h := locate_bounds x.bytes.toList (x.token i).start x.linesBefore
  rwa [Array.length_toList] at h

theorem spanBytes_eq (s : Span) : spanBytes x s = .ok (x.spanBytes s) := by
  have hlen : x.bytes.toList.length = x.bytes.size := Array.length_toList
  have hstop : min s.stop x.bytes.size ≤ x.bytes.toList.length := by omega
  have htake : x.bytes.toList.take (min s.stop x.bytes.size) = x.bytes.toList.take s.stop :=
    List.take_eq_take_iff.mpr (by omega)
  rw [spanBytes, slice_eq_ok (Nat.min_le_right _ _) hstop, Lexed.spanBytes, Lexed.slice,
    Array.toList_extract, List.extract_eq_take_drop, List.extract_eq_take_drop, ← List.drop_take,
    ← List.drop_take, htake]
  exact congrArg Except.ok (List.drop_eq_drop_iff.mpr (by rw [List.length_take]; omega))

variable (hx : x.bytes.size < Word.maxWord)
include hx

theorem token_eq (i : Nat) : token x i = x.token i := by
  rw [token, toWord_of_le (Nat.le_of_lt hx)]
  rfl

theorem spanChecked_token (i : Nat) : (x.token i).spanChecked = .ok (x.token i).span :=
  Token.spanChecked_eq_ok (Nat.le_trans (x.stop_token_le i) (Nat.le_of_lt hx))

theorem tokenBytes_eq (i : Nat) : tokenBytes x i = .ok (x.tokenBytes i) := by
  rw [tokenBytes, token_eq hx, spanChecked_token hx, lift_ok, ok_bind, spanBytes_eq]
  rfl

theorem tokenText_eq (i : Nat) : tokenText x i = .ok (x.tokenText i) := by
  rw [tokenText, tokenBytes_eq hx]
  rfl

theorem location_eq (i : Nat) : location x i = .ok (x.location i) := by
  rw [location, token_eq hx]
  exact locate_eq (by rw [Array.length_toList]; exact Nat.le_of_lt hx) _ _

/-- a column is less than the largest word, so that it may be counted from one -/
theorem displayColumnChecked_location (i : Nat) :
    (x.location i).displayColumnChecked = .ok (x.location i).displayColumn :=
  Location.displayColumnChecked_eq_ok (Nat.lt_of_le_of_lt (location_bounds i).2 hx)

omit hx in
/-- one byte more in a line, and the last column could not be counted from one -/
example : (Location.mk 0 0 1 Word.maxWord).displayColumnChecked = .error .add := rfl

theorem lineText_location (i : Nat) :
    lineText x (x.location i) = .ok (x.lineText (x.location i)) := by
  have hstop := Nat.le_trans (location_bounds (x := x) i).1 (Nat.le_of_lt hx)
  rw [lineText, Word.add_eq_ok hstop, lift_ok, ok_bind, spanBytes_eq]
  rfl

theorem reads : Reads x where
  scan := by
    rw [x.tokens_eq]
    exact scan_eq (by rw [Array.length_toList]; exact Nat.le_of_lt hx)
  token := token_eq hx
  span := spanChecked_token hx
  spanBytes := spanBytes_eq
  tokenBytes := tokenBytes_eq hx
  tokenText := tokenText_eq hx
  location := location_eq hx
  displayColumn := displayColumnChecked_location hx
  lineText := lineText_location hx

end

end Checked

end Ebnf
