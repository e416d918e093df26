import Ebnf.Proofs.Checked.Source
import Ebnf.Proofs.Outcome

/-!
# A run makes no overflow

The matching of a grammar, with each sum and difference of words checked: the place after a token,
the last token of a range, the end of a subtree.  Lengths of the tree are turned into words as well.
None of this is ever the matter, as long as the tree is smaller than the largest word; where it
grows to that size, the checked run is given up.

* `rangeSpan`, `spell`          spans of tokens, texts spelled by them;
* `leaf`, `opened`, `closed`    the steps that build the tree;
* `attempt`, `run`, `conclude`, `parse`   the run and what it leads to;
* `Agrees`                      a checked attempt ends as the other one does, or is given up;
* `Agrees.bind`                 so do two attempts one behind the other, and all combinators;
* `agrees_attempt`              terms are matched so, with any bound on the attempts in each other;
* `run_cases`, `parse_eq`       and so is a start rule.
-/

namespace Ebnf.Checked

open Matching

/-! ## spans and texts -/

def rangeSpan (x : Lexed) (r : TokenRange) : Checked Span := do
  let first := token x r.start
  if r.stop ≤ r.start then return .point first.start
  else
    let last ← Word.sub r.stop 1
    let stop ← (token x last).stopChecked
    return ⟨first.start, stop⟩

/-- the index after the tokens, from `index` on, that spell `text` once `matched` bytes of it are
passed over, in at most so many rounds -/
def spellFrom (x : Lexed) (text : List UInt8) : (rounds matched index : Nat) → Checked (Option Nat)
  | 0, _, index => return some index
  | rounds + 1, matched, index => do
    if matched < text.length then
      let bytes ← tokenBytes x index
      if bytes.isEmpty then return none
      else
        let rest ← slice text matched text.length
        if bytes.isPrefixOf rest then
          let next ← Word.add index 1
          spellFrom x text rounds (matched + bytes.length) next
        else return none
    else return some index

/-- each round passes over a byte or more -/
def spell (x : Lexed) (index : Nat) (text : List UInt8) : Checked (Option Nat) :=
  spellFrom x text text.length 0 index

section
variable {x : Lexed} (hx : x.bytes.size < Word.maxWord)
include hx

theorem rangeSpan_eq (r : TokenRange) : rangeSpan x r = .ok (x.rangeSpan r) := by
  rw [rangeSpan, Lexed.rangeSpan, token_eq hx]
  by_cases h : r.stop ≤ r.start
  · rw [if_pos h, if_pos h]
    rfl
  · have hstop : (x.token (r.stop - 1)).stop ≤ Word.maxWord :=
      Nat.le_trans (x.stop_token_le _) (Nat.le_of_lt hx)
    rw [if_neg h, if_neg h, Word.sub_eq_ok (by omega), lift_ok, ok_bind, token_eq hx,
      Token.stopChecked_eq_ok hstop]
    rfl

theorem spellFrom_eq {text : List UInt8} {rounds matched index : Nat}
    (hr : text.length ≤ matched + rounds) :
    spellFrom x text rounds matched index = .ok (x.spell index (text.drop matched)) := by
  induction rounds generalizing matched index with
  | zero =>
    rw [List.drop_eq_nil_of_le (show text.length ≤ matched from hr)]
    rfl
  | succ rounds ih =>
    rw [spellFrom]
    by_cases hlt : matched < text.length
    · have hne : text.drop matched ≠ [] := by
        rw [List.ne_nil_iff_length_pos, List.length_drop]
        omega
      rw [if_pos hlt, tokenBytes_eq hx, ok_bind, x.spell_of_ne_nil hne]
      cases he : (x.tokenBytes index).isEmpty with
      | true => rfl
      | false =>
        have hbytes : x.tokenBytes index ≠ [] := List.isEmpty_eq_false_iff.mp he
        have hindex := x.tokenBytes_ne_nil.mp hbytes
        have hlen := List.length_pos_iff.mpr hbytes
        rw [slice_length (Nat.le_of_lt hlt), if_neg Bool.false_ne_true, ok_bind]
        cases (x.tokenBytes index).isPrefixOf (text.drop matched) with
        | false => rfl
        | true =>
          have hsize := x.size_le
          rw [if_pos rfl, Word.add_eq_ok (by omega), lift_ok, ok_bind, ih (by omega),
            List.drop_drop]
          rfl
    · rw [if_neg hlt, List.drop_eq_nil_of_le (Nat.le_of_not_lt hlt)]
      rfl

theorem spell_eq (index : Nat) (text : List UInt8) :
    spell x index text = .ok (x.spell index text) :=
  spellFrom_eq hx (Nat.le_add_left _ _)

end

/-! ## steps that build the tree -/

/-- the run goes on only with a tree that is smaller than the largest word -/
def room (s : State) : Checked State :=
  if s.tree.size < Word.maxWord then .ok s else .error .full

def mark (s : State) : Mark := ⟨s.pos, toWord s.tree.size⟩

def leaf (s : State) (kind : Tree.Kind) (term : TermId) (stop : Nat) (span : Span) :
    Checked State := do
  let id := toWord s.tree.size
  let next ← Word.add id 1
  let node : Tree.Node := ⟨kind, some term, some s.parent, ⟨s.pos, stop⟩, span, some next⟩
  let nodes := s.tree.size + 1
  room { s with
    pos := stop
    tree := ⟨s.tree.nodes.push node⟩
    peak := { s.peak with pos := max s.peak.pos stop, nodes := max s.peak.nodes nodes } }

def opened (s : State) (rule : RuleId) (term : Option TermId) (parent : Option NodeId) :
    Checked State :=
  let nodes := s.tree.size + 1
  room { s with
    tree := s.tree.openNode rule term parent s.pos
    parent := toWord s.tree.size
    peak := { s.peak with nodes := max s.peak.nodes nodes } }

def closed (c : Setting) (s : State) (id : NodeId) (start : Nat) : Checked State := do
  let span ← rangeSpan c.source ⟨start, s.pos⟩
  let stop := toWord s.tree.size
  return { s with tree := ⟨s.tree.nodes.modify id fun n => n.closed s.pos span stop⟩ }

def matchToken (c : Setting) (term : TermId) (mask : Mask) (s : State) : Checked Attempt := do
  let t := token c.source s.pos
  if t.mask.isEof then return if mask.isEof then .matched s else miss s term
  else if t.is mask then
    let stop ← Word.add s.pos 1
    let span ← t.spanChecked
    let s' ← leaf s (.token t.mask) term stop span
    return .matched s'
  else return miss s term

def matchLiteral (c : Setting) (term : TermId) (text : String) (s : State) : Checked Attempt := do
  match ← spell c.source s.pos (Utf8.encode text) with
  | some stop =>
    let span ← rangeSpan c.source ⟨s.pos, stop⟩
    let s' ← leaf s .literal term stop span
    return .matched s'
  | none => return miss s term

/-! ## combinators -/

def atomic (check : State → Checked Attempt) (s : State) : Checked Attempt := do
  let m := mark s
  match ← check s with
  | .matched s' => return .matched s'
  | .stopped why s' => return .stopped why (s'.reset m)

def inOrder (check : TermId → State → Checked Attempt) : List TermId → State → Checked Attempt
  | [], s => return .matched s
  | t :: ts, s => do
    match ← check t s with
    | .matched s' => inOrder check ts s'
    | .stopped why s' => return .stopped why s'

def firstOf (check : TermId → State → Checked Attempt) : List TermId → State → Checked Attempt
  | [], s => return .stopped .mismatch s
  | t :: ts, s => do
    match ← check t s with
    | .matched s' => return .matched s'
    | .stopped .mismatch s' => firstOf check ts s'
    | .stopped why s' => return .stopped why s'

def optional (check : State → Checked Attempt) (s : State) : Checked Attempt := do
  match ← check s with
  | .matched s' => return .matched s'
  | .stopped .mismatch s' => return .matched s'
  | .stopped why s' => return .stopped why s'

def more (check : State → Checked Attempt) (term : TermId) :
    (rounds start : Nat) → State → Checked Attempt
  | 0, _, s => return .stopped .endless s
  | rounds + 1, start, s => do
    let here := s.pos
    if start < s.pos then
      match ← check s with
      | .matched s' => more check term rounds here s'
      | .stopped .mismatch s' => return .matched s'
      | .stopped why s' => return .stopped why s'
    else return .matched (s.say (.idleRepetition term here))

def oneOrMore (check : State → Checked Attempt) (term : TermId) (rounds : Nat) (s : State) :
    Checked Attempt := do
  let here := s.pos
  match ← check s with
  | .matched s' => more check term rounds here s'
  | .stopped why s' => return .stopped why s'

def occurring (o : Occurrence) (check : State → Checked Attempt) (term : TermId) (rounds : Nat) :
    State → Checked Attempt :=
  let check := if o.isRepeated then oneOrMore check term rounds else check
  if o.isOptional then optional check else check

def nested (c : Setting) (check : State → Checked Attempt) (s : State) : Checked Attempt := do
  let depth := s.depth
  let here := s.pos
  if c.maxDepth ≤ depth then return .stopped .limit (s.say (.limitReached depth here))
  else
    let r ← check s.deeper
    return r.map fun s => s.withDepth depth

/-! ## terms and rules -/

def body (c : Setting) (check : TermId → State → Checked Attempt) (term : TermId) (rule : RuleId)
    (s : State) : Checked Attempt :=
  match c.grammar.node? rule with
  | some (.rule name (some production)) => do
    let outer := s.rule
    let here := s.pos
    let name := c.grammar.text name
    let r ← check production ((s.say (.enterRule name here)).withRule rule)
    return r.map fun s => s.withRule outer
  | some (.rule name none) => return miss (s.say (.noProduction (c.grammar.text name))) term
  | _ => return miss (s.say (.notARule rule)) term

def leave (c : Setting) (m : Mark) (outer : NodeId) : Attempt → Checked Attempt
  | .matched s => do
    let s' ← closed c (s.withParent outer) m.nodes m.pos
    return .matched s'
  | .stopped why s => return .stopped why (s.withParent outer)

def underRule (c : Setting) (check : TermId → State → Checked Attempt) (term : TermId)
    (rule : RuleId) (s : State) : Checked Attempt := do
  let m := mark s
  let s' ← opened s rule (some term) (some s.parent)
  let r ← body c check term rule s'
  leave c m s.parent r

def once (c : Setting) (check : TermId → State → Checked Attempt) (term : TermId) :
    Grammar.Node → State → Checked Attempt
  | .rule _ _, s => return miss (s.say (.ruleAsTerm term)) term
  | .reference target _, s => nested c (underRule c check term target) s
  | .token mask _, s => matchToken c term mask s
  | .literal text _, s => matchLiteral c term (c.grammar.text text) s
  | .alternation ts, s => firstOf check ts s
  | .concatenation ts, s => inOrder check ts s
  | .group ts _, s => nested c (inOrder check ts) s

def attempt (c : Setting) : (height : Nat) → TermId → State → Checked Attempt
  | 0, _, s => return .stopped .endless s
  | height + 1, term, s =>
    match c.grammar.node? term with
    | none => return miss (s.say (.missingTerm term)) term
    | some n =>
      occurring n.occurrence (atomic (once c (attempt c height) term n)) term (rounds c) s

/-- match the production of `start` below the root, with at most so many attempts in each other -/
def run (c : Setting) (height : Nat) (start : RuleId) (log : Array Event) : Checked Attempt := do
  let s ← opened { rule := start, log } start none none
  body c (attempt c height) start start s

def conclude (c : Setting) : Attempt → Checked (Verdict × Tree)
  | .matched s => do
    let total := toWord c.source.size
    if s.pos = total then
      let s' ← closed c s Tree.rootId 0
      return (.accepted Tree.rootId, s'.tree)
    else return (.rejected ⟨.trailingInput s.pos total, s.pos, s.failure⟩, {})
  | .stopped why s => return Parser.conclude c (.stopped why s)

def parse (p : Parser) (start : RuleId) : Checked (Parser × Verdict) := do
  let c := p.setting
  let r ← run c (height c) start (p.begun start)
  let (verdict, tree) ← conclude c r
  let s := r.state
  let log := Parser.ended verdict s.log
  return ({ p with tree, failure := s.failure, log, peak := s.peak }, verdict)

/-! ## agreement -/

def Small (s : State) : Prop := s.tree.size < Word.maxWord

/-- begun in `s`, the checked attempt `k` ends as `r` does; or it is given up, and `r` has had too
large a tree -/
structure Agrees (s : State) (k : Checked Attempt) (r : Attempt) : Prop where
  grows : s.peak.nodes ≤ r.state.peak.nodes
  ends : Small s → (k = .ok r ∧ Small r.state) ∨
    (k = .error .full ∧ Word.maxWord ≤ r.state.peak.nodes)

section
variable {s s' : State} {k : Checked Attempt} {f : Attempt → Checked Attempt} {r r' : Attempt}

theorem Agrees.no_larger (hp : r.state.peak.nodes = s.peak.nodes)
    (ht : r.state.tree.size ≤ s.tree.size) : Agrees s (.ok r) r where
  grows := Nat.le_of_eq hp.symm
  ends hs := .inl ⟨rfl, Nat.lt_of_le_of_lt ht hs⟩

theorem Agrees.same (hp : r.state.peak.nodes = s.peak.nodes) (ht : r.state.tree.size = s.tree.size) :
    Agrees s (.ok r) r := .no_larger hp (Nat.le_of_eq ht)

/-- what the checked attempt does with the size of a tree counts only where that is a word -/
theorem Agrees.of_small (hg : s.peak.nodes ≤ r.state.peak.nodes) (h : Small s → Agrees s k r) :
    Agrees s k r :=
  ⟨hg, fun hs => (h hs).ends hs⟩

theorem Agrees.of_state (h : Agrees s' k r) (hp : s'.peak.nodes = s.peak.nodes)
    (ht : s'.tree = s.tree) : Agrees s k r where
  grows := hp ▸ h.grows
  ends hs := h.ends (by rwa [Small, ht])

theorem Agrees.bind (h : Agrees s k r) (hf : Agrees r.state (f r) r') : Agrees s (k >>= f) r' where
  grows := Nat.le_trans h.grows hf.grows
  ends hs := by
    rcases h.ends hs with ⟨rfl, hs'⟩ | ⟨rfl, hn⟩
    · exact hf.ends hs'
    · exact .inr ⟨rfl, Nat.le_trans hn hf.grows⟩

theorem Agrees.map (h : Agrees s k r) {g : State → State}
    (hp : ∀ s, (g s).peak.nodes = s.peak.nodes) (ht : ∀ s, (g s).tree = s.tree) :
    Agrees s (do let r ← k; return r.map g) (r.map g) := by
  refine h.bind (.same ?_ ?_) <;> rw [Attempt.state_map]
  · exact hp _
  · rw [ht]

/-- where a tree is given up, the largest tree so far is no smaller -/
theorem Agrees.room {f : State → Checked Attempt} (hp : s.peak.nodes ≤ s'.peak.nodes)
    (ht : s'.tree.size ≤ s'.peak.nodes) (hf : Agrees s' (f s') r) :
    Agrees s (Checked.room s' >>= f) r where
  grows := Nat.le_trans hp hf.grows
  ends _ := by
    unfold Checked.room
    by_cases hs' : s'.tree.size < Word.maxWord
    · rw [if_pos hs']
      exact hf.ends hs'
    · -- given up here; the other attempt goes on, but its peak does not sink again
      rw [if_neg hs']
      exact .inr ⟨rfl, Nat.le_trans (Nat.le_of_not_lt hs') (Nat.le_trans ht hf.grows)⟩

end

/-! ## leaves and nodes of rules agree -/

section
variable {c : Setting} {s : State} {kind : Tree.Kind} {t : TermId} {stop : Nat} {span : Span}

theorem toWord_size (hs : Small s) : toWord s.tree.size = s.tree.size :=
  toWord_of_le (Nat.le_of_lt hs)

theorem mark_eq (hs : Small s) : mark s = s.mark := by
  rw [mark, toWord_size hs]
  rfl

theorem leaf_eq (hs : Small s) : leaf s kind t stop span = room (s.leaf kind t stop span) := by
  rw [leaf, toWord_size hs, Word.add_eq_ok hs]
  rfl

theorem opened_eq (hs : Small s) (rule : RuleId) (term : Option TermId) (parent : Option NodeId) :
    opened s rule term parent = room (s.opened rule term parent) := by
  rw [opened, toWord_size hs]
  rfl

theorem agrees_miss (s : State) (t : TermId) : Agrees s (.ok (miss s t)) (miss s t) := .same rfl rfl

theorem agrees_leaf :
    Agrees s (do let s' ← leaf s kind t stop span; return .matched s')
      (.matched (s.leaf kind t stop span)) := by
  refine .of_small (Nat.le_max_left _ _) fun hs => ?_
  rw [leaf_eq hs]
  refine .room (Nat.le_max_left _ _) ?_ (.same rfl rfl)
  show (s.tree.pushLeaf ..).size ≤ _
  rw [Tree.size_pushLeaf]
  exact Nat.le_max_right _ _

theorem agrees_opened {rule : RuleId} {term : Option TermId} {parent : Option NodeId}
    {f : State → Checked Attempt} {r : Attempt}
    (hf : Agrees (s.opened rule term parent) (f (s.opened rule term parent)) r) :
    Agrees s (opened s rule term parent >>= f) r := by
  have hp : s.peak.nodes ≤ (s.opened rule term parent).peak.nodes := Nat.le_max_left _ _
  refine .of_small (Nat.le_trans hp hf.grows) fun hs => ?_
  rw [opened_eq hs]
  refine .room hp ?_ hf
  show (s.tree.openNode ..).size ≤ _
  rw [Tree.size_openNode]
  exact Nat.le_max_right _ _

variable (hx : c.source.bytes.size < Word.maxWord)
include hx

theorem closed_eq (hs : Small s) (id : NodeId) (start : Nat) :
    closed c s id start = .ok (s.closed c id start) := by
  rw [closed, rangeSpan_eq hx, toWord_size hs]
  rfl

theorem agrees_matchToken (t : TermId) (m : Mask) (s : State) :
    Agrees s (matchToken c t m s) (Matching.token c t m s) := by
  unfold matchToken Matching.token
  rw [token_eq hx]
  dsimp only
  split
  · split
    · exact .same rfl rfl
    · exact agrees_miss s t
  · rename_i heof
    have hpos : s.pos < c.source.size :=
      Nat.lt_of_not_le fun hle => heof (c.source.isEof_token.mpr hle)
    have hsize := c.source.size_le
    split
    · rw [Word.add_eq_ok (by omega), spanChecked_token hx, lift_ok, lift_ok, ok_bind, ok_bind]
      exact agrees_leaf
    · exact agrees_miss s t

theorem agrees_matchLiteral (t : TermId) (text : String) (s : State) :
    Agrees s (matchLiteral c t text s) (Matching.literal c t text s) := by
  unfold matchLiteral Matching.literal
  rw [spell_eq hx, ok_bind]
  cases c.source.spell s.pos (Utf8.encode text) with
  | none => exact agrees_miss s t
  | some stop =>
    dsimp only
    rw [rangeSpan_eq hx, ok_bind]
    exact agrees_leaf

theorem agrees_leave (m : Mark) (outer : NodeId) (r : Attempt) :
    Agrees r.state (leave c m outer r) (Matching.leave c m outer r) := by
  cases r with
  | stopped why s => exact .same rfl rfl
  | matched s =>
    refine .of_small (Nat.le_refl _) fun hs => ?_
    have hs' : Small (s.withParent outer) := hs
    rw [leave, closed_eq hx hs', ok_bind]
    exact .same rfl (Tree.size_closeNode ..)

end

/-! ## combinators agree -/

section
variable {check : State → Checked Attempt} {run : State → Attempt}
  {checks : TermId → State → Checked Attempt} {runs : TermId → State → Attempt}

theorem agrees_inOrder (H : ∀ t s, Agrees s (checks t s) (runs t s)) (ts : List TermId) (s : State) :
    Agrees s (inOrder checks ts s) (Matching.inOrder runs ts s) := by
  induction ts generalizing s with
  | nil => exact .same rfl rfl
  | cons t ts ih =>
    have h := H t s
    rw [inOrder, Matching.inOrder]
    generalize runs t s = r at h ⊢
    refine h.bind ?_
    cases r with
    | matched s' => exact ih s'
    | stopped why s' => exact .same rfl rfl

theorem agrees_firstOf (H : ∀ t s, Agrees s (checks t s) (runs t s)) (ts : List TermId) (s : State) :
    Agrees s (firstOf checks ts s) (Matching.firstOf runs ts s) := by
  induction ts generalizing s with
  | nil => exact .same rfl rfl
  | cons t ts ih =>
    have h := H t s
    rw [firstOf, Matching.firstOf]
    generalize runs t s = r at h ⊢
    refine h.bind ?_
    cases r with
    | matched s' => exact .same rfl rfl
    | stopped why s' =>
      cases why with
      | mismatch => exact ih s'
      | limit => exact .same rfl rfl
      | endless => exact .same rfl rfl

variable (H : ∀ s, Agrees s (check s) (run s))
include H

theorem agrees_atomic (s : State) : Agrees s (atomic check s) (Matching.atomic run s) := by
  have h := H s
  unfold atomic Matching.atomic
  generalize run s = r at h ⊢
  refine .of_small ?_ fun hs => ?_
  · cases r <;> exact h.grows
  · rw [mark_eq hs]
    refine h.bind ?_
    cases r with
    | matched s' => exact .same rfl rfl
    | stopped why s' =>
      refine .no_larger rfl ?_
      show (s'.tree.truncate _).size ≤ _
      rw [Tree.size_truncate]
      exact Nat.min_le_right _ _

theorem agrees_optional (s : State) : Agrees s (optional check s) (Matching.optional run s) := by
  have h := H s
  unfold optional Matching.optional
  generalize run s = r at h ⊢
  refine h.bind ?_
  cases r with
  | matched s' => exact .same rfl rfl
  | stopped why s' => cases why <;> exact .same rfl rfl

theorem agrees_more (t : TermId) (rounds start : Nat) (s : State) :
    Agrees s (more check t rounds start s) (Matching.more run t rounds start s) := by
  induction rounds generalizing start s with
  | zero => exact .same rfl rfl
  | succ rounds ih =>
    have h := H s
    rw [more, Matching.more]
    dsimp only
    by_cases hlt : start < s.pos
    · rw [if_pos hlt, if_pos hlt]
      generalize run s = r at h ⊢
      refine h.bind ?_
      cases r with
      | matched s' => exact ih s.pos s'
      | stopped why s' => cases why <;> exact .same rfl rfl
    · rw [if_neg hlt, if_neg hlt]
      exact .same rfl rfl

theorem agrees_oneOrMore (t : TermId) (rounds : Nat) (s : State) :
    Agrees s (oneOrMore check t rounds s) (Matching.oneOrMore run t rounds s) := by
  have h := H s
  unfold oneOrMore Matching.oneOrMore
  generalize run s = r at h ⊢
  refine h.bind ?_
  cases r with
  | matched s' => exact agrees_more H t rounds s.pos s'
  | stopped why s' => exact .same rfl rfl

theorem agrees_occurring (o : Occurrence) (t : TermId) (rounds : Nat) (s : State) :
    Agrees s (occurring o check t rounds s) (Matching.occurring o run t rounds s) := by
  have hall : ∀ s, Agrees s ((if o.isRepeated then oneOrMore check t rounds else check) s)
      ((if o.isRepeated then Matching.oneOrMore run t rounds else run) s) := by
    cases o.isRepeated with
    | false => exact H
    | true => exact agrees_oneOrMore H t rounds
  unfold occurring Matching.occurring
  cases o.isOptional with
  | false => exact hall s
  | true => exact agrees_optional hall s

theorem agrees_nested (c : Setting) (s : State) :
    Agrees s (nested c check s) (Matching.nested c run s) := by
  by_cases hd : c.maxDepth ≤ s.depth
  · rw [nested_of_le hd]
    unfold nested
    rw [if_pos hd]
    exact .same rfl rfl
  · rw [nested_of_lt (Nat.lt_of_not_le hd)]
    unfold nested
    rw [if_neg hd]
    have h := (H s.deeper).map (g := fun s' => s'.withDepth s.depth) (fun _ => rfl) (fun _ => rfl)
    exact h.of_state rfl rfl

end

/-! ## terms and rules agree -/

section
variable {c : Setting} (hx : c.source.bytes.size < Word.maxWord)
  {checks : TermId → State → Checked Attempt} {runs : TermId → State → Attempt}
  (H : ∀ t s, Agrees s (checks t s) (runs t s))

include H in
theorem agrees_body (t : TermId) (rule : RuleId) (s : State) :
    Agrees s (body c checks t rule s) (Matching.body c runs t rule s) := by
  unfold body Matching.body
  cases c.grammar.node? rule with
  | none => exact .same rfl rfl
  | some n =>
    cases n with
    | rule name production =>
      cases production with
      | none => exact .same rfl rfl
      | some production =>
        have h := (H production
          ((s.say (.enterRule (c.grammar.text name) s.pos)).withRule rule)).map
            (g := fun s' => s'.withRule s.rule) (fun _ => rfl) (fun _ => rfl)
        exact h.of_state rfl rfl
    | _ => exact .same rfl rfl

include hx H

theorem agrees_underRule (t : TermId) (rule : RuleId) (s : State) :
    Agrees s (underRule c checks t rule s) (Matching.underRule c runs t rule s) := by
  have hbody := agrees_body (c := c) H t rule (s.opened rule (some t) (some s.parent))
  have hall := hbody.bind (agrees_leave hx s.mark s.parent _)
  -- the mark is taken before the node is opened, while the tree is still small
  refine .of_small (Nat.le_trans (Nat.le_max_left _ _) hall.grows) fun hs => ?_
  rw [underRule, mark_eq hs]
  exact agrees_opened hall

theorem agrees_once (t : TermId) (n : Grammar.Node) (s : State) :
    Agrees s (once c checks t n s) (Matching.once c runs t n s) := by
  cases n with
  | rule => exact .same rfl rfl
  | reference target => exact agrees_nested (agrees_underRule hx H t target) c s
  | token mask => exact agrees_matchToken hx t mask s
  | literal text => exact agrees_matchLiteral hx t (c.grammar.text text) s
  | alternation ts => exact agrees_firstOf H ts s
  | concatenation ts => exact agrees_inOrder H ts s
  | group ts => exact agrees_nested (agrees_inOrder H ts) c s

end

section
variable {c : Setting} (hx : c.source.bytes.size < Word.maxWord)
include hx

/-- a term is matched without a fault, whatever the bound on attempts in each other -/
theorem agrees_attempt (height : Nat) (t : TermId) (s : State) :
    Agrees s (attempt c height t s) (Matching.attempt c height t s) := by
  induction height generalizing t s with
  | zero => exact .same rfl rfl
  | succ height ih =>
    rw [attempt, attempt_succ]
    cases c.grammar.node? t with
    | none => exact .same rfl rfl
    | some n => exact agrees_occurring (agrees_atomic (agrees_once hx ih t n)) _ t _ s

/-- a start rule is matched without a fault; only a tree that gets too large ends the checked run -/
theorem run_cases (height : Nat) (start : RuleId) (log : Array Event) :
    let r := Matching.body c (Matching.attempt c height) start start (.first start log)
    (run c height start log = .ok r ∧ Small r.state) ∨
      (run c height start log = .error .full ∧ Word.maxWord ≤ r.state.peak.nodes) := by
  have h : Agrees { rule := start, log } (run c height start log)
      (Matching.body c (Matching.attempt c height) start start (.first start log)) :=
    agrees_opened (agrees_body (agrees_attempt hx height) start start _)
  have hempty : Small { rule := start, log } := by
    show 0 < Word.maxWord
    decide
  exact h.ends hempty

theorem conclude_eq {r : Attempt} (hr : Small r.state) :
    conclude c r = .ok (Parser.conclude c r) := by
  cases r with
  | stopped why s => rfl
  | matched s =>
    have hs : Small s := hr
    have hsize := c.source.size_le
    rw [conclude, toWord_of_le (by omega)]
    by_cases he : s.pos = c.source.size
    · rw [if_pos he, closed_eq hx hs, Parser.conclude_of_eq he]
      rfl
    · rw [if_neg he, Parser.conclude_of_ne he]
      rfl

end

section
variable {p : Parser} (hx : p.source.bytes.size < Word.maxWord) {start : RuleId}
  (hn : (p.parse start).1.peak.nodes < Word.maxWord)
include hx hn

theorem run_eq : run p.setting (height p.setting) start (p.begun start) = .ok (p.outcome start) ∧
    Small (p.outcome start).state := by
  rcases run_cases (c := p.setting) hx (height p.setting) start (p.begun start) with h | ⟨_, hfull⟩
  · exact h
  · exact absurd hn (Nat.not_lt_of_le hfull)

/-- a parse makes no overflow, as long as source and tree are smaller than the largest word -/
theorem parse_eq : parse p start = .ok (p.parse start) := by
  obtain ⟨hrun, hsmall⟩ := run_eq hx hn
  have hconclude := conclude_eq (c := p.setting) hx hsmall
  rw [parse]
  dsimp only
  rw [hrun, ok_bind, hconclude]
  rfl

end

end Ebnf.Checked
