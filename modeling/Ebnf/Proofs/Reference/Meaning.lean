import Ebnf.Grammar.Basic
import Ebnf.Proofs.Source.Spelling

/-!
# What a grammar means

The meaning of a term at a place of a source: it fails there, or it ends at a later place, or it has
no outcome because its references go round.  Nothing is built, undone, counted or limited here.

* `Outcome`        how a term ends;
* `tokenAt`        one token of one of the categories;
* `literalAt`      a run of whole tokens that covers a text;
* `Phrase`         what has a meaning: a term, and what terms are made of;
* `Means`          a phrase has an outcome at a place;
* `Means.unique`   and no other one.
-/

namespace Ebnf.Reference

inductive Outcome where
  | fails
  /-- the term matches up to `stop` -/
  | ends (stop : Nat)
deriving DecidableEq

/-- one token of one of the categories of `m`; nothing at the end of the input, if `m` has that -/
def tokenAt (x : Lexed) (m : Mask) (i : Nat) : Outcome :=
  match x.tokens[i]? with
  | some t => if t.is m then .ends (i + 1) else .fails
  | none => if m.isEof then .ends i else .fails

/-- whole tokens whose bytes are `bs` -/
def literalAt (x : Lexed) (bs : List UInt8) (i : Nat) : Outcome :=
  match (List.range' i (x.size + 1 - i)).find? fun j => x.covered i j == bs with
  | some j => .ends j
  | none => .fails

inductive Phrase where
  /-- a term, as often as it may occur -/
  | term (t : TermId)
  /-- one match, and as many more as follow if the node may be repeated -/
  | rounds (n : Grammar.Node)
  /-- the rounds after one that began at `start` -/
  | more (n : Grammar.Node) (start : Nat)
  | once (n : Grammar.Node)
  | inOrder (ts : List TermId)
  | firstOf (ts : List TermId)
  /-- the production of a rule -/
  | rule (id : RuleId)

/-- at the place `i`, the phrase has the outcome `o` -/
inductive Means (x : Lexed) (g : Grammar) : Phrase → (i : Nat) → (o : Outcome) → Prop where
  | missing {t i} (hn : g.node? t = none) : Means x g (.term t) i .fails
  | matched {t n i j} (hn : g.node? t = some n) (h : Means x g (.rounds n) i (.ends j)) :
      Means x g (.term t) i (.ends j)
  | failed {t n i} (hn : g.node? t = some n) (ho : n.occurrence.isOptional = false)
      (h : Means x g (.rounds n) i .fails) : Means x g (.term t) i .fails
  | skipped {t n i} (hn : g.node? t = some n) (ho : n.occurrence.isOptional = true)
      (h : Means x g (.rounds n) i .fails) : Means x g (.term t) i (.ends i)
  | noneAtAll {n i} (h : Means x g (.once n) i .fails) : Means x g (.rounds n) i .fails
  | justOne {n i j} (hn : n.occurrence.isRepeated = false) (h : Means x g (.once n) i (.ends j)) :
      Means x g (.rounds n) i (.ends j)
  | oneAndMore {n i j o} (hn : n.occurrence.isRepeated = true)
      (h : Means x g (.once n) i (.ends j)) (hm : Means x g (.more n i) j o) :
      Means x g (.rounds n) i o
  | idle {n start i} (hi : i ≤ start) : Means x g (.more n start) i (.ends i)
  | enough {n start i} (hi : start < i) (h : Means x g (.once n) i .fails) :
      Means x g (.more n start) i (.ends i)
  | another {n start i j o} (hi : start < i) (h : Means x g (.once n) i (.ends j))
      (hm : Means x g (.more n i) j o) : Means x g (.more n start) i o
  | ruleAsTerm {name production i} : Means x g (.once (.rule name production)) i .fails
  | reference {target occ i o} (h : Means x g (.rule target) i o) :
      Means x g (.once (.reference target occ)) i o
  | token {m occ i} : Means x g (.once (.token m occ)) i (tokenAt x m i)
  | literal {s occ i} :
      Means x g (.once (.literal s occ)) i (literalAt x (Utf8.encode (g.text s)) i)
  | alternation {ts i o} (h : Means x g (.firstOf ts) i o) : Means x g (.once (.alternation ts)) i o
  | concatenation {ts i o} (h : Means x g (.inOrder ts) i o) :
      Means x g (.once (.concatenation ts)) i o
  | group {ts occ i o} (h : Means x g (.inOrder ts) i o) : Means x g (.once (.group ts occ)) i o
  | allDone {i} : Means x g (.inOrder []) i (.ends i)
  | nextOne {t ts i j o} (h : Means x g (.term t) i (.ends j)) (hr : Means x g (.inOrder ts) j o) :
      Means x g (.inOrder (t :: ts)) i o
  | broken {t ts i} (h : Means x g (.term t) i .fails) : Means x g (.inOrder (t :: ts)) i .fails
  | noneLeft {i} : Means x g (.firstOf []) i .fails
  | chosen {t ts i j} (h : Means x g (.term t) i (.ends j)) :
      Means x g (.firstOf (t :: ts)) i (.ends j)
  | otherwise {t ts i o} (h : Means x g (.term t) i .fails) (hr : Means x g (.firstOf ts) i o) :
      Means x g (.firstOf (t :: ts)) i o
  | production {id p i o} (hp : g.production? id = some p) (h : Means x g (.term p) i o) :
      Means x g (.rule id) i o
  | noProduction {id i} (hp : g.production? id = none) : Means x g (.rule id) i .fails

theorem Means.unique {x : Lexed} {g : Grammar} {p : Phrase} {i : Nat} {o o' : Outcome}
    (h : Means x g p i o) (h' : Means x g p i o') : o = o' := by
  induction h generalizing o' with
  | missing hn =>
    cases h' with
    | missing => rfl
    | matched hn' => cases hn.symm.trans hn'
    | failed => rfl
    | skipped hn' => cases hn.symm.trans hn'
  | matched hn _ ih =>
    cases h' with
    | missing hn' => cases hn.symm.trans hn'
    | matched hn' h' =>
      obtain rfl := Option.some.inj (hn.symm.trans hn')
      exact ih h'
    | failed hn' _ h' =>
      obtain rfl := Option.some.inj (hn.symm.trans hn')
      cases ih h'
    | skipped hn' _ h' =>
      obtain rfl := Option.some.inj (hn.symm.trans hn')
      cases ih h'
  | failed hn ho _ ih =>
    cases h' with
    | missing => rfl
    | matched hn' h' =>
      obtain rfl := Option.some.inj (hn.symm.trans hn')
      cases ih h'
    | failed => rfl
    | skipped hn' ho' =>
      obtain rfl := Option.some.inj (hn.symm.trans hn')
      cases ho.symm.trans ho'
  | skipped hn ho _ ih =>
    cases h' with
    | missing hn' => cases hn.symm.trans hn'
    | matched hn' h' =>
      obtain rfl := Option.some.inj (hn.symm.trans hn')
      cases ih h'
    | failed hn' ho' =>
      obtain rfl := Option.some.inj (hn.symm.trans hn')
      cases ho.symm.trans ho'
    | skipped => rfl
  | noneAtAll _ ih =>
    cases h' with
    | noneAtAll => rfl
    | justOne _ h' => cases ih h'
    | oneAndMore _ h' => cases ih h'
  | justOne hn _ ih =>
    cases h' with
    | noneAtAll h' => cases ih h'
    | justOne _ h' => exact ih h'
    | oneAndMore hn' => cases hn.symm.trans hn'
  | oneAndMore hn _ _ ih ihm =>
    cases h' with
    | noneAtAll h' => cases ih h'
    | justOne hn' => cases hn.symm.trans hn'
    | oneAndMore _ h' hm =>
      obtain rfl := Outcome.ends.inj (ih h')
      exact ihm hm
  | idle hi =>
    cases h' with
    | idle => rfl
    | enough => rfl
    | another hi' => exact absurd hi' (Nat.not_lt_of_le hi)
  | enough hi _ ih =>
    cases h' with
    | idle => rfl
    | enough => rfl
    | another _ h' => cases ih h'
  | another hi _ _ ih ihm =>
    cases h' with
    | idle hi' => exact absurd hi (Nat.not_lt_of_le hi')
    | enough _ h' => cases ih h'
    | another _ h' hm =>
      obtain rfl := Outcome.ends.inj (ih h')
      exact ihm hm
  | ruleAsTerm =>
    cases h'
    rfl
  | reference _ ih =>
    cases h' with
    | reference h' => exact ih h'
  | token =>
    cases h'
    rfl
  | literal =>
    cases h'
    rfl
  | alternation _ ih =>
    cases h' with
    | alternation h' => exact ih h'
  | concatenation _ ih =>
    cases h' with
    | concatenation h' => exact ih h'
  | group _ ih =>
    cases h' with
    | group h' => exact ih h'
  | allDone =>
    cases h'
    rfl
  | nextOne _ _ ih ihr =>
    cases h' with
    | nextOne h' hr =>
      obtain rfl := Outcome.ends.inj (ih h')
      exact ihr hr
    | broken h' => cases ih h'
  | broken _ ih =>
    cases h' with
    | nextOne h' => cases ih h'
    | broken => rfl
  | noneLeft =>
    cases h'
    rfl
  | chosen _ ih =>
    cases h' with
    | chosen h' => exact ih h'
    | otherwise h' => cases ih h'
  | otherwise _ _ ih ihr =>
    cases h' with
    | chosen h' => cases ih h'
    | otherwise _ hr => exact ihr hr
  | production hp _ ih =>
    cases h' with
    | production hp' h' =>
      obtain rfl := Option.some.inj (hp.symm.trans hp')
      exact ih h'
    | noProduction hp' => cases hp.symm.trans hp'
  | noProduction hp =>
    cases h' with
    | production hp' => cases hp.symm.trans hp'
    | noProduction => rfl

/-! ## leaves -/

variable (x : Lexed)

theorem tokenAt_of_lt {i : Nat} (h : i < x.size) (m : Mask) :
    tokenAt x m i = if (x.token i).is m then .ends (i + 1) else .fails := by
  have ht : x.tokens[i]? = some x.tokens[i] := Array.getElem?_eq_getElem h
  rw [tokenAt, Lexed.token_of_getElem? ht, ht]

theorem tokenAt_of_le {i : Nat} (h : x.size ≤ i) (m : Mask) :
    tokenAt x m i = if m.isEof then .ends i else .fails := by
  have ht : x.tokens[i]? = none := Array.getElem?_eq_none h
  rw [tokenAt, ht]

theorem spell_eq_some_iff_mem {i j : Nat} {bs : List UInt8} (h : i ≤ x.size) :
    x.spell i bs = some j ↔ j ∈ List.range' i (x.size + 1 - i) ∧ (x.covered i j == bs) = true := by
  rw [x.spell_eq_some_iff, Nat.max_eq_right h, List.mem_range'_1, beq_iff_eq]
  have e : i ≤ j ∧ j ≤ x.size ↔ i ≤ j ∧ j < i + (x.size + 1 - i) := by omega
  rw [← and_assoc, e]

theorem spell_of_find? {i k : Nat} {bs : List UInt8} (h : i ≤ x.size)
    (e : (List.range' i (x.size + 1 - i)).find? (fun j => x.covered i j == bs) = some k) :
    x.spell i bs = some k := by
  have hk := @List.find?_some _ (fun j => x.covered i j == bs) _ _ e
  exact (spell_eq_some_iff_mem x h).mpr ⟨List.mem_of_find?_eq_some e, hk⟩

theorem literalAt_of_some {i j : Nat} {bs : List UInt8} (h : i ≤ x.size)
    (hs : x.spell i bs = some j) : literalAt x bs i = .ends j := by
  unfold literalAt
  cases e : (List.range' i (x.size + 1 - i)).find? fun j => x.covered i j == bs with
  | none =>
    obtain ⟨hj, hc⟩ := (spell_eq_some_iff_mem x h).mp hs
    exact absurd hc (List.find?_eq_none.mp e j hj)
  | some k =>
    -- tokens are not empty, so no two runs from `i` on spell the same
    obtain rfl : j = k := Option.some.inj (hs.symm.trans (spell_of_find? x h e))
    rfl

theorem literalAt_of_none {i : Nat} {bs : List UInt8} (h : i ≤ x.size)
    (hs : x.spell i bs = none) : literalAt x bs i = .fails := by
  unfold literalAt
  cases e : (List.range' i (x.size + 1 - i)).find? fun j => x.covered i j == bs with
  | none => rfl
  | some k => cases hs.symm.trans (spell_of_find? x h e)

end Ebnf.Reference
