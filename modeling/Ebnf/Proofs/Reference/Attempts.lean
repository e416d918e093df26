import Ebnf.ParseError
import Ebnf.Proofs.Reference.Meaning

/-!
# What a grammar tries

The meaning of a phrase once more, now with all the leaves that fail on the way to its outcome, in the
order in which they are tried: those of choices that are not taken and of rounds that are given up
stand in the list too.

* `Outcome.blame`     the failure of a leaf, if it fails;
* `Attempts`          a phrase has an outcome at a place, and so many leaves fail on the way;
* `Attempts.means`    the outcome is the one that the phrase means;
* `Attempts.unique`   no phrase tries two things.
-/

namespace Ebnf.Reference

/-- what a leaf adds to the list: the failure `f`, if it fails -/
def Outcome.blame (f : Failure) : Outcome → List Failure
  | .fails => [f]
  | .ends _ => []

/-- at the place `i` in the production of `rule`, the phrase has the outcome `o`, and the leaves that
fail on the way to it are `fs`; `t` is the term that a phrase without an id of its own stands for.  The
leaves are tokens, literals, and references and start rules without a production -/
inductive Attempts (x : Lexed) (g : Grammar) : (rule : RuleId) → (t : TermId) → Phrase →
    (i : Nat) → (o : Outcome) → (fs : List Failure) → Prop where
  | missing {rule t u i} (hn : g.node? u = none) : Attempts x g rule t (.term u) i .fails []
  | matched {rule t u n i j fs} (hn : g.node? u = some n)
      (h : Attempts x g rule u (.rounds n) i (.ends j) fs) : Attempts x g rule t (.term u) i (.ends j) fs
  | failed {rule t u n i fs} (hn : g.node? u = some n) (ho : n.occurrence.isOptional = false)
      (h : Attempts x g rule u (.rounds n) i .fails fs) : Attempts x g rule t (.term u) i .fails fs
  | skipped {rule t u n i fs} (hn : g.node? u = some n) (ho : n.occurrence.isOptional = true)
      (h : Attempts x g rule u (.rounds n) i .fails fs) : Attempts x g rule t (.term u) i (.ends i) fs
  | noneAtAll {rule t n i fs} (h : Attempts x g rule t (.once n) i .fails fs) :
      Attempts x g rule t (.rounds n) i .fails fs
  | justOne {rule t n i j fs} (hn : n.occurrence.isRepeated = false)
      (h : Attempts x g rule t (.once n) i (.ends j) fs) : Attempts x g rule t (.rounds n) i (.ends j) fs
  | oneAndMore {rule t n i j o fs fs'} (hn : n.occurrence.isRepeated = true)
      (h : Attempts x g rule t (.once n) i (.ends j) fs) (hm : Attempts x g rule t (.more n i) j o fs') :
      Attempts x g rule t (.rounds n) i o (fs ++ fs')
  | idle {rule t n start i} (hi : i ≤ start) : Attempts x g rule t (.more n start) i (.ends i) []
  | enough {rule t n start i fs} (hi : start < i) (h : Attempts x g rule t (.once n) i .fails fs) :
      Attempts x g rule t (.more n start) i (.ends i) fs
  | another {rule t n start i j o fs fs'} (hi : start < i)
      (h : Attempts x g rule t (.once n) i (.ends j) fs) (hm : Attempts x g rule t (.more n i) j o fs') :
      Attempts x g rule t (.more n start) i o (fs ++ fs')
  | ruleAsTerm {rule t name production i} :
      Attempts x g rule t (.once (.rule name production)) i .fails []
  | reference {rule t target occ i o fs} (h : Attempts x g rule t (.rule target) i o fs) :
      Attempts x g rule t (.once (.reference target occ)) i o fs
  | token {rule t m occ i} :
      Attempts x g rule t (.once (.token m occ)) i (tokenAt x m i) ((tokenAt x m i).blame ⟨rule, i, t⟩)
  | literal {rule t s occ i} :
      Attempts x g rule t (.once (.literal s occ)) i (literalAt x (Utf8.encode (g.text s)) i)
        ((literalAt x (Utf8.encode (g.text s)) i).blame ⟨rule, i, t⟩)
  | alternation {rule t ts i o fs} (h : Attempts x g rule t (.firstOf ts) i o fs) :
      Attempts x g rule t (.once (.alternation ts)) i o fs
  | concatenation {rule t ts i o fs} (h : Attempts x g rule t (.inOrder ts) i o fs) :
      Attempts x g rule t (.once (.concatenation ts)) i o fs
  | group {rule t ts occ i o fs} (h : Attempts x g rule t (.inOrder ts) i o fs) :
      Attempts x g rule t (.once (.group ts occ)) i o fs
  | allDone {rule t i} : Attempts x g rule t (.inOrder []) i (.ends i) []
  | nextOne {rule t u ts i j o fs fs'} (h : Attempts x g rule t (.term u) i (.ends j) fs)
      (hr : Attempts x g rule t (.inOrder ts) j o fs') :
      Attempts x g rule t (.inOrder (u :: ts)) i o (fs ++ fs')
  | broken {rule t u ts i fs} (h : Attempts x g rule t (.term u) i .fails fs) :
      Attempts x g rule t (.inOrder (u :: ts)) i .fails fs
  | noneLeft {rule t i} : Attempts x g rule t (.firstOf []) i .fails []
  | chosen {rule t u ts i j fs} (h : Attempts x g rule t (.term u) i (.ends j) fs) :
      Attempts x g rule t (.firstOf (u :: ts)) i (.ends j) fs
  | otherwise {rule t u ts i o fs fs'} (h : Attempts x g rule t (.term u) i .fails fs)
      (hr : Attempts x g rule t (.firstOf ts) i o fs') :
      Attempts x g rule t (.firstOf (u :: ts)) i o (fs ++ fs')
  | production {rule t id p i o fs} (hp : g.production? id = some p)
      (h : Attempts x g id t (.term p) i o fs) : Attempts x g rule t (.rule id) i o fs
  | noProduction {rule t id i} (hp : g.production? id = none) :
      Attempts x g rule t (.rule id) i .fails [⟨rule, i, t⟩]

section
variable {x : Lexed} {g : Grammar} {rule : RuleId} {t : TermId} {p : Phrase} {i : Nat}
  {o o' : Outcome} {fs fs' : List Failure}

theorem Attempts.of_literal {s : Grammar.Text} {occ : Occurrence}
    (h : literalAt x (Utf8.encode (g.text s)) i = o) :
    Attempts x g rule t (.once (.literal s occ)) i o (o.blame ⟨rule, i, t⟩) := h ▸ .literal

/-- without the list this is the meaning -/
theorem Attempts.means (h : Attempts x g rule t p i o fs) : Means x g p i o := by
  induction h with
  | missing hn => exact .missing hn
  | matched hn _ ih => exact .matched hn ih
  | failed hn ho _ ih => exact .failed hn ho ih
  | skipped hn ho _ ih => exact .skipped hn ho ih
  | noneAtAll _ ih => exact .noneAtAll ih
  | justOne hn _ ih => exact .justOne hn ih
  | oneAndMore hn _ _ ih ihm => exact .oneAndMore hn ih ihm
  | idle hi => exact .idle hi
  | enough hi _ ih => exact .enough hi ih
  | another hi _ _ ih ihm => exact .another hi ih ihm
  | ruleAsTerm => exact .ruleAsTerm
  | reference _ ih => exact .reference ih
  | token => exact .token
  | literal => exact .literal
  | alternation _ ih => exact .alternation ih
  | concatenation _ ih => exact .concatenation ih
  | group _ ih => exact .group ih
  | allDone => exact .allDone
  | nextOne _ _ ih ihr => exact .nextOne ih ihr
  | broken _ ih => exact .broken ih
  | noneLeft => exact .noneLeft
  | chosen _ ih => exact .chosen ih
  | otherwise _ _ ih ihr => exact .otherwise ih ihr
  | production hp _ ih => exact .production hp ih
  | noProduction hp => exact .noProduction hp

theorem Attempts.not_ends {j : Nat} (h : Attempts x g rule t p i .fails fs)
    (h' : Attempts x g rule t p i (.ends j) fs') : False := by
  cases h.means.unique h'.means

theorem Attempts.ends_unique {j k : Nat} (h : Attempts x g rule t p i (.ends j) fs)
    (h' : Attempts x g rule t p i (.ends k) fs') : j = k := Outcome.ends.inj (h.means.unique h'.means)

theorem Attempts.list_unique (h : Attempts x g rule t p i o fs) (h' : Attempts x g rule t p i o fs') :
    fs = fs' := by
  induction h generalizing fs' with
  | missing hn =>
    cases h' with
    | missing => rfl
    | failed hn' => cases hn.symm.trans hn'
  | matched hn h ih =>
    cases h' with
    | matched hn' h' =>
      obtain rfl := Option.some.inj (hn.symm.trans hn')
      exact ih h'
    | skipped hn' _ h' =>
      obtain rfl := Option.some.inj (hn.symm.trans hn')
      exact (h'.not_ends h).elim
  | failed hn _ _ ih =>
    cases h' with
    | missing hn' => cases hn.symm.trans hn'
    | failed hn' _ h' =>
      obtain rfl := Option.some.inj (hn.symm.trans hn')
      exact ih h'
  | skipped hn _ h ih =>
    cases h' with
    | matched hn' h' =>
      obtain rfl := Option.some.inj (hn.symm.trans hn')
      exact (h.not_ends h').elim
    | skipped hn' _ h' =>
      obtain rfl := Option.some.inj (hn.symm.trans hn')
      exact ih h'
  | noneAtAll h ih =>
    cases h' with
    | noneAtAll h' => exact ih h'
    | oneAndMore _ h' => exact (h.not_ends h').elim
  | justOne hn _ ih =>
    cases h' with
    | justOne _ h' => exact ih h'
    | oneAndMore hn' => cases hn.symm.trans hn'
  | oneAndMore hn h _ ih ihm =>
    cases h' with
    | noneAtAll h' => exact (h'.not_ends h).elim
    | justOne hn' => cases hn.symm.trans hn'
    | oneAndMore _ h' hm =>
      obtain rfl := h.ends_unique h'
      rw [ih h', ihm hm]
  | idle hi =>
    cases h' with
    | idle => rfl
    | enough hi' => exact absurd hi' (Nat.not_lt_of_le hi)
    | another hi' => exact absurd hi' (Nat.not_lt_of_le hi)
  | enough hi h ih =>
    cases h' with
    | idle hi' => exact absurd hi (Nat.not_lt_of_le hi')
    | enough _ h' => exact ih h'
    | another _ h' => exact (h.not_ends h').elim
  | another hi h _ ih ihm =>
    cases h' with
    | idle hi' => exact absurd hi (Nat.not_lt_of_le hi')
    | enough _ h' => exact (h'.not_ends h).elim
    | another _ h' hm =>
      obtain rfl := h.ends_unique h'
      rw [ih h', ihm hm]
  | ruleAsTerm =>
    cases h'
    rfl
  | reference _ ih =>
    cases h' with
    | reference h' => exact ih h'
  | token =>
    generalize ho : tokenAt _ _ _ = o at h'
    cases h' with
    | token => rw [ho]
  | literal =>
    generalize ho : literalAt _ _ _ = o at h'
    cases h' with
    | literal => rw [ho]
  | alternation _ ih =>
    cases h' with
    | alternation h' => exact ih h'
  | concatenation _ ih =>
    cases h' with
    | concatenation h' => exact ih h'
  | group _ ih =>
    cases h' with
    | group h' => exact ih h'
  | allDone =>
    cases h'
    rfl
  | nextOne h _ ih ihr =>
    cases h' with
    | nextOne h' hr =>
      obtain rfl := h.ends_unique h'
      rw [ih h', ihr hr]
    | broken h' => exact (h'.not_ends h).elim
  | broken h ih =>
    cases h' with
    | nextOne h' => exact (h.not_ends h').elim
    | broken h' => exact ih h'
  | noneLeft =>
    cases h'
    rfl
  | chosen h ih =>
    cases h' with
    | chosen h' => exact ih h'
    | otherwise h' => exact (h'.not_ends h).elim
  | otherwise h _ ih ihr =>
    cases h' with
    | chosen h' => exact (h.not_ends h').elim
    | otherwise h' hr => rw [ih h', ihr hr]
  | production hp _ ih =>
    cases h' with
    | production hp' h' =>
      obtain rfl := Option.some.inj (hp.symm.trans hp')
      exact ih h'
    | noProduction hp' => cases hp.symm.trans hp'
  | noProduction hp =>
    cases h' with
    | production hp' => cases hp.symm.trans hp'
    | noProduction => rfl

theorem Attempts.unique (h : Attempts x g rule t p i o fs) (h' : Attempts x g rule t p i o' fs') :
    o = o' ∧ fs = fs' := by
  obtain rfl := h.means.unique h'.means
  exact ⟨rfl, h.list_unique h'⟩

end

end Ebnf.Reference
