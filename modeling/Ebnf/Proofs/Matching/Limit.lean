import Mathlib.Order.Defs.Unbundled
import Ebnf.Grammar.Build
import Ebnf.Proofs.Outcome

/-!
# The limit only withholds answers

The same job is matched under two limits.  A run that does not meet the smaller limit is a run under
the larger one; a run under the larger limit is one under the smaller, unless that one is cut short.

* `Setting.withLimit`   the same source and grammar under another limit;
* `Yields.raised`       from the smaller limit to the larger;
* `Cut`                 the job meets the limit;
* `Yields.lowered`      from the larger limit to the smaller;
* `limit_only_withholds`   so a parse that does not meet its limit has the same result under every
                        larger one, and the limits that are met are those below some point.
-/

namespace Ebnf

namespace Matching

def Setting.withLimit (c : Setting) (d : Nat) : Setting := { c with maxDepth := d }

section
variable {c : Setting} {d h : Nat} {j : Job} {s s' : State} {r : Attempt}

/-! ## from the smaller limit to the larger -/

/-- a run that does not meet the limit goes the same way under a larger one -/
theorem Yields.raised (hd : c.maxDepth ≤ d) (hy : Yields c h j s r) :
    ¬ r.Limited → Yields (c.withLimit d) h j s r := by
  induction hy with
  | missing hn => exact fun _ => .missing hn
  | taken hn _ ho ih => exact fun hr => .taken hn (ih hr) ho
  | skipped hn ho _ ih => exact fun _ => .skipped hn ho (ih id)
  | justOne hn _ ih => exact fun hr => .justOne hn (ih hr)
  | noneAtAll hn _ ih => exact fun hr => .noneAtAll hn (ih hr)
  | oneAndMore hn _ _ ih ihm => exact fun hr => .oneAndMore hn (ih id) (ihm hr)
  | idle hs => exact fun _ => .idle hs
  | another hs _ _ ih ihm => exact fun hr => .another hs (ih id) (ihm hr)
  | enough hs _ ih => exact fun _ => .enough hs (ih id)
  | cutShort => exact fun hr => absurd trivial hr
  | kept _ ih => exact fun _ => .kept (ih id)
  | @undone _ _ _ _ why _ _ ih =>
    intro hr
    refine .undone (ih ?_)
    cases why <;> exact hr
  | ruleAsTerm => exact fun _ => .ruleAsTerm
  | reference _ ih => exact fun hr => .reference (ih hr)
  | token => exact fun _ => .token
  | literal => exact fun _ => .literal
  | alternation _ ih => exact fun hr => .alternation (ih hr)
  | concatenation _ ih => exact fun hr => .concatenation (ih hr)
  | group _ ih => exact fun hr => .group (ih hr)
  | tooDeep => exact fun hr => absurd trivial hr
  | deeper hlt _ ih =>
    exact fun hr => .deeper (Nat.lt_of_lt_of_le hlt hd) (ih (mt Attempt.limited_map.mpr hr))
  | allDone => exact fun _ => .allDone
  | nextOne _ _ iht ih => exact fun hr => .nextOne (iht id) (ih hr)
  | broken _ ih => exact fun hr => .broken (ih hr)
  | noneLeft => exact fun _ => .noneLeft
  | chosen _ ih => exact fun _ => .chosen (ih id)
  | otherwise _ _ iht ih => exact fun hr => .otherwise (iht id) (ih hr)
  | givenUp => exact fun hr => absurd trivial hr
  | under _ ih => exact fun hr => .under (ih (mt Attempt.limited_leave.mpr hr))
  | production hn _ ih => exact fun hr => .production hn (ih (mt Attempt.limited_map.mpr hr))
  | noProduction hn => exact fun _ => .noProduction hn
  | notARule hn => exact fun _ => .notARule hn

/-! ## from the larger limit to the smaller -/

/-- `j`, begun in `s`, meets the limit -/
def Cut (c : Setting) (h : Nat) (j : Job) (s : State) : Prop :=
  ∃ s', Yields c h j s (.stopped .limit s')

section
variable {t : TermId} {n : Grammar.Node} {ts : List TermId} {rule : RuleId}

theorem Cut.term (hn : c.grammar.node? t = some n) :
    Cut c h (.rounds t n) s → Cut c (h + 1) (.term t) s := by
  rintro ⟨s', hy⟩
  exact ⟨s', .taken hn hy fun _ _ he => by cases he⟩

theorem Cut.rounds : Cut c h (.single t n) s → Cut c h (.rounds t n) s := by
  rintro ⟨s', hy⟩
  cases hn : n.occurrence.isRepeated with
  | false => exact ⟨s', .justOne hn hy⟩
  | true => exact ⟨s', .noneAtAll hn hy⟩

theorem Cut.single : Cut c h (.once t n) s → Cut c h (.single t n) s := by
  rintro ⟨s', hy⟩
  exact ⟨s'.reset s.mark, .undone hy⟩

theorem Cut.deeper (hd : s.depth < c.maxDepth) : Cut c h j s.deeper → Cut c h (.nested j) s := by
  rintro ⟨s', hy⟩
  exact ⟨s'.withDepth s.depth, .deeper hd hy⟩

theorem Cut.under : Cut c h (.body t rule) (s.opened rule (some t) (some s.parent)) →
    Cut c h (.under t rule) s := by
  rintro ⟨s', hy⟩
  exact ⟨s'.withParent s.parent, .under hy⟩

theorem Cut.body {name : Grammar.Text} {production : TermId}
    (hn : c.grammar.node? rule = some (.rule name (some production))) :
    Cut c h (.term production)
      ((s.say (.enterRule (c.grammar.text name) s.pos)).withRule rule) →
    Cut c h (.body t rule) s := by
  rintro ⟨s', hy⟩
  exact ⟨s'.withRule s.rule, .production hn hy⟩

theorem Cut.pass {k : Job} {s₂ : State} (hc : Cut c h j s)
    (hk : ∀ {s'}, Yields c h j s (.stopped .limit s') → Yields c h k s₂ (.stopped .limit s')) :
    Cut c h k s₂ := by
  obtain ⟨s', hy⟩ := hc
  exact ⟨s', hk hy⟩

end

/-- a run goes the same way under a smaller limit, unless it is cut short there -/
theorem Yields.lowered (hd : c.maxDepth ≤ d) (hy : Yields (c.withLimit d) h j s r) :
    Yields c h j s r ∨ Cut c h j s := by
  induction hy with
  | missing hn => exact .inl (.missing hn)
  | taken hn _ ho ih => exact ih.imp (fun hr => .taken hn hr ho) (Cut.term hn)
  | skipped hn ho _ ih => exact ih.imp (.skipped hn ho) (Cut.term hn)
  | justOne hn _ ih => exact ih.imp (.justOne hn) Cut.rounds
  | noneAtAll hn _ ih => exact ih.imp (.noneAtAll hn) Cut.rounds
  | oneAndMore hn _ _ ih ihm =>
    rcases ih with hr | hc
    · exact ihm.imp (.oneAndMore hn hr) fun hc => hc.pass (.oneAndMore hn hr)
    · exact .inr hc.rounds
  | idle hs => exact .inl (.idle hs)
  | another hs _ _ ih ihm =>
    rcases ih with hr | hc
    · exact ihm.imp (.another hs hr) fun hc => hc.pass (.another hs hr)
    · exact .inr (hc.pass (.cutShort hs))
  | enough hs _ ih => exact ih.imp (.enough hs) fun hc => hc.pass (.cutShort hs)
  | cutShort hs _ ih => exact ih.imp (.cutShort hs) fun hc => hc.pass (.cutShort hs)
  | kept _ ih => exact ih.imp .kept Cut.single
  | undone _ ih => exact ih.imp .undone Cut.single
  | ruleAsTerm => exact .inl .ruleAsTerm
  | reference _ ih => exact ih.imp .reference fun hc => hc.pass .reference
  | token => exact .inl .token
  | literal => exact .inl .literal
  | alternation _ ih => exact ih.imp .alternation fun hc => hc.pass .alternation
  | concatenation _ ih => exact ih.imp .concatenation fun hc => hc.pass .concatenation
  | group _ ih => exact ih.imp .group fun hc => hc.pass .group
  | tooDeep hle => exact .inl (.tooDeep (Nat.le_trans hd hle))
  | @deeper _ _ s _ _ _ ih =>
    -- the smaller limit may be met here, where the larger one is not
    by_cases hlt : s.depth < c.maxDepth
    · exact ih.imp (.deeper hlt) (Cut.deeper hlt)
    · exact .inr ⟨_, .tooDeep (Nat.le_of_not_lt hlt)⟩
  | allDone => exact .inl .allDone
  | nextOne _ _ iht ih =>
    rcases iht with ht | hc
    · exact ih.imp (.nextOne ht) fun hc => hc.pass (.nextOne ht)
    · exact .inr (hc.pass .broken)
  | broken _ ih => exact ih.imp .broken fun hc => hc.pass .broken
  | noneLeft => exact .inl .noneLeft
  | chosen _ ih => exact ih.imp .chosen fun hc => hc.pass .givenUp
  | otherwise _ _ iht ih =>
    rcases iht with ht | hc
    · exact ih.imp (.otherwise ht) fun hc => hc.pass (.otherwise ht)
    · exact .inr (hc.pass .givenUp)
  | givenUp _ ih => exact ih.imp .givenUp fun hc => hc.pass .givenUp
  | under _ ih => exact ih.imp .under Cut.under
  | production hn _ ih => exact ih.imp (.production hn) (Cut.body hn)
  | noProduction hn => exact .inl (.noProduction hn)
  | notARule hn => exact .inl (.notARule hn)

end

end Matching

/-! ## parses -/

namespace Parser

open Matching

def withLimit (p : Parser) (d : Nat) : Parser :=
  { p with config := { p.config with maxDepth := d } }

section
variable {p : Parser} {start : RuleId} {d : Nat}

theorem outcome_withLimit (hd : p.config.maxDepth ≤ d) (hl : ¬ (p.parse start).2.Limited)
    (he : (p.parse start).2 ≠ .endless) : (p.withLimit d).outcome start = p.outcome start := by
  obtain ⟨h, hy⟩ := p.yields_outcome start he
  have hr : ¬ (p.outcome start).Limited := mt (p.limited_iff start).mpr hl
  have hd' : p.setting.maxDepth ≤ d := hd
  have hy' : Yields (p.withLimit d).setting h (.body start start) ((p.withLimit d).first start)
      (p.outcome start) := hy.raised hd' hr
  exact (p.withLimit d).outcome_of_yields start hy'

theorem endless_withLimit (hd : p.config.maxDepth ≤ d) (he : (p.parse start).2 = .endless) :
    ((p.withLimit d).parse start).2 = .endless := by
  by_contra hne
  obtain ⟨h, hy⟩ := (p.withLimit d).yields_outcome start hne
  have hd' : p.setting.maxDepth ≤ d := hd
  have hy' : Yields (p.setting.withLimit d) h (.body start start) (p.first start)
      ((p.withLimit d).outcome start) := hy
  -- under the smaller limit the run would come to an end too
  have hf : (p.outcome start).Finished := by
    rcases hy'.lowered hd' with hr | ⟨s, hr⟩
    · rw [p.outcome_of_yields start hr]
      exact hr.finished
    · rw [p.outcome_of_yields start hr]
      trivial
  exact (p.ends_iff start).mpr hf he

theorem conclude_withLimit {c : Setting} {r : Attempt} (hr : ¬ r.Limited) :
    conclude (c.withLimit d) r = conclude c r := by
  cases r with
  | matched s => rfl
  | stopped why s =>
    cases why with
    | mismatch => rfl
    | limit => exact absurd trivial hr
    | endless => rfl

/-- a parse that comes to an end without meeting the limit leaves the same behind under a larger
one -/
theorem parse_withLimit (hd : p.config.maxDepth ≤ d) (hl : ¬ (p.parse start).2.Limited)
    (he : (p.parse start).2 ≠ .endless) :
    (p.withLimit d).parse start = ((p.parse start).1.withLimit d, (p.parse start).2) := by
  have hr : ¬ (p.outcome start).Limited := mt (p.limited_iff start).mpr hl
  have hc : conclude (p.withLimit d).setting (p.outcome start) =
      conclude p.setting (p.outcome start) := conclude_withLimit (c := p.setting) hr
  rw [parse_eq, outcome_withLimit hd hl he, hc, parse_eq]
  rfl

theorem verdict_withLimit (hd : p.config.maxDepth ≤ d) (hl : ¬ (p.parse start).2.Limited) :
    ((p.withLimit d).parse start).2 = (p.parse start).2 := by
  by_cases he : (p.parse start).2 = .endless
  · rw [he]
    exact endless_withLimit hd he
  · rw [parse_withLimit hd hl he]

end

/-- a parse that does not meet its limit has the same verdict under every larger one and, if it ends,
leaves the same tree, failure, log and peak behind; so the limits that a parse meets are those below
some point -/
theorem limit_only_withholds (p : Parser) (start : RuleId) :
    (∀ d d', d ≤ d' → ¬ ((p.withLimit d).parse start).2.Limited →
      ((p.withLimit d').parse start).2 = ((p.withLimit d).parse start).2 ∧
      (((p.withLimit d).parse start).2 ≠ .endless →
        ((p.withLimit d').parse start).1 = ((p.withLimit d).parse start).1.withLimit d')) ∧
    IsLowerSet {d | ((p.withLimit d).parse start).2.Limited} := by
  have hsame : ∀ d d', d ≤ d' → ¬ ((p.withLimit d).parse start).2.Limited →
      ((p.withLimit d').parse start).2 = ((p.withLimit d).parse start).2 :=
    fun d d' hd hl => verdict_withLimit (p := p.withLimit d) (d := d') hd hl
  refine ⟨fun d d' hd hl => ⟨hsame d d' hd hl, fun he => ?_⟩, ?_⟩
  · have hp := parse_withLimit (p := p.withLimit d) (d := d') hd hl he
    exact congrArg Prod.fst hp
  · intro d' d hd hl'
    by_contra hl
    have hl' : ((p.withLimit d').parse start).2.Limited := hl'
    rw [hsame d d' hd hl] at hl'
    exact hl hl'

open Grammar in
/-- `s = "a" ( "b" ) ?` nests once: the limit 0 is met, and from 1 on `ab` is accepted -/
theorem limit_withholds_group :
    let g := Grammar.build [.rule "s", .concatenation, .literal "a" .one, .group .optional,
      .literal "b" .one, .attach 0 1, .attach 1 2, .attach 1 3, .attach 3 4]
    let p : Parser := { source := .ofText "ab" "input" 0 {}, grammar := g }
    ((p.withLimit 0).parse 0).2.Limited ∧ ¬ ((p.withLimit 1).parse 0).2.Limited ∧
    ∀ d, 1 ≤ d → ((p.withLimit d).parse 0).2 = .accepted Tree.rootId ∧
      ((p.withLimit d).parse 0).1 = ((p.withLimit 1).parse 0).1.withLimit d := by
  intro g p
  have h0 : ((p.withLimit 0).parse 0).2 = .rejected ⟨.recursionLimit 0, 0, none⟩ := by
    decide +kernel
  have h1 : ((p.withLimit 1).parse 0).2 = .accepted Tree.rootId := by decide +kernel
  have hl : ¬ ((p.withLimit 1).parse 0).2.Limited := by
    rintro ⟨_, _, _, he⟩
    rw [h1] at he
    cases he
  refine ⟨⟨_, _, _, h0⟩, hl, fun d hd => ?_⟩
  obtain ⟨hv, hp⟩ := (limit_only_withholds p 0).1 1 d hd hl
  rw [h1] at hv
  refine ⟨hv, hp ?_⟩
  rw [h1]
  exact fun he => by cases he

end Parser

end Ebnf
