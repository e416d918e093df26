import Ebnf.Grammar.Build
import Ebnf.Proofs.Matching.Course
import Ebnf.Proofs.Outcome

/-!
# Errors point at the furthest place

A run falls back only behind a failure that it has recorded, so the furthest place it came to is
where it ended or where the recorded failure lies, whichever is later.

* `State.Tight`      the peak is the place of the state or the token of the recorded failure;
* `State.Blamed`     the recorded failure lies at the peak;
* `Yields.tight`     a run that matches ends tight, one that does not ends blamed;
* `Parser.places`    where a parse stands in the input at one moment or another;
* `parse_points_furthest`   the furthest of these is what errors and their reports point at.

An alternation without children fails and records nothing, so there may be none.
-/

namespace Ebnf

namespace Matching

/-- the peak is the place of the state or the token of the recorded failure, whichever is later -/
def State.Tight (s : State) : Prop :=
  s.peak.pos = max s.pos ((s.failure.map Failure.token).getD 0)

def State.Blamed (s : State) : Prop := ∃ f, s.failure = some f ∧ f.token = s.peak.pos

def Attempt.Tight : Attempt → Prop
  | .matched s => s.Tight
  | .stopped .mismatch s => s.Blamed
  | .stopped _ _ => True

/-- the job does not choose among no terms at all, unless a failure is recorded already -/
def Job.Ready (blamed : Prop) : Job → Prop
  | .rounds _ n => n ≠ .alternation []
  | .more _ n _ => n ≠ .alternation []
  | .single _ n => n ≠ .alternation []
  | .once _ n => n ≠ .alternation []
  | .firstOf ts => ts ≠ [] ∨ blamed
  | .nested j => j.Ready blamed
  | _ => True

section
variable {c : Setting} {h : Nat} {j : Job} {s : State} {r : Attempt}

theorem State.Tight.belowPeak (hs : s.Tight) : s.BelowPeak := by
  rw [State.BelowPeak, hs]
  exact Nat.le_max_left _ _

theorem State.Blamed.tight (hs : s.Blamed) (hle : s.BelowPeak) : s.Tight := by
  obtain ⟨f, hf, he⟩ := hs
  show s.peak.pos = _
  rw [hf, ← he]
  refine (Nat.max_eq_right ?_).symm
  rw [he]
  exact hle

/-- a miss at a tight state leaves a failure at the peak, be it the old one or the new -/
theorem blamed_miss (hs : s.Tight) (t : TermId) : (miss s t).state.Blamed := by
  refine ⟨Failure.furthest s.failure ⟨s.rule, s.pos, t⟩, rfl, ?_⟩
  have hs : s.peak.pos = max s.pos ((s.failure.map Failure.token).getD 0) := hs
  show _ = s.peak.pos
  rw [hs]
  cases s.failure with
  | none => exact (Nat.max_eq_left (Nat.zero_le _)).symm
  | some old =>
    unfold Failure.furthest
    dsimp only [Option.map_some, Option.getD_some]
    by_cases hlt : s.pos < old.token
    · rw [if_pos hlt]
      exact (Nat.max_eq_right (Nat.le_of_lt hlt)).symm
    · rw [if_neg hlt]
      exact (Nat.max_eq_left (Nat.le_of_not_lt hlt)).symm

theorem tight_leaf {kind : Tree.Kind} {t : TermId} {stop : Nat} {span : Span} (hs : s.Tight)
    (hle : s.pos ≤ stop) : (s.leaf kind t stop span).Tight := by
  have hs : s.peak.pos = max s.pos ((s.failure.map Failure.token).getD 0) := hs
  show max s.peak.pos stop = max stop ((s.failure.map Failure.token).getD 0)
  omega

theorem tight_token (hs : s.Tight) (t : TermId) (m : Mask) : (token c t m s).Tight := by
  rcases token_cases c t m s with ⟨_, _, e⟩ | ⟨_, _, e⟩ | ⟨_, _, e⟩ <;> rw [e]
  · exact hs
  · exact tight_leaf hs (Nat.le_succ _)
  · exact blamed_miss hs t

theorem tight_literal (hs : s.Tight) (t : TermId) (x : String) : (literal c t x s).Tight := by
  rcases literal_cases c t x s with ⟨stop, hstop, e⟩ | ⟨_, e⟩ <;> rw [e]
  · exact tight_leaf hs (c.source.spell_eq_some_iff.mp hstop).1
  · exact blamed_miss hs t

theorem Attempt.Tight.map {f : State → State} (hr : r.Tight) (ht : ∀ s, s.Tight → (f s).Tight)
    (hb : ∀ s, s.Blamed → (f s).Blamed) : (r.map f).Tight := by
  cases r with
  | matched s => exact ht s hr
  | stopped why s =>
    cases why with
    | mismatch => exact hb s hr
    | limit => trivial
    | endless => trivial

theorem Attempt.Tight.leave (hr : r.Tight) (m : Mark) (outer : NodeId) :
    (leave c m outer r).Tight := by
  cases r with
  | matched s => exact hr
  | stopped why s => cases why <;> exact hr

/-- a run that begins tight ends tight if it matches, and blamed if it does not -/
theorem Yields.tight (hg : ∀ t, c.grammar.node? t ≠ some (.alternation []))
    (hy : Yields c h j s r) : s.Tight → j.Ready s.Blamed → r.Tight := by
  have hnode : ∀ {t n}, c.grammar.node? t = some n → n ≠ .alternation [] :=
    fun hn he => hg _ (he ▸ hn)
  induction hy with
  | missing => exact fun hs _ => blamed_miss (s := State.say _ _) hs _
  | taken hn _ _ ih => exact fun hs _ => ih hs (hnode hn)
  | skipped hn _ hr ih =>
    intro hs _
    exact (ih hs (hnode hn)).tight (hr.climbs.below hs.belowPeak)
  | justOne _ _ ih => exact ih
  | noneAtAll _ _ ih => exact ih
  | oneAndMore _ _ _ ih ihm => exact fun hs hj => ihm (ih hs hj) hj
  | idle => exact fun hs _ => hs
  | another _ _ _ ih ihm => exact fun hs hj => ihm (ih hs hj) hj
  | enough _ hr ih =>
    intro hs hj
    exact (ih hs hj).tight (hr.climbs.below hs.belowPeak)
  | cutShort => exact fun _ _ => trivial
  | kept _ ih => exact ih
  | @undone _ _ _ _ why _ _ ih =>
    intro hs hj
    have hr := ih hs hj
    cases why <;> exact hr
  | ruleAsTerm => exact fun hs _ => blamed_miss (s := State.say _ _) hs _
  | reference _ ih => exact fun hs _ => ih hs trivial
  | token => exact fun hs _ => tight_token hs _ _
  | literal => exact fun hs _ => tight_literal hs _ _
  | alternation _ ih => exact fun hs hj => ih hs (.inl fun he => hj (he ▸ rfl))
  | concatenation _ ih => exact fun hs _ => ih hs trivial
  | group _ ih => exact fun hs _ => ih hs trivial
  | tooDeep => exact fun _ _ => trivial
  | deeper _ _ ih => exact fun hs hj => (ih hs hj).map (fun _ ht => ht) fun _ hb => hb
  | allDone => exact fun hs _ => hs
  | nextOne _ _ iht ih => exact fun hs _ => ih (iht hs trivial) trivial
  | broken _ ih => exact fun hs _ => ih hs trivial
  | noneLeft => exact fun _ hj => hj.resolve_left fun hne => hne rfl
  | chosen _ ih => exact fun hs _ => ih hs trivial
  | otherwise ht _ iht ih =>
    -- what was tried before has recorded a failure, so nothing more need be left to choose from
    intro hs _
    have hb := iht hs trivial
    exact ih (hb.tight (ht.climbs.below hs.belowPeak)) (.inr hb)
  | givenUp => exact fun _ _ => trivial
  | under _ ih => exact fun hs _ => (ih hs trivial).leave _ _
  | production _ _ ih => exact fun hs _ => (ih hs trivial).map (fun _ ht => ht) fun _ hb => hb
  | noProduction => exact fun hs _ => blamed_miss (s := State.say _ _) hs _
  | notARule => exact fun hs _ => blamed_miss (s := State.say _ _) hs _

end

end Matching

/-! ## parses -/

namespace Parser

open Matching

/-- where a parse stands in the input at one moment or another, attempts that are undone included -/
def places (p : Parser) (start : RuleId) : Set Nat :=
  {i | ∃ s, Passes p.setting (.body start start) (p.first start) s ∧ s.pos = i}

/-- where a parse ended, or the token of the failure that it recorded, whichever is later -/
def furthest (p : Parser) (start : RuleId) : Nat :=
  max (p.outcome start).state.pos (((p.parse start).1.failure.map Failure.token).getD 0)

section
variable {p : Parser} {start : RuleId}

theorem outcome_tight (hg : ∀ t, p.grammar.node? t ≠ some (.alternation []))
    (he : (p.parse start).2 ≠ .endless) : (p.outcome start).Tight := by
  obtain ⟨h, hy⟩ := p.yields_outcome start he
  exact hy.tight hg rfl trivial

theorem peak_eq_furthest (hg : ∀ t, p.grammar.node? t ≠ some (.alternation []))
    (he : (p.parse start).2 ≠ .endless) (hl : ¬ (p.parse start).2.Limited) :
    (p.parse start).1.peak.pos = p.furthest start := by
  obtain ⟨h, hy⟩ := p.yields_outcome start he
  have hbelow := hy.climbs.below (Nat.le_refl _)
  have ht := outcome_tight hg he
  rw [ends_iff] at he
  rw [limited_iff] at hl
  show (p.outcome start).state.Tight
  cases hr : p.outcome start with
  | matched s =>
    rw [hr] at ht
    exact ht
  | stopped why s =>
    rw [hr] at ht he hl hbelow
    cases why with
    | mismatch => exact ht.tight hbelow
    | limit => exact absurd trivial hl
    | endless => exact he.elim

theorem furthest_of_matched {s : State} (hr : p.outcome start = .matched s) :
    p.furthest start = max s.pos ((s.failure.map Failure.token).getD 0) := by
  rw [furthest, failure_eq, hr]
  rfl

theorem furthest_of_mismatch (hg : ∀ t, p.grammar.node? t ≠ some (.alternation [])) {s : State}
    (hr : p.outcome start = .stopped .mismatch s) :
    ∃ f, s.failure = some f ∧ p.furthest start = f.token := by
  have he : (p.parse start).2 ≠ .endless := by
    rw [ends_iff, hr]
    trivial
  have hl : ¬ (p.parse start).2.Limited := by
    rw [limited_iff, hr]
    exact id
  have ht := outcome_tight hg he
  rw [hr] at ht
  obtain ⟨f, hf, hat⟩ := ht
  refine ⟨f, hf, ?_⟩
  rw [← peak_eq_furthest hg he hl, peak_eq, hr, hat]
  rfl

theorem pointsAt_ofFailure (x : Lexed) (g : Grammar) (f : Failure) :
    (Report.ofFailure x g f).PointsAt x f.token 1 := by
  have hs : (Report.ofFailure x g f).snippet = some (Report.snippet x f.token 1) := by
    unfold Report.ofFailure
    dsimp only
    split <;> rfl
  exact Diagnostic.pointsAt_of_snippet hs

/-- the report of a recorded failure that does not lie before the error points at the failure -/
theorem pointsAt_of_expectation {e : ParseError} {f : Failure} (hf : e.failure = some f)
    (hle : e.offset ≤ f.token) (hk : ∀ limit, e.kind ≠ .recursionLimit limit) :
    (p.report e).PointsAt p.source f.token 1 := by
  have he : e.expectation = some f := by
    rw [ParseError.expectation, hf]
    exact Option.filter_eq_some_iff.mpr ⟨rfl, decide_eq_true hle⟩
  rw [report, Report.ofParseError_of_expectation he hk]
  exact pointsAt_ofFailure _ _ _

theorem expectation_eq_none {e : ParseError} (hlt : ∀ f, e.failure = some f → f.token < e.offset) :
    e.expectation = none := by
  rw [ParseError.expectation, Option.filter_eq_none_iff]
  intro f hf hle
  exact Nat.not_le_of_lt (hlt f hf) (of_decide_eq_true hle)

/-- input that is left over is reported where the match ended, or at a failure further on -/
theorem pointsAt_trailingInput (consumed total offset : Nat) (failure : Option Failure) :
    ∃ width, (p.report ⟨.trailingInput consumed total, offset, failure⟩).PointsAt p.source
      (max offset ((failure.map Failure.token).getD 0)) width := by
  cases hf : failure with
  | none =>
    rw [Option.map_none, Option.getD_none, Nat.max_eq_left (Nat.zero_le _)]
    exact ⟨_, Diagnostic.pointsAt_of_snippet rfl⟩
  | some f =>
    rw [Option.map_some, Option.getD_some]
    by_cases hle : offset ≤ f.token
    · rw [Nat.max_eq_right hle]
      exact ⟨1, pointsAt_of_expectation rfl hle fun _ he => by cases he⟩
    · rw [Nat.max_eq_left (Nat.le_of_not_le hle), report, Report.ofParseError,
        expectation_eq_none (fun f' hf' => Option.some.inj hf' ▸ Nat.lt_of_not_le hle)]
      exact ⟨_, Diagnostic.pointsAt_of_snippet rfl⟩

end

/-- if no alternation is without children, the furthest place that a parse came to, in attempts that
it undid too, is where it ended or where its recorded failure lies.  Where nothing matches, the error
carries a failure and points at that place; the report of every error shows the file, line and column
of that place, and the text of the line -/
theorem parse_points_furthest (p : Parser) (start : RuleId)
    (hg : ∀ t, p.grammar.node? t ≠ some (.alternation []))
    (he : (p.parse start).2 ≠ .endless) (hl : ¬ (p.parse start).2.Limited) :
    IsGreatest (p.places start) (p.furthest start) ∧
    ∀ e, (p.parse start).2 = .rejected e →
      (e.kind = .noMatch → e.failure.isSome ∧ e.offset = p.furthest start) ∧
      ∃ width, (p.report e).PointsAt p.source (p.furthest start) width := by
  refine ⟨?_, fun e hv => ?_⟩
  · obtain ⟨h, hy⟩ := p.yields_outcome start he
    rw [← peak_eq_furthest hg he hl]
    exact isGreatest_peak hy rfl
  · rw [rejected_iff] at hv
    rw [limited_iff] at hl
    cases hr : p.outcome start with
    | matched s =>
      rw [hr, errorOf] at hv
      split at hv
      · cases hv
      · obtain rfl := Option.some.inj hv
        rw [furthest_of_matched hr]
        exact ⟨fun hk => by (cases hk), pointsAt_trailingInput _ _ _ _⟩
    | stopped why s =>
      rw [hr] at hv hl
      cases why with
      | mismatch =>
        obtain ⟨f, hf, hfar⟩ := furthest_of_mismatch hg hr
        obtain rfl := Option.some.inj hv
        have hoffset : (s.failure.map Failure.token).getD 0 = f.token := by
          rw [hf]
          rfl
        rw [hfar, hoffset]
        refine ⟨fun _ => ⟨by rw [hf]; rfl, rfl⟩, 1, ?_⟩
        exact pointsAt_of_expectation hf (Nat.le_refl _) fun _ he => by cases he
      | limit => exact absurd trivial hl
      | endless => cases hv

open Grammar in
/-- `s = "a" "b" "c" | "a"` matches only the `a` of `abd`, and the error is at the `b` that is left
over; but the first choice went as far as `d`, and the report points there -/
theorem parse_points_furthest_undone_attempt :
    let g := Grammar.build [.rule "s", .alternation, .concatenation, .literal "a" .one,
      .literal "b" .one, .literal "c" .one, .literal "a" .one, .attach 2 3, .attach 2 4,
      .attach 2 5, .attach 1 2, .attach 1 6, .attach 0 1]
    let p : Parser := { source := .ofText "abd" "input" 0 {}, grammar := g }
    let e : ParseError := ⟨.trailingInput 1 3, 1, some ⟨0, 2, 5⟩⟩
    (p.parse 0).2 = .rejected e ∧ p.furthest 0 = 2 ∧ IsGreatest (p.places 0) 2 ∧
    ∃ width, (p.report e).snippet =
      some { file := "input", line := 1, column := 3, lineText := "abd", width } := by
  intro g p e
  have hv : (p.parse 0).2 = .rejected e := by decide +kernel
  have hfar : p.furthest 0 = 2 := by decide +kernel
  have hg : ∀ t, p.grammar.node? t ≠ some (.alternation []) := by
    intro t hn
    have hall : ∀ n ∈ g.nodes.toList, n ≠ .alternation [] := by decide +kernel
    exact hall _ (Array.mem_toList_iff.mpr (Array.mem_of_getElem? hn)) rfl
  have he : (p.parse 0).2 ≠ .endless := by
    rw [hv]
    exact fun he => by cases he
  have hl : ¬ (p.parse 0).2.Limited := by
    rintro ⟨_, _, _, hlim⟩
    rw [hv] at hlim
    have hkind : e.kind = .recursionLimit _ := congrArg ParseError.kind (Verdict.rejected.inj hlim)
    cases hkind
  have hlocation : p.source.location 2 = ⟨0, 3, 1, 2⟩ := by decide +kernel
  have htext : p.source.lineText ⟨0, 3, 1, 2⟩ = "abd" := by decide +kernel
  obtain ⟨hgreatest, hreport⟩ := parse_points_furthest p 0 hg he hl
  obtain ⟨width, hsnippet⟩ := (hreport e hv).2
  rw [hfar] at hgreatest
  rw [Diagnostic.PointsAt, hfar, hlocation, htext] at hsnippet
  exact ⟨hv, hfar, hgreatest, width, hsnippet⟩

end Parser

end Ebnf
