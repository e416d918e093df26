import Ebnf.Proofs.Failure.Truthful
import Ebnf.Proofs.Matching.Course

/-!
# What error codes say of the recorded failure

A failure is recorded by a token or a literal that does not match, or by a rule that has no
production, be it referred to or the start rule.  The failure itself only names a term, and the code
of a report is read off that term's node; so it says which of these it was, but for a start rule that
is the id of a term.

* `Origin`, `Origin.code`   the ways to record a failure, and the code for each;
* `Records`             a job records a failure, in one of these ways;
* `CameFrom`            some job in the course of another one recorded the failure;
* `Yields.explained`    what a run has recorded came from a job in the course of it;
* `Records.code_eq`     the code of the failure's term is that of its origin;
* `Grammar.IsTermOnly`  the id of a term that does not even refer to a rule;
* `SaysExpected`        the errors whose report says what was expected, if a failure was recorded;
* `Blames`              a parse left a failure that was recorded in this way;
* `code_names_origin`   the code of a report says what recorded the failure, unless the start rule is
                        such an id.
-/

namespace Ebnf

open Grammar Matching

inductive Origin where
  | token
  | literal
  /-- a rule that has no production, or an id that is no rule's -/
  | unresolved
  /-- an id that is no term's, where a term should be -/
  | noTerm
deriving DecidableEq

def Origin.code : Origin → Diagnostic.Code
  | .token => .expectedToken
  | .literal => .expectedText
  | .unresolved => .unresolvedRule
  | .noTerm => .unknown

theorem Origin.code_injective {o o' : Origin} (h : o.code = o'.code) : o = o' := by
  cases o <;> cases o' <;> first | rfl | cases h

namespace Matching

/-- the job, begun in the state, does not match and offers the failure -/
inductive Records (c : Setting) : Job → State → Failure → Origin → Prop where
  | token {t m o s} (hm : Matching.token c t m s = miss s t) :
      Records c (.once t (.token m o)) s ⟨s.rule, s.pos, t⟩ .token
  | literal {t x o s} (hm : Matching.literal c t (c.grammar.text x) s = miss s t) :
      Records c (.once t (.literal x o)) s ⟨s.rule, s.pos, t⟩ .literal
  | unresolved {t rule s} (hp : c.grammar.production? rule = none) :
      Records c (.body t rule) s ⟨s.rule, s.pos, t⟩ .unresolved
  | missing {t s} (hn : c.grammar.node? t = none) :
      Records c (.term t) s ⟨s.rule, s.pos, t⟩ .noTerm
  | ruleAsTerm {t name production s} :
      Records c (.once t (.rule name production)) s ⟨s.rule, s.pos, t⟩ .noTerm

/-- a job that is begun in the course of `j` records the failure -/
def CameFrom (c : Setting) (j : Job) (s : State) (f : Failure) (o : Origin) : Prop :=
  ∃ k u, Begins c j s k u ∧ Records c k u f o

/-- the failure recorded in `s'` was recorded in `s`, or came from a job in the course of `j` -/
def Explained (c : Setting) (j : Job) (s s' : State) : Prop :=
  ∀ f, s'.failure = some f → s.failure = some f ∨ ∃ o, CameFrom c j s f o

section
variable {c : Setting} {h : Nat} {j k : Job} {s s' u : State} {r : Attempt} {t : TermId}

theorem Explained.of_failure (h : s'.failure = s.failure) : Explained c j s s' :=
  fun _ hf => .inl (h ▸ hf)

theorem explained_miss {o : Origin} (hr : Records c j s ⟨s.rule, s.pos, t⟩ o)
    (hu : u.failure = (miss s t).state.failure) : Explained c j s u := by
  intro f hf
  obtain rfl : Failure.furthest s.failure ⟨s.rule, s.pos, t⟩ = f :=
    Option.some.inj (hu.symm.trans hf)
  rcases Failure.furthest_cases s.failure ⟨s.rule, s.pos, t⟩ with e | e
  · rw [e]
    exact .inr ⟨o, j, s, .start, hr⟩
  · exact .inl e

theorem explained_token {m : Mask} {o : Occurrence} :
    Explained c (.once t (.token m o)) s (token c t m s).state := by
  rcases token_cases c t m s with ⟨_, _, e⟩ | ⟨_, _, e⟩ | ⟨_, _, e⟩
  · rw [e]
    exact .of_failure rfl
  · rw [e]
    exact .of_failure rfl
  · exact explained_miss (.token e) (by rw [e])

theorem explained_literal {x : Text} {o : Occurrence} :
    Explained c (.once t (.literal x o)) s (literal c t (c.grammar.text x) s).state := by
  rcases literal_cases c t (c.grammar.text x) s with ⟨_, _, e⟩ | ⟨_, e⟩
  · rw [e]
    exact .of_failure rfl
  · exact explained_miss (.literal e) (by rw [e])

theorem Explained.inside (hu : Explained c k s' u) (hc : Calls c j s k s')
    (hs : Explained c j s s') : Explained c j s u := by
  intro f hf
  rcases hu f hf with hf' | ⟨o, l, v, hb, hr⟩
  · exact hs f hf'
  · exact .inr ⟨o, l, v, .inside hc hb, hr⟩

/-- what a run has recorded came from a job in the course of it -/
theorem Yields.explained (hy : Yields c h j s r) : Explained c j s r.state := by
  induction hy with
  | missing hn => exact explained_miss (.missing hn) rfl
  | taken hn _ _ ih => exact ih.inside (.rounds hn) (.of_failure rfl)
  | skipped hn _ _ ih => exact ih.inside (.rounds hn) (.of_failure rfl)
  | justOne _ _ ih => exact ih.inside .first (.of_failure rfl)
  | noneAtAll _ _ ih => exact ih.inside .first (.of_failure rfl)
  | oneAndMore hn hr _ ih ihm =>
    exact ihm.inside (.follow hn hr) (ih.inside .first (.of_failure rfl))
  | idle => exact .of_failure rfl
  | another hs hr _ ih ihm =>
    exact ihm.inside (.further hs hr) (ih.inside (.another hs) (.of_failure rfl))
  | enough hs _ ih => exact ih.inside (.another hs) (.of_failure rfl)
  | cutShort hs _ ih => exact ih.inside (.another hs) (.of_failure rfl)
  | kept _ ih => exact ih.inside .once (.of_failure rfl)
  | undone _ ih => exact ih.inside .once (.of_failure rfl)
  | ruleAsTerm => exact explained_miss .ruleAsTerm rfl
  | reference _ ih => exact ih.inside .reference (.of_failure rfl)
  | token => exact explained_token
  | literal => exact explained_literal
  | alternation _ ih => exact ih.inside .alternation (.of_failure rfl)
  | concatenation _ ih => exact ih.inside .concatenation (.of_failure rfl)
  | group _ ih => exact ih.inside .group (.of_failure rfl)
  | tooDeep => exact .of_failure rfl
  | deeper hd _ ih =>
    rw [Attempt.state_map]
    exact ih.inside (.deeper hd) (.of_failure rfl)
  | allDone => exact .of_failure rfl
  | nextOne ht _ iht ih => exact ih.inside (.tail ht) (iht.inside .head (.of_failure rfl))
  | broken _ ih => exact ih.inside .head (.of_failure rfl)
  | noneLeft => exact .of_failure rfl
  | chosen _ ih => exact ih.inside .choice (.of_failure rfl)
  | otherwise ht _ iht ih =>
    exact ih.inside (.otherwise ht) (iht.inside .choice (.of_failure rfl))
  | givenUp _ ih => exact ih.inside .choice (.of_failure rfl)
  | under _ ih =>
    intro f hf
    rw [failure_leave] at hf
    exact ih.inside .body (.of_failure rfl) f hf
  | production hn _ ih =>
    rw [Attempt.state_map]
    exact ih.inside (.production hn) (.of_failure rfl)
  | noProduction hn => exact explained_miss (.unresolved (production?_of_node? hn)) rfl
  | notARule hn => exact explained_miss (.unresolved (production?_eq_none hn)) rfl

/-! ## the terms of the jobs that are begun -/

/-- the terms of a job that is begun lie in the production of the rule that is matched then -/
theorem Calls.fits {start : RuleId} (hc : Calls c j s k s')
    (hj : j.Fits c.grammar start s.rule) : k.Fits c.grammar start s'.rule := by
  cases hc with
  | rounds hn => exact ⟨hj, hn⟩
  | follow _ hr => exact hr.frame.rule ▸ hj
  | further _ hr => exact hr.frame.rule ▸ hj
  | reference => exact ⟨hj.1, _, hj.2⟩
  | alternation => exact fun v hv => hj.1.of_node hj.2 hv
  | concatenation => exact fun v hv => hj.1.of_node hj.2 hv
  | group => exact fun v hv => hj.1.of_node hj.2 hv
  | head => exact hj _ List.mem_cons_self
  | tail ht => exact ht.frame.rule ▸ fun v hv => hj v (List.mem_cons_of_mem _ hv)
  | choice => exact hj _ List.mem_cons_self
  | otherwise ht => exact ht.frame.rule ▸ fun v hv => hj v (List.mem_cons_of_mem _ hv)
  | body => exact .inl hj
  | production hn => exact inProduction_of_production (production?_of_node? hn)
  | _ => exact hj

theorem Begins.fits {start : RuleId} (hb : Begins c j s k u)
    (hj : j.Fits c.grammar start s.rule) : k.Fits c.grammar start u.rule := by
  induction hb with
  | start => exact hj
  | inside hc _ ih => exact ih (hc.fits hj)

end

end Matching

def Grammar.IsTermOnly (g : Grammar) (id : RuleId) : Prop :=
  ∃ n, g.node? id = some n ∧ n.isRule = false ∧ ∀ target o, n ≠ .reference target o

section
variable {c : Setting} {k : Job} {u : State} {f : Failure} {o : Origin} {start : RuleId}

/-- an id that is no term's, or that of a reference, is described as a rule -/
theorem code_describe_of_not_termOnly {g : Grammar} {id : RuleId} (h : ¬ g.IsTermOnly id) :
    (Report.describe g id).1 = .unresolvedRule := by
  unfold Report.describe
  cases hn : g.node? id with
  | none => rfl
  | some n =>
    cases n with
    | rule => rfl
    | reference => rfl
    | _ => exact absurd ⟨_, hn, rfl, nofun⟩ h

/-- in a grammar that is built by calls, the code of the failure's term is that of its origin, unless
the failure blames a start rule that is no rule but a term -/
theorem Matching.Records.code_eq (hg : c.grammar.WellFormed) (hr : Records c k u f o)
    (hk : k.Fits c.grammar start u.rule) (hstart : ¬ c.grammar.IsTermOnly start) :
    (Report.describe c.grammar f.term).1 = o.code ∧ o ≠ .noTerm := by
  cases hr with
  | token =>
    unfold Report.describe
    rw [hk.2]
    exact ⟨rfl, nofun⟩
  | literal =>
    unfold Report.describe
    rw [hk.2]
    exact ⟨rfl, nofun⟩
  | unresolved =>
    refine ⟨?_, nofun⟩
    rcases hk with ⟨_, o, hn⟩ | ⟨_, rfl, rfl⟩
    · unfold Report.describe
      rw [hn]
      rfl
    · exact code_describe_of_not_termOnly hstart
  | missing hn =>
    obtain ⟨n, hn', _⟩ := hg.isTerm hk
    cases hn.symm.trans hn'
  | ruleAsTerm =>
    obtain ⟨n, hn', hterm⟩ := hg.isTerm hk.1
    obtain rfl := Option.some.inj (hk.2.symm.trans hn')
    cases hterm

end

/-! ## reports -/

/-- nothing matches, or input is left over where something else was expected -/
def ParseError.SaysExpected (e : ParseError) : Prop :=
  e.kind = .noMatch ∨
    (∃ consumed total, e.kind = .trailingInput consumed total) ∧ e.expectation.isSome

theorem ParseError.SaysExpected.not_limit {e : ParseError} (h : e.SaysExpected) (limit : Nat) :
    e.kind ≠ .recursionLimit limit := by
  rcases h with h | ⟨⟨consumed, total, h⟩, _⟩ <;> rw [h] <;> exact nofun

namespace Parser

/-- the failure that the parse left was recorded in this way by a job begun in the course of it -/
def Blames (p : Parser) (start : RuleId) (o : Origin) : Prop :=
  ∃ f, (p.parse start).1.failure = some f ∧
    CameFrom p.setting (.body start start) (p.first start) f o

section
variable {p : Parser} {start : RuleId} {e : ParseError} {f : Failure} {o : Origin}

theorem blames_of_failure (he : (p.parse start).2 ≠ .endless)
    (hf : (p.parse start).1.failure = some f) : ∃ o, p.Blames start o := by
  obtain ⟨_, hy⟩ := p.yields_outcome start he
  rcases hy.explained f hf with hnone | ⟨o, hcame⟩
  · cases hnone
  · exact ⟨o, f, hf, hcame⟩

theorem code_ofFailure (x : Lexed) (g : Grammar) (f : Failure) :
    (Report.ofFailure x g f).code = (Report.describe g f.term).1 := by
  unfold Report.ofFailure
  dsimp only
  split <;> rfl

theorem expectation_of_noMatch (hv : (p.parse start).2 = .rejected e) (hk : e.kind = .noMatch) :
    e.expectation = e.failure := by
  rw [rejected_iff] at hv
  cases hr : p.outcome start with
  | matched s =>
    rw [hr, errorOf] at hv
    split at hv
    · cases hv
    · obtain rfl := Option.some.inj hv
      cases hk
  | stopped why s =>
    rw [hr] at hv
    cases why with
    | mismatch =>
      obtain rfl := Option.some.inj hv
      show s.failure.filter _ = s.failure
      cases s.failure with
      | none => rfl
      | some f => exact Option.filter_eq_some_iff.mpr ⟨rfl, decide_eq_true (Nat.le_refl _)⟩
    | limit =>
      obtain rfl := Option.some.inj hv
      cases hk
    | endless => cases hv

theorem code_report (hv : (p.parse start).2 = .rejected e) (hk : e.SaysExpected) :
    (p.report e).code = ((p.parse start).1.failure.map fun f =>
      (Report.describe p.grammar f.term).1).getD .unknown := by
  rw [← failure_of_rejected hv, report]
  have hsome : ∀ f, e.expectation = some f →
      (Report.ofParseError p.source p.grammar e).code = (Report.describe p.grammar f.term).1 := by
    intro f hf
    rw [Report.ofParseError_of_expectation hf hk.not_limit]
    exact code_ofFailure _ _ _
  rcases hk with hk | ⟨_, hisSome⟩
  · have hexp := expectation_of_noMatch hv hk
    cases hf : e.failure with
    | none => rw [Report.ofParseError, hexp, hk, hf]; rfl
    | some f => exact hsome f (hexp.trans hf)
  · obtain ⟨f, hf⟩ := Option.isSome_iff_exists.mp hisSome
    rw [(Option.filter_eq_some_iff.mp hf).1]
    exact hsome f hf

/-- a start rule that is the id of a term is blamed at once, and nothing else is -/
theorem blames_iff_of_isTermOnly (h : p.grammar.IsTermOnly start) :
    (p.Blames start o ↔ o = .unresolved) ∧
    (p.parse start).1.failure = some ⟨start, 0, start⟩ := by
  obtain ⟨n, hn, hrule, _⟩ := h
  have hno : ∀ name production, p.grammar.node? start ≠ some (.rule name production) := by
    intro name production e
    obtain rfl := Option.some.inj (hn.symm.trans e)
    cases hrule
  have hf : (p.parse start).1.failure = some ⟨start, 0, start⟩ := by
    rw [failure_eq, p.outcome_of_yields start (Yields.notARule (h := 0) hno)]
    rfl
  refine ⟨⟨?_, ?_⟩, hf⟩
  · rintro ⟨f, -, k, u, hbegin, hrecord⟩
    cases hbegin with
    | start =>
      cases hrecord
      rfl
    | inside hc =>
      -- only a production is begun
      cases hc with
      | production hn' => exact absurd hn' (hno _ _)
  · rintro rfl
    exact ⟨_, hf, _, _, .start, .unresolved (production?_eq_none hno)⟩

theorem code_of_blames {steps : List Step} (hg : p.grammar = build steps)
    (hstart : ¬ p.grammar.IsTermOnly start) (hv : (p.parse start).2 = .rejected e)
    (hk : e.SaysExpected) (hb : p.Blames start o) : (p.report e).code = o.code ∧ o ≠ .noTerm := by
  have hwf : p.grammar.WellFormed := hg ▸ build_wellFormed steps
  obtain ⟨f, hf, k, u, hbegin, hrecord⟩ := hb
  rw [code_report hv hk, hf]
  exact hrecord.code_eq hwf (hbegin.fits (.inr ⟨rfl, rfl, rfl⟩)) hstart

end

/-- if the start rule is no mere term, the code of the report of an error that says what was expected
says what recorded the failure: a token, a literal, or a rule without a production; a failure without
a code is none at all.  A start rule that is a mere term has no production either and it alone is
blamed, but the report has another code then -/
theorem code_names_origin (p : Parser) (start : RuleId) {steps : List Step}
    (hg : p.grammar = build steps) {e : ParseError} (hv : (p.parse start).2 = .rejected e)
    (hk : e.SaysExpected) :
    (¬ p.grammar.IsTermOnly start →
      ((p.report e).code = .expectedToken ↔ p.Blames start .token) ∧
      ((p.report e).code = .expectedText ↔ p.Blames start .literal) ∧
      ((p.report e).code = .unresolvedRule ↔ p.Blames start .unresolved) ∧
      ((p.report e).code = .unknown ↔ (p.parse start).1.failure = none)) ∧
    (p.grammar.IsTermOnly start →
      (∀ o, p.Blames start o ↔ o = .unresolved) ∧ (p.report e).code ≠ .unresolvedRule) := by
  constructor
  · intro hstart
    have he : (p.parse start).2 ≠ .endless := p.ends_of_rejected start hv
    have hcode : ∀ o, p.Blames start o → (p.report e).code = o.code ∧ o ≠ .noTerm :=
      fun o hb => code_of_blames hg hstart hv hk hb
    have hnone : (p.parse start).1.failure = none → (p.report e).code = Origin.noTerm.code := by
      intro hf
      rw [code_report hv hk, hf]
      rfl
    have hiff : ∀ o : Origin, o ≠ .noTerm → ((p.report e).code = o.code ↔ p.Blames start o) := by
      refine fun o ho => ⟨fun hc => ?_, fun hb => (hcode o hb).1⟩
      cases hf : (p.parse start).1.failure with
      | none => exact absurd (Origin.code_injective (hc.symm.trans (hnone hf))) ho
      | some f =>
        obtain ⟨o', hb⟩ := blames_of_failure he hf
        obtain rfl := Origin.code_injective (hc.symm.trans (hcode o' hb).1)
        exact hb
    refine ⟨hiff .token nofun, hiff .literal nofun, hiff .unresolved nofun, fun hc => ?_, hnone⟩
    cases hf : (p.parse start).1.failure with
    | none => rfl
    | some f =>
      obtain ⟨o, hb⟩ := blames_of_failure he hf
      have ho : o = .noTerm := Origin.code_injective ((hcode o hb).1.symm.trans hc)
      exact absurd ho (hcode o hb).2
  · intro hterm
    have hf := (blames_iff_of_isTermOnly (o := .unresolved) hterm).2
    refine ⟨fun o => (blames_iff_of_isTermOnly hterm).1, ?_⟩
    obtain ⟨n, hn, hrule, href⟩ := hterm
    rw [code_report hv hk, hf, Option.map_some, Option.getD_some, Report.describe, hn]
    cases n with
    | rule => cases hrule
    | reference target o => exact absurd rfl (href target o)
    | _ => exact nofun

open Grammar in
/-- `s = t "b" | "a"` and `t = "a" digit` match only the first `a` of `aab`, and the furthest failure
is that of the digit at the second one -/
theorem code_names_origin_token :
    let g := Grammar.build [.rule "s", .rule "t", .alternation, .concatenation, .reference 1 .one,
      .literal "b" .one, .literal "a" .one, .attach 3 4, .attach 3 5, .attach 2 3, .attach 2 6,
      .attach 0 2, .concatenation, .literal "a" .one, .token ⟨1⟩ .one, .attach 7 8, .attach 7 9,
      .attach 1 7]
    let p : Parser := { source := .ofText "aab" "input" 0 {}, grammar := g }
    let e : ParseError := ⟨.trailingInput 1 3, 1, some ⟨1, 1, 9⟩⟩
    (p.parse 0).2 = .rejected e ∧ (p.report e).code = .expectedToken ∧ p.Blames 0 .token ∧
    ¬ p.Blames 0 .literal := by
  intro g p e
  have hg : p.grammar = g := rfl
  have hv : (p.parse 0).2 = .rejected e := by decide +kernel
  have hcode : (p.report e).code = .expectedToken := by decide +kernel
  have hrule : 0 ∈ g.rules := by decide +kernel
  have hstart : ¬ p.grammar.IsTermOnly 0 := by
    rintro ⟨n, hn, hno, _⟩
    obtain ⟨_, _, hs⟩ := mem_rules.mp hrule
    obtain rfl := Option.some.inj (hs.symm.trans hn)
    cases hno
  obtain ⟨htoken, hliteral, _⟩ :=
    (code_names_origin p 0 hg hv (.inr ⟨⟨1, 3, rfl⟩, rfl⟩)).1 hstart
  refine ⟨hv, hcode, htoken.mp hcode, fun hb => ?_⟩
  have htext := hliteral.mpr hb
  rw [hcode] at htext
  cases htext

open Grammar in
/-- a digit as the start rule is no rule, and is blamed for that; but the report says that a digit
was expected -/
theorem code_hides_origin :
    let p : Parser :=
      { source := .ofText "x" "input" 0 {}, grammar := Grammar.build [.token ⟨1⟩ .one] }
    let e : ParseError := ⟨.noMatch, 0, some ⟨0, 0, 0⟩⟩
    (p.parse 0).2 = .rejected e ∧ p.Blames 0 .unresolved ∧ ¬ p.Blames 0 .token ∧
    (p.report e).code = .expectedToken := by
  intro p e
  have hv : (p.parse 0).2 = .rejected e := by decide +kernel
  have hcode : (p.report e).code = .expectedToken := by decide +kernel
  have hterm : p.grammar.IsTermOnly 0 := ⟨.token ⟨1⟩ .one, by decide +kernel, rfl, nofun⟩
  refine ⟨hv, (blames_iff_of_isTermOnly hterm).1.mpr rfl, fun hb => ?_, hcode⟩
  cases (blames_iff_of_isTermOnly hterm).1.mp hb

end Parser

end Ebnf
