import Ebnf.Proofs.Failure.Truthful
import Ebnf.Proofs.Matching.Course
import Ebnf.Proofs.Matching.Grouping
import Ebnf.Proofs.Reference.Attempts
import Ebnf.Proofs.Reference.Soundness

/-!
# The record is the last of the furthest failures

Every leaf that fails is offered to the record, whether or not the attempt that it belongs to is undone
later.  So a run records of all the leaves that the grammar tries the furthest one, and of several
that lie equally far the last.

* `Failure.recordAll`      offers failures one after the other;
* `Failure.IsLastFurthest` none lies further, and none behind it in the list equally far;
* `recordAll_eq_some`, `recordAll_eq_none`   what is recorded of a list;
* `Job.subject`            the term that a job stands for;
* `Yields.tried`           a run offers the leaves that its phrase tries, in their order;
* `failure_last_furthest`  what that says of parses.
-/

namespace Ebnf

open Grammar Matching Reference

/-! ## what is recorded of a list -/

namespace Failure

def recordAll (best : Option Failure) (fs : List Failure) : Option Failure :=
  fs.foldl (fun best f => some (furthest best f)) best

/-- `f` lies as far into the input as any of the failures, and is the last of those that do -/
def IsLastFurthest (f : Failure) (fs : List Failure) : Prop :=
  ∃ before after, fs = before ++ f :: after ∧ (∀ f' ∈ before, f'.token ≤ f.token) ∧
    ∀ f' ∈ after, f'.token < f.token

variable {best : Option Failure} {f g : Failure} {fs fs' : List Failure}

@[simp] theorem recordAll_nil : recordAll best [] = best := rfl

theorem recordAll_singleton : recordAll best [f] = some (furthest best f) := rfl

theorem recordAll_append : recordAll best (fs ++ fs') = recordAll (recordAll best fs) fs' :=
  List.foldl_append

theorem IsLastFurthest.token_le (h : f.IsLastFurthest fs) (hg : g ∈ fs) : g.token ≤ f.token := by
  obtain ⟨before, after, rfl, hbefore, hafter⟩ := h
  rcases List.mem_append.mp hg with hg | hg
  · exact hbefore g hg
  · rcases List.mem_cons.mp hg with rfl | hg
    · exact Nat.le_refl _
    · exact Nat.le_of_lt (hafter g hg)

/-- one more failure, which lies further or equally far, or does not -/
theorem IsLastFurthest.snoc (h : f.IsLastFurthest fs) (g : Failure) :
    (furthest (some f) g).IsLastFurthest (fs ++ [g]) := by
  unfold furthest
  dsimp only
  by_cases hlt : g.token < f.token
  · rw [if_pos hlt]
    obtain ⟨before, after, rfl, hbefore, hafter⟩ := h
    refine ⟨before, after ++ [g], by rw [List.append_assoc, List.cons_append], hbefore, ?_⟩
    intro f' hf'
    rcases List.mem_append.mp hf' with hf' | hf'
    · exact hafter f' hf'
    · rw [List.mem_singleton.mp hf']
      exact hlt
  · rw [if_neg hlt]
    have hle : ∀ f' ∈ fs, f'.token ≤ g.token :=
      fun f' hf' => Nat.le_trans (h.token_le hf') (Nat.le_of_not_lt hlt)
    exact ⟨fs, [], rfl, hle, nofun⟩

theorem recordAll_cases (fs : List Failure) :
    (fs = [] ∧ recordAll none fs = none) ∨
      ∃ f, recordAll none fs = some f ∧ f.IsLastFurthest fs := by
  induction fs using List.reverseRecOn with
  | nil => exact .inl ⟨rfl, rfl⟩
  | append_singleton fs g ih =>
    rw [recordAll_append, recordAll_singleton]
    rcases ih with ⟨rfl, e⟩ | ⟨f, e, hf⟩
    · rw [e]
      exact .inr ⟨g, rfl, [], [], rfl, nofun, nofun⟩
    · rw [e]
      exact .inr ⟨_, rfl, hf.snoc g⟩

theorem recordAll_eq_none : recordAll none fs = none ↔ fs = [] := by
  rcases recordAll_cases fs with ⟨rfl, e⟩ | ⟨f, e, before, after, rfl, _⟩
  · exact iff_of_true e rfl
  · rw [e]
    exact iff_of_false nofun (List.append_ne_nil_of_right_ne_nil _ (List.cons_ne_nil _ _))

theorem recordAll_eq_some (h : recordAll none fs = some f) : f.IsLastFurthest fs := by
  rcases recordAll_cases fs with ⟨rfl, e⟩ | ⟨f', e, hf⟩
  · cases h
  · obtain rfl := Option.some.inj (h.symm.trans e)
    exact hf

end Failure

/-! ## what a run offers -/

namespace Matching

/-- the term that the job stands for, `t` if it has none of its own -/
def Job.subject (t : TermId) : Job → TermId
  | .rounds u _ => u
  | .more u _ _ => u
  | .single u _ => u
  | .once u _ => u
  | .nested j => j.subject t
  | .under u _ => u
  | .body u _ => u
  | _ => t

section
variable {c : Setting} {start : RuleId} {h : Nat} {j : Job} {s : State} {r : Attempt}

theorem failure_of_leaf {t : TermId} {o : Outcome} (ho : r.outcome? = some o)
    (hr : (∃ s', r = .matched s' ∧ s'.failure = s.failure) ∨ r = miss s t) :
    r.state.failure = Failure.recordAll s.failure (o.blame ⟨s.rule, s.pos, t⟩) := by
  rcases hr with ⟨s', rfl, hs⟩ | rfl
  · obtain rfl := Option.some.inj ho
    exact hs
  · obtain rfl := Option.some.inj ho
    rfl

theorem failure_token (t : TermId) (m : Mask) : (token c t m s).state.failure =
    Failure.recordAll s.failure ((tokenAt c.source m s.pos).blame ⟨s.rule, s.pos, t⟩) := by
  refine failure_of_leaf (outcome?_token t m) ?_
  rcases token_cases c t m s with ⟨_, _, e⟩ | ⟨_, _, e⟩ | ⟨_, _, e⟩
  · exact .inl ⟨_, e, rfl⟩
  · exact .inl ⟨_, e, rfl⟩
  · exact .inr e

theorem failure_literal (t : TermId) (text : String) (hs : s.pos ≤ c.source.size) :
    (literal c t text s).state.failure = Failure.recordAll s.failure
      ((literalAt c.source (Utf8.encode text) s.pos).blame ⟨s.rule, s.pos, t⟩) := by
  refine failure_of_leaf (outcome?_literal t text hs) ?_
  rcases literal_cases c t text s with ⟨_, _, e⟩ | ⟨_, e⟩
  · exact .inl ⟨_, e, rfl⟩
  · exact .inr e

/-- on the way to the outcome, the phrase of the job tries leaves that are recorded in `s'` -/
def AttemptsFrom (c : Setting) (j : Job) (s : State) (o : Outcome) (s' : State) : Prop :=
  ∀ t, ∃ fs, Attempts c.source c.grammar s.rule (j.subject t) j.phrase s.pos o fs ∧
    s'.failure = Failure.recordAll s.failure fs

theorem AttemptsFrom.wrap {k : Job} {s' u u' : State} {o o' : Outcome} (h : AttemptsFrom c j s' o u)
    (hk : ∀ {t fs}, Attempts c.source c.grammar s'.rule (j.subject t) j.phrase s'.pos o fs →
      Attempts c.source c.grammar s.rule (k.subject t) k.phrase s.pos o' fs)
    (hs : s'.failure = s.failure) (hu : u'.failure = u.failure) : AttemptsFrom c k s o' u' := by
  intro t
  obtain ⟨fs, htries, e⟩ := h t
  exact ⟨fs, hk htries, by rw [hu, e, hs]⟩

theorem AttemptsFrom.then {k l : Job} {s' u : State} {o o' o'' : Outcome} (h : AttemptsFrom c j s o s')
    (h' : AttemptsFrom c k s' o' u)
    (hl : ∀ {t fs fs'}, Attempts c.source c.grammar s.rule (j.subject t) j.phrase s.pos o fs →
      Attempts c.source c.grammar s'.rule (k.subject t) k.phrase s'.pos o' fs' →
      Attempts c.source c.grammar s.rule (l.subject t) l.phrase s.pos o'' (fs ++ fs')) :
    AttemptsFrom c l s o'' u := by
  intro t
  obtain ⟨fs, htries, e⟩ := h t
  obtain ⟨fs', htries', e'⟩ := h' t
  exact ⟨fs ++ fs', hl htries htries', by rw [Failure.recordAll_append, ← e, e']⟩

/-- a run that does not meet the limit offers to the record what its phrase tries -/
theorem Yields.tried (hg : c.grammar.WellFormed) (hy : Yields c h j s r)
    (hj : j.Fits c.grammar start s.rule) (hs : s.pos ≤ c.source.size) {o : Outcome}
    (ho : r.outcome? = some o) : AttemptsFrom c j s o r.state := by
  induction hy generalizing o with
  | missing hn =>
    obtain ⟨n, hn', _⟩ := hg.isTerm hj
    cases hn.symm.trans hn'
  | @taken _ u n _ r hn _ hopt ih =>
    have hr := ih ⟨hj, hn⟩ hs ho
    cases o with
    | ends j => exact hr.wrap (.matched hn) rfl rfl
    | fails =>
      obtain ⟨s', rfl⟩ := Attempt.eq_mismatch_of_outcome? ho
      exact hr.wrap (.failed hn (Bool.eq_false_iff.mpr fun h => hopt h s' rfl)) rfl rfl
  | @skipped _ _ n s s' hn hopt hr ih =>
    cases ho
    rw [hr.restored_of_rounds.1]
    exact (ih ⟨hj, hn⟩ hs rfl).wrap (.skipped hn hopt) rfl rfl
  | justOne hrep _ ih =>
    have hr := ih hj hs ho
    cases o with
    | ends j => exact hr.wrap (.justOne hrep) rfl rfl
    | fails => exact hr.wrap .noneAtAll rfl rfl
  | noneAtAll _ _ ih =>
    obtain ⟨rfl, rfl⟩ := Attempt.outcome?_stopped ho
    exact (ih hj hs rfl).wrap .noneAtAll rfl rfl
  | oneAndMore hrep hr _ ih ihm =>
    have hmore := ihm (hr.frame.rule ▸ hj) (hr.frame.pos_le hs) ho
    exact (ih hj hs rfl).then hmore fun h hm => .oneAndMore hrep h (hr.frame.rule ▸ hm)
  | idle hle =>
    cases ho
    exact fun t => ⟨[], .idle hle, rfl⟩
  | another hlt hr _ ih ihm =>
    have hmore := ihm (hr.frame.rule ▸ hj) (hr.frame.pos_le hs) ho
    exact (ih hj hs rfl).then hmore fun h hm => .another hlt h (hr.frame.rule ▸ hm)
  | @enough _ _ n start s s' hlt hr ih =>
    -- the failed round is given back, but what it tried stays recorded
    cases ho
    rw [hr.restored_of_single.1]
    exact (ih hj hs rfl).wrap (.enough hlt) rfl rfl
  | cutShort => cases ho
  | kept _ ih => exact (ih hj hs ho).wrap id rfl rfl
  | undone _ ih =>
    obtain ⟨rfl, rfl⟩ := Attempt.outcome?_stopped ho
    exact (ih hj hs rfl).wrap id rfl rfl
  | ruleAsTerm =>
    obtain ⟨n, hn', hterm⟩ := hg.isTerm hj.1
    obtain rfl := Option.some.inj (hj.2.symm.trans hn')
    cases hterm
  | reference _ ih => exact (ih ⟨hj.1, _, hj.2⟩ hs ho).wrap .reference rfl rfl
  | token =>
    rw [outcome?_token] at ho
    obtain rfl := Option.some.inj ho
    exact fun _ => ⟨_, .token, failure_token _ _⟩
  | literal =>
    rw [outcome?_literal _ _ hs] at ho
    obtain rfl := Option.some.inj ho
    exact fun _ => ⟨_, .literal, failure_literal _ _ hs⟩
  | @alternation _ u _ _ _ _ ih =>
    have hr := ih (fun v hv => hj.1.of_node hj.2 hv) hs ho u
    exact fun _ => hr.imp fun fs hfs => ⟨.alternation hfs.1, hfs.2⟩
  | @concatenation _ u _ _ _ _ ih =>
    have hr := ih (fun v hv => hj.1.of_node hj.2 hv) hs ho u
    exact fun _ => hr.imp fun fs hfs => ⟨.concatenation hfs.1, hfs.2⟩
  | @group _ u _ _ _ _ _ ih =>
    have hr := ih (fun v hv => hj.1.of_node hj.2 hv) hs ho u
    exact fun _ => hr.imp fun fs hfs => ⟨.group hfs.1, hfs.2⟩
  | tooDeep => cases ho
  | deeper _ _ ih =>
    rw [Attempt.state_map]
    refine AttemptsFrom.wrap (ih hj hs ?_) id rfl rfl
    rwa [Attempt.outcome?_map] at ho
    exact fun _ => rfl
  | allDone =>
    cases ho
    exact fun _ => ⟨[], .allDone, rfl⟩
  | nextOne ht _ iht ih =>
    have hrest := fun u hu => hj u (List.mem_cons_of_mem _ hu)
    have hr := ih (ht.frame.rule ▸ hrest) (ht.frame.pos_le hs) ho
    have hhead := iht (hj _ List.mem_cons_self) hs rfl
    exact hhead.then hr fun h hr => .nextOne h (ht.frame.rule ▸ hr)
  | broken _ ih =>
    obtain ⟨rfl, rfl⟩ := Attempt.outcome?_stopped ho
    exact (ih (hj _ List.mem_cons_self) hs rfl).wrap .broken rfl rfl
  | noneLeft =>
    cases ho
    exact fun _ => ⟨[], .noneLeft, rfl⟩
  | chosen _ ih =>
    cases ho
    exact (ih (hj _ List.mem_cons_self) hs rfl).wrap .chosen rfl rfl
  | otherwise ht _ iht ih =>
    have hrest := fun u hu => hj u (List.mem_cons_of_mem _ hu)
    have hr := ih (ht.frame.rule ▸ hrest) (ht.frame.pos_le hs) ho
    have hhead := iht (hj _ List.mem_cons_self) hs rfl
    refine hhead.then hr fun h hr => .otherwise h ?_
    rw [← ht.restored_of_mismatch.1, ← ht.frame.rule]
    exact hr
  | givenUp => cases ho
  | under _ ih =>
    rw [Attempt.outcome?_leave] at ho
    exact (ih (.inl hj) hs ho).wrap id rfl (failure_leave ..)
  | production hn _ ih =>
    -- inside the production its own rule is the current one
    have hp := production?_of_node? hn
    rw [Attempt.state_map]
    rw [Attempt.outcome?_map fun _ => by rfl] at ho
    have hr := ih (inProduction_of_production hp) hs ho
    exact fun _ => (hr _).imp fun fs hfs => ⟨.production hp hfs.1, hfs.2⟩
  | noProduction hn =>
    cases ho
    exact fun _ => ⟨_, .noProduction (production?_of_node? hn), rfl⟩
  | notARule hn =>
    cases ho
    exact fun _ => ⟨_, .noProduction (production?_eq_none hn), rfl⟩

end

end Matching

/-! ## parses -/

namespace Parser

def parses (p : Parser) (starts : List RuleId) : Parser :=
  starts.foldl (fun q start => (q.parse start).1) p

theorem setting_parses (p : Parser) (starts : List RuleId) : (p.parses starts).setting = p.setting := by
  induction starts generalizing p with
  | nil => rfl
  | cons start starts ih => exact (ih _).trans (p.setting_parse start)

theorem failure_parses (p : Parser) (earlier : List RuleId) {start : RuleId}
    (hl : ¬ (p.parse start).2.Limited) :
    ((p.parses earlier).parse start).1.failure = (p.parse start).1.failure := by
  have hset := p.setting_parses earlier
  have hg : (p.parses earlier).grammar = p.grammar := congrArg Setting.grammar hset
  have hr := outcome_follows (p := p.parses earlier) (q := p) (by rw [hg]; exact .refl _)
    (by rw [hset]; rfl) start
  exact (state_follows hr (mt (p.limited_iff start).mpr hl)).failure

/-- in a grammar that is built by calls, a parse that ends without meeting the limit records the last
of the furthest leaves that fail on the way to its outcome, and nothing just if none fails.  At no
moment of its course is a failure recorded that lies further than what is recorded later, be it undone
in between or not, and the parses before it do not matter -/
theorem failure_last_furthest (p : Parser) (start : RuleId) {steps : List Step}
    (hg : p.grammar = build steps) (he : (p.parse start).2 ≠ .endless)
    (hl : ¬ (p.parse start).2.Limited) :
    (∃ o fs, Attempts p.source p.grammar start start (.rule start) 0 o fs ∧
      (∀ o' fs', Attempts p.source p.grammar start start (.rule start) 0 o' fs' → o' = o ∧ fs' = fs) ∧
      ((p.parse start).1.failure = none ↔ fs = []) ∧
      ∀ f, (p.parse start).1.failure = some f → f.IsLastFurthest fs) ∧
    (∀ k u h r v, Begins p.setting (.body start start) (p.first start) k u →
      Yields p.setting h k u r → Passes p.setting k u v → ∀ f, v.failure = some f →
      ∃ f', r.state.failure = some f' ∧ f.token ≤ f'.token) ∧
    ∀ earlier, ((p.parses earlier).parse start).1.failure = (p.parse start).1.failure := by
  refine ⟨?_, fun k u h r v _ hy hp => (hp.gains hy).failure, fun earlier => failure_parses p earlier hl⟩
  have hwf : p.setting.grammar.WellFormed := by
    show p.grammar.WellFormed
    rw [hg]
    exact build_wellFormed steps
  obtain ⟨o, ho⟩ : ∃ o, (p.outcome start).outcome? = some o := by
    rw [ends_iff] at he
    rw [limited_iff] at hl
    cases hr : p.outcome start with
    | matched s => exact ⟨_, rfl⟩
    | stopped why s =>
      rw [hr] at he hl
      cases why with
      | mismatch => exact ⟨_, rfl⟩
      | limit => exact absurd trivial hl
      | endless => exact he.elim
  obtain ⟨h, hy⟩ := p.yields_outcome start he
  have hfits : (Job.body start start).Fits p.setting.grammar start (p.first start).rule :=
    .inr ⟨rfl, rfl, rfl⟩
  obtain ⟨fs, htries, hf⟩ := hy.tried hwf hfits (Nat.zero_le _) ho start
  have hf : (p.parse start).1.failure = Failure.recordAll none fs := hf
  refine ⟨o, fs, htries, fun o' fs' h' => h'.unique htries, ?_, fun f h' => ?_⟩
  · rw [hf]
    exact Failure.recordAll_eq_none
  · exact Failure.recordAll_eq_some (hf.symm.trans h')

/-- `s = "a" "b" ? "c" | "a" "d"` tries `b`, `c` and `d` at the `e` of `ae`, and records the last of
them; it does so also after a parse of `t = "a" "e" "c"`, which records a failure further on -/
theorem failure_last_furthest_tie :
    let steps : List Step := [.rule "s", .alternation, .concatenation, .literal "a" .one,
      .literal "b" .optional, .literal "c" .one, .concatenation, .literal "d" .one, .rule "t",
      .concatenation, .literal "e" .one, .attach 2 3, .attach 2 4, .attach 2 5, .attach 6 3,
      .attach 6 7, .attach 1 2, .attach 1 6, .attach 0 1, .attach 9 3, .attach 9 10, .attach 9 5,
      .attach 8 9]
    let p : Parser := { source := .ofText "ae" "input" 0 {}, grammar := build steps }
    let fs : List Failure := [⟨0, 1, 4⟩, ⟨0, 1, 5⟩, ⟨0, 1, 7⟩]
    (p.parse 0).2 = .rejected ⟨.noMatch, 1, some ⟨0, 1, 7⟩⟩ ∧
    Attempts p.source p.grammar 0 0 (.rule 0) 0 .fails fs ∧ (⟨0, 1, 7⟩ : Failure).IsLastFurthest fs ∧
    (p.parse 8).1.failure = some ⟨8, 2, 5⟩ ∧
    ((p.parses [8]).parse 0).1.failure = some ⟨0, 1, 7⟩ := by
  intro steps p fs
  have hg : p.grammar = build steps := rfl
  have hv : (p.parse 0).2 = .rejected ⟨.noMatch, 1, some ⟨0, 1, 7⟩⟩ := by decide +kernel
  have hf : (p.parse 0).1.failure = some ⟨0, 1, 7⟩ := by decide +kernel
  have hearlier : (p.parse 8).1.failure = some ⟨8, 2, 5⟩ := by decide +kernel
  have he : (p.parse 0).2 ≠ .endless := by
    rw [hv]
    exact fun he => by cases he
  have hl : ¬ (p.parse 0).2.Limited := by
    rintro ⟨_, _, _, hlim⟩
    rw [hv] at hlim
    cases congrArg ParseError.kind (Verdict.rejected.inj hlim)
  have ha : ∀ t, Attempts p.source p.grammar 0 t (.term 3) 0 (.ends 1) [] :=
    fun _ => .matched (n := .literal ⟨1, 1⟩ .one) (by decide +kernel)
      (.justOne (by decide) (.of_literal (by decide +kernel)))
  have hb : ∀ t, Attempts p.source p.grammar 0 t (.term 4) 1 (.ends 1) [⟨0, 1, 4⟩] :=
    fun _ => .skipped (n := .literal ⟨2, 1⟩ .optional) (by decide +kernel) (by decide)
      (.noneAtAll (.of_literal (by decide +kernel)))
  have hc : ∀ t, Attempts p.source p.grammar 0 t (.term 5) 1 .fails [⟨0, 1, 5⟩] :=
    fun _ => .failed (n := .literal ⟨3, 1⟩ .one) (by decide +kernel) (by decide)
      (.noneAtAll (.of_literal (by decide +kernel)))
  have hd : ∀ t, Attempts p.source p.grammar 0 t (.term 7) 1 .fails [⟨0, 1, 7⟩] :=
    fun _ => .failed (n := .literal ⟨4, 1⟩ .one) (by decide +kernel) (by decide)
      (.noneAtAll (.of_literal (by decide +kernel)))
  have habc : ∀ t, Attempts p.source p.grammar 0 t (.term 2) 0 .fails [⟨0, 1, 4⟩, ⟨0, 1, 5⟩] :=
    fun _ => .failed (n := .concatenation [3, 4, 5]) (by decide +kernel) (by decide)
      (.noneAtAll (.concatenation (.nextOne (ha _) (.nextOne (hb _) (.broken (hc _))))))
  have had : ∀ t, Attempts p.source p.grammar 0 t (.term 6) 0 .fails [⟨0, 1, 7⟩] :=
    fun _ => .failed (n := .concatenation [3, 7]) (by decide +kernel) (by decide)
      (.noneAtAll (.concatenation (.nextOne (ha _) (.broken (hd _)))))
  have hs : Attempts p.source p.grammar 0 0 (.rule 0) 0 .fails fs :=
    .production (p := 1) (by decide +kernel) (.failed (n := .alternation [2, 6]) (by decide +kernel)
      (by decide) (.noneAtAll (.alternation (.otherwise (habc _) (.otherwise (had _) .noneLeft)))))
  obtain ⟨⟨o, fs', htries, _, _, hlast⟩, _, hafter⟩ := failure_last_furthest p 0 hg he hl
  obtain ⟨_, rfl⟩ := hs.unique htries
  exact ⟨hv, hs, hlast _ hf, hearlier, (hafter [8]).trans hf⟩

end Parser

end Ebnf
