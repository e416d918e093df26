import Mathlib.Order.Bounds.Defs
import Ebnf.Proofs.Matching.Bound

/-!
# The course of a run

A run is more than its outcome: it begins jobs inside of jobs, and much of what these do is undone.

* `Calls`             a job begins another one directly, in the state it has come to;
* `Begins`            the jobs that are begun in the course of a run, with the state of each;
* `Passes`            the states in which the jobs of a run begin and end, undone or not;
* `State.Gains`       the peak and the recorded failure, which are never undone, have only grown;
* `Calls.yields`      in a run that ends, each job that is begun ends;
* `Yields.climbs`, `Passes.gains`   a run gains, up to whatever it passes and from there to its end;
* `Passes.pos_le_peak`, `Yields.attains`   the peak bounds the places that are passed, and is one of
                      them;
* `isGreatest_peak`   so it is the largest of them.
-/

namespace Ebnf.Matching

/-- `j`, begun in `s`, begins `k` in the state at its end -/
inductive Calls (c : Setting) : Job → State → Job → State → Prop where
  | rounds {t n s} (hn : c.grammar.node? t = some n) : Calls c (.term t) s (.rounds t n) s
  | first {t n s} : Calls c (.rounds t n) s (.single t n) s
  | follow {h t n s s'} (hn : n.occurrence.isRepeated = true)
      (hr : Yields c h (.single t n) s (.matched s')) :
      Calls c (.rounds t n) s (.more t n s.pos) s'
  | another {t n start s} (hs : start < s.pos) : Calls c (.more t n start) s (.single t n) s
  | further {h t n start s s'} (hs : start < s.pos)
      (hr : Yields c h (.single t n) s (.matched s')) :
      Calls c (.more t n start) s (.more t n s.pos) s'
  | once {t n s} : Calls c (.single t n) s (.once t n) s
  | reference {t target o s} :
      Calls c (.once t (.reference target o)) s (.nested (.under t target)) s
  | alternation {t ts s} : Calls c (.once t (.alternation ts)) s (.firstOf ts) s
  | concatenation {t ts s} : Calls c (.once t (.concatenation ts)) s (.inOrder ts) s
  | group {t ts o s} : Calls c (.once t (.group ts o)) s (.nested (.inOrder ts)) s
  | deeper {j s} (hd : s.depth < c.maxDepth) : Calls c (.nested j) s j s.deeper
  | head {t ts s} : Calls c (.inOrder (t :: ts)) s (.term t) s
  | tail {h t ts s s'} (ht : Yields c h (.term t) s (.matched s')) :
      Calls c (.inOrder (t :: ts)) s (.inOrder ts) s'
  | choice {t ts s} : Calls c (.firstOf (t :: ts)) s (.term t) s
  | otherwise {h t ts s s'} (ht : Yields c h (.term t) s (.stopped .mismatch s')) :
      Calls c (.firstOf (t :: ts)) s (.firstOf ts) s'
  | body {t rule s} :
      Calls c (.under t rule) s (.body t rule) (s.opened rule (some t) (some s.parent))
  | production {t rule name production s}
      (hn : c.grammar.node? rule = some (.rule name (some production))) :
      Calls c (.body t rule) s (.term production)
        ((s.say (.enterRule (c.grammar.text name) s.pos)).withRule rule)

/-- in the course of `j`, begun in `s`, the job `k` is begun in the state at the end -/
inductive Begins (c : Setting) : Job → State → (k : Job) → State → Prop where
  | start {j s} : Begins c j s j s
  | inside {j s k s' l u} (hc : Calls c j s k s') (hb : Begins c k s' l u) : Begins c j s l u

/-- in the course of `j`, begun in `s`, some job begins or ends in the state at the end -/
inductive Passes (c : Setting) : Job → State → State → Prop where
  | start {j s} : Passes c j s s
  | stop {h j s r} (hy : Yields c h j s r) : Passes c j s r.state
  | inside {j s k s' u} (hc : Calls c j s k s') (hp : Passes c k s' u) : Passes c j s u

section
variable {c : Setting} {h : Nat} {j k : Job} {s s' u : State} {r : Attempt}

theorem Begins.passes (hb : Begins c j s k u) : Passes c j s u := by
  induction hb with
  | start => exact .start
  | inside hc _ ih => exact .inside hc ih

theorem Calls.forth (hc : Calls c j s k s') : s.pos ≤ s'.pos := by
  cases hc with
  | follow _ hr => exact hr.frame.forth
  | further _ hr => exact hr.frame.forth
  | tail ht => exact ht.frame.forth
  | otherwise ht => exact ht.frame.forth
  | _ => exact Nat.le_refl _

theorem Begins.forth (hb : Begins c j s k u) : s.pos ≤ u.pos := by
  induction hb with
  | start => exact Nat.le_refl _
  | inside hc _ ih => exact Nat.le_trans hc.forth ih

theorem Calls.pos_le (hc : Calls c j s k s') (hs : s.pos ≤ c.source.size) :
    s'.pos ≤ c.source.size := by
  cases hc with
  | follow _ hr => exact hr.frame.pos_le hs
  | further _ hr => exact hr.frame.pos_le hs
  | tail ht => exact ht.frame.pos_le hs
  | otherwise ht => exact ht.frame.pos_le hs
  | _ => exact hs

theorem Passes.pos_le (hp : Passes c j s u) (hs : s.pos ≤ c.source.size) :
    u.pos ≤ c.source.size := by
  induction hp with
  | start => exact hs
  | stop hy => exact hy.frame.pos_le hs
  | inside hc _ ih => exact ih (hc.pos_le hs)

/-! ## what only grows -/

def State.BelowPeak (s : State) : Prop := s.pos ≤ s.peak.pos

theorem peak_leave (c : Setting) (m : Mark) (outer : NodeId) (r : Attempt) :
    (leave c m outer r).state.peak = r.state.peak := by
  cases r <;> rfl

theorem failure_leave (c : Setting) (m : Mark) (outer : NodeId) (r : Attempt) :
    (leave c m outer r).state.failure = r.state.failure := by
  cases r <;> rfl

theorem pos_leave (c : Setting) (m : Mark) (outer : NodeId) (r : Attempt) :
    (leave c m outer r).state.pos = r.state.pos := by
  cases r <;> rfl

/-- what is never undone is no less in `s'` than in `s`: the peak, and how far the recorded failure
lies into the input -/
structure State.Gains (s s' : State) : Prop where
  peak : s.peak.pos ≤ s'.peak.pos
  failure : ∀ f, s.failure = some f → ∃ f', s'.failure = some f' ∧ f.token ≤ f'.token

theorem State.Gains.of_eq (hp : s'.peak.pos = s.peak.pos) (hf : s'.failure = s.failure) :
    s.Gains s' :=
  ⟨Nat.le_of_eq hp.symm, fun f e => ⟨f, hf.trans e, Nat.le_refl _⟩⟩

theorem State.Gains.refl (s : State) : s.Gains s := .of_eq rfl rfl

theorem State.Gains.trans (h : s.Gains s') (h' : s'.Gains u) : s.Gains u := by
  refine ⟨Nat.le_trans h.peak h'.peak, fun f hf => ?_⟩
  obtain ⟨f', hf', hle⟩ := h.failure f hf
  obtain ⟨f'', hf'', hle'⟩ := h'.failure f' hf'
  exact ⟨f'', hf'', Nat.le_trans hle hle'⟩

theorem gains_leave (c : Setting) (m : Mark) (outer : NodeId) (r : Attempt) :
    r.state.Gains (leave c m outer r).state :=
  .of_eq (congrArg Peak.pos (peak_leave ..)) (failure_leave ..)

/-- a run gains, and its peak bounds the place after it if it did so before -/
structure Climbs (s s' : State) : Prop extends s.Gains s' where
  below : s.BelowPeak → s'.BelowPeak

theorem Climbs.refl (s : State) : Climbs s s := ⟨.refl s, id⟩

theorem Climbs.trans (h : Climbs s s') (h' : Climbs s' u) : Climbs s u :=
  ⟨h.toGains.trans h'.toGains, fun hs => h'.below (h.below hs)⟩

theorem climbs_miss (s : State) (t : TermId) : Climbs s (miss s t).state := by
  refine ⟨⟨Nat.le_refl _, fun f hf => ⟨_, rfl, ?_⟩⟩, id⟩
  rw [hf]
  exact Failure.token_le_furthest f _

theorem climbs_say (s : State) (e : Event) : Climbs s (s.say e) := ⟨.of_eq rfl rfl, id⟩

theorem climbs_leaf {kind : Tree.Kind} {t : TermId} {stop : Nat} {span : Span} :
    Climbs s (s.leaf kind t stop span) :=
  ⟨⟨Nat.le_max_left _ _, (State.Gains.refl s).failure⟩, fun _ => Nat.le_max_right _ _⟩

theorem climbs_token (t : TermId) (m : Mask) : Climbs s (token c t m s).state := by
  rcases token_cases c t m s with ⟨_, _, e⟩ | ⟨_, _, e⟩ | ⟨_, _, e⟩ <;> rw [e]
  · exact Climbs.refl s
  · exact climbs_leaf
  · exact climbs_miss s t

theorem climbs_literal (t : TermId) (x : String) : Climbs s (literal c t x s).state := by
  rcases literal_cases c t x s with ⟨stop, _, e⟩ | ⟨_, e⟩ <;> rw [e]
  · exact climbs_leaf
  · exact climbs_miss s t

theorem Climbs.reset (h : Climbs s s') : Climbs s (s'.reset s.mark) :=
  ⟨⟨h.peak, h.failure⟩, fun hs => Nat.le_trans hs h.peak⟩

theorem Yields.climbs (hy : Yields c h j s r) : Climbs s r.state := by
  induction hy with
  | taken _ _ _ ih => exact ih
  | skipped _ _ _ ih => exact ih
  | justOne _ _ ih => exact ih
  | noneAtAll _ _ ih => exact ih
  | oneAndMore _ _ _ ih ihm => exact ih.trans ihm
  | another _ _ _ ih ihm => exact ih.trans ihm
  | enough _ _ ih => exact ih
  | cutShort _ _ ih => exact ih
  | kept _ ih => exact ih
  | undone _ ih => exact ih.reset
  | reference _ ih => exact ih
  | token => exact climbs_token _ _
  | literal => exact climbs_literal _ _
  | alternation _ ih => exact ih
  | concatenation _ ih => exact ih
  | group _ ih => exact ih
  | deeper _ _ ih =>
    rw [Attempt.state_map]
    exact ⟨⟨ih.peak, ih.failure⟩, ih.below⟩
  | nextOne _ _ iht ih => exact iht.trans ih
  | broken _ ih => exact ih
  | chosen _ ih => exact ih
  | otherwise _ _ iht ih => exact iht.trans ih
  | givenUp _ ih => exact ih
  | @under _ t rule s _ _ ih =>
    have hopened : s.Gains (s.opened rule (some t) (some s.parent)) := .of_eq rfl rfl
    refine ⟨hopened.trans (ih.toGains.trans (gains_leave ..)), fun hs => ?_⟩
    rw [State.BelowPeak, peak_leave, pos_leave]
    exact ih.below hs
  | production _ _ ih =>
    rw [Attempt.state_map]
    exact ⟨⟨ih.peak, ih.failure⟩, ih.below⟩
  | missing => exact (climbs_say _ _).trans (climbs_miss _ _)
  | ruleAsTerm => exact (climbs_say _ _).trans (climbs_miss _ _)
  | noProduction => exact (climbs_say _ _).trans (climbs_miss _ _)
  | notARule => exact (climbs_say _ _).trans (climbs_miss _ _)
  | _ => exact ⟨.of_eq rfl rfl, id⟩

/-! ## the peak bounds every place that is passed -/

/-- the state in which a job is begun has a peak that is no lower, and bounds its place -/
theorem Calls.climbs (hc : Calls c j s k s') : Climbs s s' := by
  cases hc with
  | follow _ hr => exact hr.climbs
  | further _ hr => exact hr.climbs
  | tail ht => exact ht.climbs
  | otherwise ht => exact ht.climbs
  | _ => exact ⟨.of_eq rfl rfl, id⟩

/-- in a run that ends, each job that is begun ends, with no more than the run gains -/
theorem Calls.yields (hc : Calls c j s k s') (hy : Yields c h j s r) :
    ∃ m r', Yields c m k s' r' ∧ r'.state.Gains r.state := by
  cases hc with
  | rounds hn =>
    cases hy with
    | missing hn' => cases hn.symm.trans hn'
    | taken hn' hr =>
      obtain rfl := Option.some.inj (hn.symm.trans hn')
      exact ⟨_, _, hr, .refl _⟩
    | skipped hn' _ hr =>
      obtain rfl := Option.some.inj (hn.symm.trans hn')
      exact ⟨_, _, hr, .refl _⟩
  | first =>
    cases hy with
    | justOne _ hr => exact ⟨_, _, hr, .refl _⟩
    | noneAtAll _ hr => exact ⟨_, _, hr, .refl _⟩
    | oneAndMore _ hr hm => exact ⟨_, _, hr, hm.climbs.toGains⟩
  | follow hn hr =>
    cases hy with
    | justOne hn' => cases hn.symm.trans hn'
    | noneAtAll _ hr' => cases hr.functional hr'
    | oneAndMore _ hr' hm =>
      cases hr.functional hr'
      exact ⟨_, _, hm, .refl _⟩
  | another hs =>
    cases hy with
    | idle hs' => exact absurd hs (Nat.not_lt_of_le hs')
    | another _ hr hm => exact ⟨_, _, hr, hm.climbs.toGains⟩
    | enough _ hr => exact ⟨_, _, hr, .refl _⟩
    | cutShort _ hr => exact ⟨_, _, hr, .refl _⟩
  | further hs hr =>
    cases hy with
    | idle hs' => exact absurd hs (Nat.not_lt_of_le hs')
    | another _ hr' hm =>
      cases hr.functional hr'
      exact ⟨_, _, hm, .refl _⟩
    | enough _ hr' => cases hr.functional hr'
    | cutShort _ hr' => cases hr.functional hr'
  | once =>
    cases hy with
    | kept hr => exact ⟨_, _, hr, .refl _⟩
    | undone hr => exact ⟨_, _, hr, .of_eq rfl rfl⟩
  | reference =>
    cases hy with
    | reference hr => exact ⟨_, _, hr, .refl _⟩
  | alternation =>
    cases hy with
    | alternation hr => exact ⟨_, _, hr, .refl _⟩
  | concatenation =>
    cases hy with
    | concatenation hr => exact ⟨_, _, hr, .refl _⟩
  | group =>
    cases hy with
    | group hr => exact ⟨_, _, hr, .refl _⟩
  | deeper hd =>
    cases hy with
    | tooDeep hd' => exact absurd hd (Nat.not_lt_of_le hd')
    | @deeper _ _ _ r' _ hr =>
      refine ⟨_, _, hr, ?_⟩
      rw [Attempt.state_map]
      exact .of_eq rfl rfl
  | head =>
    cases hy with
    | nextOne ht hr => exact ⟨_, _, ht, hr.climbs.toGains⟩
    | broken ht => exact ⟨_, _, ht, .refl _⟩
  | tail ht =>
    cases hy with
    | nextOne ht' hr =>
      cases ht.functional ht'
      exact ⟨_, _, hr, .refl _⟩
    | broken ht' => cases ht.functional ht'
  | choice =>
    cases hy with
    | chosen ht => exact ⟨_, _, ht, .refl _⟩
    | otherwise ht hr => exact ⟨_, _, ht, hr.climbs.toGains⟩
    | givenUp ht => exact ⟨_, _, ht, .refl _⟩
  | otherwise ht =>
    cases hy with
    | chosen ht' => cases ht.functional ht'
    | otherwise ht' hr =>
      cases ht.functional ht'
      exact ⟨_, _, hr, .refl _⟩
    | givenUp ht' => cases ht.functional ht'
  | body =>
    cases hy with
    | under hr =>
      exact ⟨_, _, hr, gains_leave ..⟩
  | production hn =>
    cases hy with
    | production hn' hr =>
      cases hn.symm.trans hn'
      refine ⟨_, _, hr, ?_⟩
      rw [Attempt.state_map]
      exact .of_eq rfl rfl
    | noProduction hn' => cases hn.symm.trans hn'
    | notARule hn' => exact absurd hn (hn' _ _)

theorem Passes.pos_le_peak (hp : Passes c j s u) {h : Nat} {r : Attempt} (hy : Yields c h j s r)
    (hs : s.BelowPeak) : u.pos ≤ r.state.peak.pos := by
  induction hp generalizing h r with
  | start => exact Nat.le_trans hs hy.climbs.peak
  | stop hy' =>
    obtain rfl := hy.functional hy'
    exact hy.climbs.below hs
  | inside hc _ ih =>
    obtain ⟨m, r', hy', hgain⟩ := hc.yields hy
    exact Nat.le_trans (ih hy' (hc.climbs.below hs)) hgain.peak

/-- whatever a run has gained when it passes a state, it keeps to its end -/
theorem Passes.gains (hp : Passes c j s u) {h : Nat} {r : Attempt} (hy : Yields c h j s r) :
    u.Gains r.state := by
  induction hp generalizing h r with
  | start => exact hy.climbs.toGains
  | stop hy' =>
    obtain rfl := hy.functional hy'
    exact .refl _
  | inside hc _ ih =>
    obtain ⟨m, r', hy', hgain⟩ := hc.yields hy
    exact (ih hy').trans hgain

/-! ## the peak is a place that is passed -/

/-- the peak after `j` is the one before, or a place that is passed -/
def Attains (c : Setting) (j : Job) (s s' : State) : Prop :=
  s'.peak.pos = s.peak.pos ∨ ∃ u, Passes c j s u ∧ u.pos = s'.peak.pos

theorem Attains.inside {v : State} (ha : Attains c k s' v) (hc : Calls c j s k s')
    (hs : s'.peak.pos = s.peak.pos) : Attains c j s v := by
  rcases ha with he | ⟨u, hu, he⟩
  · exact .inl (he.trans hs)
  · exact .inr ⟨u, .inside hc hu, he⟩

theorem Attains.then {v : State} (ha : Attains c j s s') (ha' : Attains c k s' v)
    (hc : Calls c j s k s') : Attains c j s v := by
  rcases ha' with he | ⟨u, hu, he⟩
  · rcases ha with he' | ⟨u, hu, he'⟩
    · exact .inl (he.trans he')
    · exact .inr ⟨u, hu, he'.trans he.symm⟩
  · exact .inr ⟨u, .inside hc hu, he⟩

theorem attains_leaf {kind : Tree.Kind} {t : TermId} {stop : Nat} {span : Span}
    (hy : Yields c h j s (.matched (s.leaf kind t stop span))) :
    Attains c j s (s.leaf kind t stop span) := by
  by_cases hle : stop ≤ s.peak.pos
  · exact .inl (Nat.max_eq_left hle)
  · exact .inr ⟨_, .stop hy, (Nat.max_eq_right (Nat.le_of_not_le hle)).symm⟩

theorem attains_token {t : TermId} {m : Mask} {o : Occurrence}
    (hy : Yields c h (.once t (.token m o)) s (token c t m s)) :
    Attains c (.once t (.token m o)) s (token c t m s).state := by
  rcases token_cases c t m s with ⟨_, _, e⟩ | ⟨_, _, e⟩ | ⟨_, _, e⟩ <;> rw [e] at hy ⊢
  · exact .inl rfl
  · exact attains_leaf hy
  · exact .inl rfl

theorem attains_literal {t : TermId} {x : Grammar.Text} {o : Occurrence}
    (hy : Yields c h (.once t (.literal x o)) s (literal c t (c.grammar.text x) s)) :
    Attains c (.once t (.literal x o)) s (literal c t (c.grammar.text x) s).state := by
  rcases literal_cases c t (c.grammar.text x) s with ⟨stop, _, e⟩ | ⟨_, e⟩ <;> rw [e] at hy ⊢
  · exact attains_leaf hy
  · exact .inl rfl

theorem Yields.attains (hy : Yields c h j s r) : Attains c j s r.state := by
  induction hy with
  | taken hn _ _ ih => exact ih.inside (.rounds hn) rfl
  | skipped hn _ _ ih => exact ih.inside (.rounds hn) rfl
  | justOne _ _ ih => exact ih.inside .first rfl
  | noneAtAll _ _ ih => exact ih.inside .first rfl
  | oneAndMore hn hr _ ih ihm => exact (ih.inside .first rfl).then ihm (.follow hn hr)
  | another hs hr _ ih ihm => exact (ih.inside (.another hs) rfl).then ihm (.further hs hr)
  | enough hs _ ih => exact ih.inside (.another hs) rfl
  | cutShort hs _ ih => exact ih.inside (.another hs) rfl
  | kept _ ih => exact ih.inside .once rfl
  | undone _ ih => exact ih.inside .once rfl
  | reference _ ih => exact ih.inside .reference rfl
  | @token h => exact attains_token (h := h) .token
  | @literal h => exact attains_literal (h := h) .literal
  | alternation _ ih => exact ih.inside .alternation rfl
  | concatenation _ ih => exact ih.inside .concatenation rfl
  | group _ ih => exact ih.inside .group rfl
  | deeper hd _ ih =>
    rw [Attempt.state_map]
    exact ih.inside (.deeper hd) rfl
  | nextOne ht _ iht ih => exact (iht.inside .head rfl).then ih (.tail ht)
  | broken _ ih => exact ih.inside .head rfl
  | chosen _ ih => exact ih.inside .choice rfl
  | otherwise ht _ iht ih => exact (iht.inside .choice rfl).then ih (.otherwise ht)
  | givenUp _ ih => exact ih.inside .choice rfl
  | under _ ih =>
    rw [Attains, peak_leave]
    exact ih.inside .body rfl
  | production hn _ ih =>
    rw [Attempt.state_map]
    exact ih.inside (.production hn) rfl
  | _ => exact .inl rfl

/-- the peak of a run that begins at its peak is the largest place that it passes -/
theorem isGreatest_peak (hy : Yields c h j s r) (hs : s.peak.pos = s.pos) :
    IsGreatest {i | ∃ u, Passes c j s u ∧ u.pos = i} r.state.peak.pos := by
  constructor
  · rcases hy.attains with he | hu
    · exact ⟨s, .start, hs.symm.trans he.symm⟩
    · exact hu
  · rintro i ⟨u, hu, rfl⟩
    exact hu.pos_le_peak hy (Nat.le_of_eq hs.symm)

end

end Ebnf.Matching
