import Ebnf.Proofs.Matching.Frame
import Ebnf.Proofs.Reference.Meaning

/-!
# Runs end as the grammar means

* `Attempt.outcome?`   how an attempt ended, in terms of the meaning; a stop at the limit says
                       nothing;
* `Job.phrase`         what is being matched, as far as it has a meaning;
* `Yields.meant`       a run that ends without meeting the limit ends as its phrase means.
-/

namespace Ebnf.Matching

open Reference

def Attempt.outcome? : Attempt → Option Outcome
  | .matched s => some (.ends s.pos)
  | .stopped .mismatch _ => some .fails
  | .stopped _ _ => none

namespace Attempt

theorem outcome?_stopped {why : Stop} {s : State} {o : Outcome}
    (h : (Attempt.stopped why s).outcome? = some o) : why = .mismatch ∧ o = .fails := by
  cases why with
  | mismatch => exact ⟨rfl, (Option.some.inj h).symm⟩
  | limit => cases h
  | endless => cases h

theorem eq_mismatch_of_outcome? {r : Attempt} (h : r.outcome? = some .fails) :
    ∃ s, r = .stopped .mismatch s := by
  cases r with
  | matched s => cases h
  | stopped why s =>
    obtain ⟨rfl, _⟩ := outcome?_stopped h
    exact ⟨s, rfl⟩

theorem outcome?_map {f : State → State} (hf : ∀ s, (f s).pos = s.pos) (r : Attempt) :
    (r.map f).outcome? = r.outcome? := by
  cases r with
  | matched s => exact congrArg (fun i => some (Outcome.ends i)) (hf s)
  | stopped why s => cases why <;> rfl

theorem outcome?_leave (c : Setting) (m : Mark) (outer : NodeId) (r : Attempt) :
    (leave c m outer r).outcome? = r.outcome? := by
  cases r with
  | matched s => rfl
  | stopped why s => cases why <;> rfl

end Attempt

def Job.phrase : Job → Phrase
  | .term t => .term t
  | .rounds _ n => .rounds n
  | .more _ n start => .more n start
  | .single _ n => .once n
  | .once _ n => .once n
  | .inOrder ts => .inOrder ts
  | .firstOf ts => .firstOf ts
  | .nested j => j.phrase
  | .under _ rule => .rule rule
  | .body _ rule => .rule rule

section
variable {c : Setting} {s : State}

theorem outcome?_token (t : TermId) (m : Mask) :
    (token c t m s).outcome? = some (tokenAt c.source m s.pos) := by
  unfold token
  dsimp only
  split
  · rename_i heof
    rw [tokenAt_of_le _ (c.source.isEof_token.mp heof)]
    split <;> rfl
  · rename_i heof
    have hlt : s.pos < c.source.size :=
      Nat.lt_of_not_le fun hle => heof (c.source.isEof_token.mpr hle)
    rw [tokenAt_of_lt _ hlt]
    split <;> rfl

theorem outcome?_literal (t : TermId) (text : String) (h : s.pos ≤ c.source.size) :
    (literal c t text s).outcome? =
      some (literalAt c.source (Utf8.encode text) s.pos) := by
  unfold literal
  split
  · rename_i stop hs
    rw [literalAt_of_some _ h hs]
    rfl
  · rename_i hs
    rw [literalAt_of_none _ h hs]
    rfl

/-! ## the induction -/

/-- a run that ends without meeting the limit ends as its phrase means -/
theorem Yields.meant {h : Nat} {j : Job} {r : Attempt} (hy : Yields c h j s r)
    (hs : s.pos ≤ c.source.size) {o : Outcome} (ho : r.outcome? = some o) :
    Means c.source c.grammar j.phrase s.pos o := by
  induction hy generalizing o with
  | missing hn =>
    cases ho
    exact .missing hn
  | @taken _ _ n _ r hn _ hopt ih =>
    have hm : Means _ _ (.rounds n) _ o := ih hs ho
    cases o with
    | ends j => exact .matched hn hm
    | fails =>
      obtain ⟨s', rfl⟩ := Attempt.eq_mismatch_of_outcome? ho
      exact .failed hn (Bool.eq_false_iff.mpr fun h => hopt h s' rfl) hm
  | @skipped _ _ n s s' hn hopt hr ih =>
    cases ho
    have hm : Means _ _ (.rounds n) s.pos .fails := ih hs rfl
    rw [hr.restored_of_rounds.1]
    exact .skipped hn hopt hm
  | @justOne _ _ n _ _ hrep _ ih =>
    have hm : Means _ _ (.once n) _ o := ih hs ho
    cases o with
    | ends j => exact .justOne hrep hm
    | fails => exact .noneAtAll hm
  | noneAtAll _ _ ih =>
    obtain ⟨rfl, rfl⟩ := Attempt.outcome?_stopped ho
    exact .noneAtAll (ih hs rfl)
  | oneAndMore hrep hr _ ih ihm =>
    exact .oneAndMore hrep (ih hs rfl) (ihm (hr.frame.pos_le hs) ho)
  | idle hle =>
    cases ho
    exact .idle hle
  | another hlt hr _ ih ihm =>
    exact .another hlt (ih hs rfl) (ihm (hr.frame.pos_le hs) ho)
  | @enough _ _ n start s s' hlt hr ih =>
    -- the failed round is given back, so the repetition ends where that round began
    cases ho
    have hm : Means _ _ (.once n) s.pos .fails := ih hs rfl
    rw [hr.restored_of_single.1]
    exact .enough hlt hm
  | cutShort => cases ho
  | kept _ ih => exact ih hs ho
  | undone _ ih =>
    obtain ⟨rfl, rfl⟩ := Attempt.outcome?_stopped ho
    exact ih hs rfl
  | ruleAsTerm =>
    cases ho
    exact .ruleAsTerm
  | reference _ ih => exact .reference (ih hs ho)
  | token =>
    rw [outcome?_token] at ho
    obtain rfl := Option.some.inj ho
    exact .token
  | literal =>
    rw [outcome?_literal _ _ hs] at ho
    obtain rfl := Option.some.inj ho
    exact .literal
  | alternation _ ih => exact .alternation (ih hs ho)
  | concatenation _ ih => exact .concatenation (ih hs ho)
  | group _ ih => exact .group (ih hs ho)
  | tooDeep => cases ho
  | deeper _ _ ih =>
    refine ih hs ?_
    rwa [Attempt.outcome?_map] at ho
    exact fun _ => rfl
  | allDone =>
    cases ho
    exact .allDone
  | nextOne ht _ iht ih => exact .nextOne (iht hs rfl) (ih (ht.frame.pos_le hs) ho)
  | broken _ ih =>
    obtain ⟨rfl, rfl⟩ := Attempt.outcome?_stopped ho
    exact .broken (ih hs rfl)
  | noneLeft =>
    cases ho
    exact .noneLeft
  | chosen _ ih =>
    cases ho
    exact .chosen (ih hs rfl)
  | @otherwise _ _ ts s s' _ ht _ iht ih =>
    have hrest : Means _ _ (.firstOf ts) s'.pos o := ih (ht.frame.pos_le hs) ho
    rw [ht.restored_of_mismatch.1] at hrest
    exact .otherwise (iht hs rfl) hrest
  | givenUp => cases ho
  | under _ ih =>
    rw [Attempt.outcome?_leave] at ho
    exact ih hs ho
  | production hn _ ih =>
    refine .production (Grammar.production?_of_node? hn) (ih hs ?_)
    rwa [Attempt.outcome?_map] at ho
    exact fun _ => rfl
  | noProduction hn =>
    cases ho
    exact .noProduction (Grammar.production?_of_node? hn)
  | notARule hn =>
    cases ho
    exact .noProduction (Grammar.production?_eq_none hn)

end

end Ebnf.Matching
