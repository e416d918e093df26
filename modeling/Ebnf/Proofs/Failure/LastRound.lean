import Ebnf.Proofs.Matching.Refusal

/-!
# Where an error at the limit points

A stop at the limit undoes every attempt that it passes through, and the place of the refusal with
it.  Of the production of the start rule it leaves the rounds that had matched before, so the error
points at the place where the last round of that production began, and not where parsing stopped.

* `Rounds`                   rounds of a repeated node that matched, one behind the other;
* `Yields.limit_round`       a term that meets the limit does so in a round, and ends where that round
                             began;
* `LastRound`                the round of the start rule's production in which something was refused;
* `limit_points_at_round`    an error at the limit points at the beginning of that round;
* `limit_points_before_refusal`   which is not where the refusal was.
-/

namespace Ebnf

namespace Matching

/-- some rounds of the node `n`, which matched and moved on, lead from `s` to `u` -/
inductive Rounds (c : Setting) (t : TermId) (n : Grammar.Node) : State → State → Prop where
  | none {s} : Rounds c t n s s
  | oneMore {s s' u} (hrep : n.occurrence.isRepeated = true)
      (hr : atomic (once c (term c) t n) s = .matched s') (hlt : s.pos < s'.pos)
      (h : Rounds c t n s' u) : Rounds c t n s u

section
variable {c : Setting} {h : Nat} {j k : Job} {t : TermId} {n : Grammar.Node} {s s' u v w : State}

theorem Rounds.eq_of_single (hr : Rounds c t n s u) (hn : n.occurrence.isRepeated = false) :
    u = s := by
  cases hr with
  | none => rfl
  | oneMore hrep =>
    rw [hn] at hrep
    cases hrep

theorem Yields.computes {r : Attempt} (hy : Yields c h (.single t n) s r) (hle : h ≤ height c) :
    atomic (once c (term c) t n) s = r := (hy.mono hle).gives

theorem Yields.moved_of_more {start : Nat} {why : Stop}
    (hy : Yields c h (.more t n start) s (.stopped why s')) : start < s.pos := by
  cases hy with
  | another hs => exact hs
  | cutShort hs => exact hs

theorem Yields.limit_round_of_more {start : Nat}
    (hy : Yields c h (.more t n start) s (.stopped .limit s')) (hle : h ≤ height c)
    (hrep : n.occurrence.isRepeated = true) :
    ∃ u, Rounds c t n s u ∧ Begins c (.more t n start) s (.single t n) u ∧
      Yields c h (.single t n) u (.stopped .limit s') := by
  generalize hj : Job.more t n start = j at hy
  generalize hr : Attempt.stopped .limit s' = r at hy
  -- the induction is on the rounds: each case but those of `more` is another job
  induction hy generalizing start with
  | another hs h1 h2 _ ihm =>
    cases hj
    cases hr
    obtain ⟨u, hround, hbegin, hlast⟩ := ihm hle rfl rfl
    exact ⟨u, .oneMore hrep (h1.computes hle) h2.moved_of_more hround,
      .inside (.further hs h1) hbegin, hlast⟩
  | cutShort hs h1 =>
    cases hj
    cases hr
    exact ⟨_, .none, .inside (.another hs) .start, h1⟩
  | idle => cases hr
  | enough => cases hr
  | _ => cases hj

/-- a term that meets the limit does so in a round, and ends where that round began -/
theorem Yields.limit_round (hy : Yields c h (.term t) s (.stopped .limit s')) :
    ∃ n u, c.grammar.node? t = some n ∧ Rounds c t n s u ∧ Begins c (.term t) s (.single t n) u ∧
      s'.pos = u.pos ∧ ∃ v, Refused c (.single t n) u v s' := by
  have hy := hy.within_height
  generalize hk : height c = k at hy
  cases hy with
  | @taken k _ n _ _ hn hr _ =>
    have hle : k ≤ height c := by omega
    have hlast : ∃ u, Rounds c t n s u ∧ Begins c (.rounds t n) s (.single t n) u ∧
        Yields c k (.single t n) u (.stopped .limit s') := by
      cases hr with
      | justOne _ h1 => exact ⟨s, .none, .inside .first .start, h1⟩
      | noneAtAll _ h1 => exact ⟨s, .none, .inside .first .start, h1⟩
      | oneAndMore hrep h1 hm =>
        obtain ⟨u, hround, hbegin, hlast⟩ := hm.limit_round_of_more hle hrep
        exact ⟨u, .oneMore hrep (h1.computes hle) hm.moved_of_more hround,
          .inside (.follow hrep h1) hbegin, hlast⟩
    obtain ⟨u, hround, hbegin, hlast⟩ := hlast
    exact ⟨n, u, hn, hround, .inside (.rounds hn) hbegin, hlast.restored_of_single.1, hlast.heard⟩

theorem Refused.of_begins (hr : Refused c k u v w) (hb : Begins c j s k u) :
    Refused c j s v w := by
  induction hb with
  | start => exact hr
  | inside hc _ ih => exact (ih hr).inside hc hc.quiet

end

end Matching

namespace Parser

open Matching

/-- the state in which a parse begins the production of the start rule, which has the name `name` -/
def entered (p : Parser) (start : RuleId) (name : Grammar.Text) : State :=
  ((p.first start).say (.enterRule (p.grammar.text name) 0)).withRule start

/-- some rounds of the start rule's production matched, the last one up to the state `u`; in the
round that began there something was refused in the state `v` -/
def LastRound (p : Parser) (start : RuleId) (u v : State) : Prop :=
  ∃ name production n, p.grammar.node? start = some (.rule name (some production)) ∧
    p.grammar.node? production = some n ∧
    Rounds p.setting production n (p.entered start name) u ∧
    ∃ k, Begins p.setting (.single production n) u (.nested k) v

section
variable {p : Parser} {start : RuleId} {u v : State}

theorem LastRound.forth (h : p.LastRound start u v) : u.pos ≤ v.pos := by
  obtain ⟨_, _, _, _, _, _, _, hb⟩ := h
  exact hb.forth

/-- a production that is not repeated has one round, from the beginning of the source on -/
theorem LastRound.pos_eq_zero (h : p.LastRound start u v) {production : TermId}
    {n : Grammar.Node} (hp : p.grammar.production? start = some production)
    (hn : p.grammar.node? production = some n) (hone : n.occurrence.isRepeated = false) :
    u.pos = 0 := by
  obtain ⟨name, production', n', hrule, hn', hround, _⟩ := h
  obtain rfl : production' = production :=
    Option.some.inj ((Grammar.production?_of_node? hrule).symm.trans hp)
  obtain rfl : n' = n := Option.some.inj (hn'.symm.trans hn)
  rw [hround.eq_of_single hone]
  rfl

theorem limit_round_of_outcome {s : State} (hr : p.outcome start = .stopped .limit s) :
    ∃ u v, p.LastRound start u v ∧ s.pos = u.pos ∧
      Refused p.setting (.body start start) (p.first start) v s := by
  obtain ⟨_, hy⟩ := yields_run_iff.mpr ⟨hr, trivial⟩
  generalize he : Attempt.stopped .limit s = r at hy
  cases hy with
  | @production _ _ _ name production _ r hn hterm =>
    cases r with
    | matched s₁ => cases he
    | stopped why s₁ =>
      cases he
      obtain ⟨n, u, hnode, hround, hbegin, hpos, v, hv⟩ := hterm.limit_round
      have hrun : Refused p.setting (.body start start) (p.first start) v s₁ :=
        hv.of_begins (.inside (.production hn) hbegin)
      exact ⟨u, v, ⟨name, production, n, hn, hnode, hround, hv.begun⟩, hpos,
        hrun.begun, hrun.deep, hrun.quiet, hrun.log, hrun.failure⟩
  | noProduction => cases he
  | notARule => cases he

end

/-- an error at the limit, and its report, point at the place where the last round of the start
rule's production began; that is no later than the place of the refusal, and the beginning of the
source if the production is not repeated -/
theorem limit_points_at_round (p : Parser) (start : RuleId) {e : ParseError} {limit : Nat}
    (hv : (p.parse start).2 = .rejected e) (hk : e.kind = .recursionLimit limit) :
    ∃ u v before, p.LastRound start u v ∧ p.Aborted start v before e ∧ e.offset = u.pos ∧
      e.offset ≤ v.pos ∧ (p.report e).PointsAt p.source u.pos 1 ∧
      ∀ production n, p.grammar.production? start = some production →
        p.grammar.node? production = some n → n.occurrence.isRepeated = false → e.offset = 0 := by
  have hl : (p.parse start).2.Limited := by
    refine ⟨limit, e.offset, e.failure, ?_⟩
    rw [hv, ← hk]
  obtain ⟨_, s, hr, _⟩ := refused_of_limited hl
  obtain ⟨u, v, hlast, hpos, hrefused⟩ := limit_round_of_outcome hr
  obtain ⟨before, ha⟩ := aborted_of_refused hr hrefused
  obtain rfl := Verdict.rejected.inj (hv.symm.trans ha.verdict)
  have hat : Report.snippet p.source s.pos 1 = Report.snippet p.source u.pos 1 := by rw [hpos]
  have hsnippet : (p.report ⟨.recursionLimit p.config.maxDepth, s.pos, s.failure⟩).snippet =
      some (Report.snippet p.source u.pos 1) := congrArg some hat
  refine ⟨u, v, before, hlast, ha, hpos, ?_, Diagnostic.pointsAt_of_snippet hsnippet,
    fun production n hp hn hone => ?_⟩
  · exact Nat.le_trans (Nat.le_of_eq hpos) hlast.forth
  · exact hpos.trans (hlast.pos_eq_zero hp hn hone)

open Grammar in
/-- `s = ( "a" ( "b" | ( ) ) ) +` may not go two groups deep: on `abac` the inner group is refused
behind the second `a`, and the error points at that `a`, where the second round began -/
theorem limit_points_at_round_second :
    let g := Grammar.build [.rule "s", .group .repeated, .literal "a" .one, .alternation,
      .literal "b" .one, .group .one, .attach 3 4, .attach 3 5, .attach 1 2, .attach 1 3,
      .attach 0 1]
    let p : Parser :=
      { source := .ofText "abac" "input" 0 {}, grammar := g, config := { maxDepth := 1 } }
    let e : ParseError := ⟨.recursionLimit 1, 2, some ⟨0, 3, 4⟩⟩
    (p.parse 0).2 = .rejected e ∧ .limitReached 1 3 ∈ (p.parse 0).1.log ∧
    (∃ u v before, p.LastRound 0 u v ∧ p.Aborted 0 v before e ∧ e.offset = u.pos ∧
      e.offset ≤ v.pos) ∧
    (p.report e).snippet =
      some { file := "input", line := 1, column := 3, lineText := "abac", width := 1 } := by
  intro g p e
  have hv : (p.parse 0).2 = .rejected e := by decide +kernel
  have hsaid : .limitReached 1 3 ∈ (p.parse 0).1.log := by decide +kernel
  have hlocation : p.source.location 2 = ⟨0, 4, 1, 2⟩ := by decide +kernel
  have htext : p.source.lineText ⟨0, 4, 1, 2⟩ = "abac" := by decide +kernel
  obtain ⟨u, v, before, hlast, ha, hpos, hle, hsnippet, _⟩ := limit_points_at_round p 0 hv rfl
  have hu : u.pos = 2 := hpos.symm
  rw [Diagnostic.PointsAt, hu, hlocation, htext] at hsnippet
  exact ⟨hv, hsaid, ⟨u, v, before, hlast, ha, hpos, hle⟩, hsnippet⟩

open Grammar in
/-- `s = "a" ( )` may have no group: on `ab` it is refused behind the `a`, and the error points at
the `a` -/
theorem limit_points_before_refusal :
    let g := Grammar.build [.rule "s", .concatenation, .literal "a" .one, .group .one,
      .attach 1 2, .attach 1 3, .attach 0 1]
    let p : Parser :=
      { source := .ofText "ab" "input" 0 {}, grammar := g, config := { maxDepth := 0 } }
    let e : ParseError := ⟨.recursionLimit 0, 0, none⟩
    (p.parse 0).2 = .rejected e ∧ (p.parse 0).1.log.toList =
      [.parse "s" "input" 2, .enterRule "s" 0, .limitReached 0 1, .parseFailed e] := by
  decide +kernel

end Parser

end Ebnf
