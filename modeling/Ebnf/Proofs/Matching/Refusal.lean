import Ebnf.Grammar.Build
import Ebnf.Proofs.Matching.Course
import Ebnf.Proofs.Outcome

/-!
# The limit ends a parse at once

What lies too deep is refused, and the refusal is the last thing that happens in a run: each job
around it stops, none begins another one, and only the end of the parse is said after it.

* `Event.IsRefusal`     the event that says that the limit was reached;
* `Quiet`               from one state to another, no refusal was said;
* `Refused`             what is left of a refusal in the course of a job;
* `Yields.heard`        a run that stops at the limit ends with a refusal, every other one is quiet;
* `Begins.quiet`        whatever is begun in a run is begun before any refusal;
* `Passes.depth_le`     no run goes deeper than the limit;
* `limit_aborts`        what that says of a parse and its log.
-/

namespace Ebnf

def Event.IsRefusal : Event → Prop
  | .limitReached _ _ => True
  | _ => False

namespace Matching

/-- what was said from `s` to `s'` holds no refusal -/
def Quiet (s s' : State) : Prop :=
  ∃ es, s'.log.toList = s.log.toList ++ es ∧ ∀ e ∈ es, ¬ e.IsRefusal

/-- in the course of `j`, begun in `s`, something is refused in the state `u`, and `s'` is what is
left of that -/
structure Refused (c : Setting) (j : Job) (s u s' : State) : Prop where
  begun : ∃ k, Begins c j s (.nested k) u
  deep : c.maxDepth ≤ u.depth
  quiet : Quiet s u
  log : s'.log = u.log.push (.limitReached u.depth u.pos)
  failure : s'.failure = u.failure

/-- an attempt that stopped at the limit ended with a refusal; any other one was quiet -/
def Heard (c : Setting) (j : Job) (s : State) : Attempt → Prop
  | .matched s' => Quiet s s'
  | .stopped .limit s' => ∃ u, Refused c j s u s'
  | .stopped _ s' => Quiet s s'

section
variable {c : Setting} {h : Nat} {j k : Job} {s s' u v : State} {r : Attempt}

theorem Quiet.of_log (h : s'.log = s.log) : Quiet s s' := Said.of_log h

theorem Quiet.refl (s : State) : Quiet s s := Said.refl s

theorem Quiet.trans (h : Quiet s s') (h' : Quiet s' u) : Quiet s u := Said.trans h h'

theorem quiet_say {e : Event} (he : ¬ e.IsRefusal) : Quiet s (s.say e) := said_say he

theorem quiet_miss {e : Event} (he : ¬ e.IsRefusal) (t : TermId) :
    Quiet s (miss (s.say e) t).state := quiet_say he

theorem heard_token (t : TermId) (m : Mask) : Heard c j s (token c t m s) := by
  rcases token_cases c t m s with ⟨_, _, e⟩ | ⟨_, _, e⟩ | ⟨_, _, e⟩ <;> rw [e] <;>
    exact Quiet.of_log rfl

theorem heard_literal (t : TermId) (x : String) : Heard c j s (literal c t x s) := by
  rcases literal_cases c t x s with ⟨_, _, e⟩ | ⟨_, e⟩ <;> rw [e] <;> exact Quiet.of_log rfl

theorem Refused.inside (hr : Refused c k s' u v) (hc : Calls c j s k s') (hq : Quiet s s') :
    Refused c j s u v := by
  obtain ⟨l, hl⟩ := hr.begun
  exact ⟨⟨l, .inside hc hl⟩, hr.deep, hq.trans hr.quiet, hr.log, hr.failure⟩

theorem Heard.inside (hr : Heard c k s' r) (hc : Calls c j s k s') (hq : Quiet s s') :
    Heard c j s r := by
  cases r with
  | matched v => exact hq.trans hr
  | stopped why v =>
    cases why with
    | limit =>
      obtain ⟨u, hu⟩ := hr
      exact ⟨u, hu.inside hc hq⟩
    | mismatch => exact hq.trans hr
    | endless => exact hq.trans hr

theorem Heard.map {f : State → State} (hr : Heard c j s r)
    (hf : ∀ v, (f v).log = v.log ∧ (f v).failure = v.failure) : Heard c j s (r.map f) := by
  have hkeep : ∀ v, Quiet s v → Quiet s (f v) := fun v hv => hv.trans (.of_log (hf v).1)
  cases r with
  | matched v => exact hkeep v hr
  | stopped why v =>
    cases why with
    | limit =>
      obtain ⟨u, hu⟩ := hr
      exact ⟨u, hu.begun, hu.deep, hu.quiet, (hf v).1.trans hu.log, (hf v).2.trans hu.failure⟩
    | mismatch => exact hkeep v hr
    | endless => exact hkeep v hr

theorem Heard.reset {why : Stop} (hr : Heard c j s (.stopped why s')) (m : Mark) :
    Heard c j s (.stopped why (s'.reset m)) := hr.map (f := fun v => v.reset m) fun _ => ⟨rfl, rfl⟩

theorem Heard.leave (hr : Heard c j s r) (m : Mark) (outer : NodeId) :
    Heard c j s (leave c m outer r) := by
  cases r with
  | matched v => exact hr
  | stopped why v => exact hr.map (f := fun v => v.withParent outer) fun _ => ⟨rfl, rfl⟩

/-- a run that stops at the limit ends with a refusal; every other one is quiet -/
theorem Yields.heard (hy : Yields c h j s r) : Heard c j s r := by
  induction hy with
  | missing => exact quiet_miss id _
  | taken hn _ _ ih => exact ih.inside (.rounds hn) (.refl _)
  | skipped _ _ _ ih => exact ih
  | justOne _ _ ih => exact ih.inside .first (.refl _)
  | noneAtAll _ _ ih => exact ih.inside .first (.refl _)
  | oneAndMore hn hr _ ih ihm => exact ihm.inside (.follow hn hr) ih
  | idle => exact quiet_say id
  | another hs hr _ ih ihm => exact ihm.inside (.further hs hr) ih
  | enough _ _ ih => exact ih
  | cutShort hs _ ih => exact ih.inside (.another hs) (.refl _)
  | kept _ ih => exact ih
  | undone _ ih => exact (ih.inside .once (.refl _)).reset _
  | ruleAsTerm => exact quiet_miss id _
  | reference _ ih => exact ih.inside .reference (.refl _)
  | token => exact heard_token _ _
  | literal => exact heard_literal _ _
  | alternation _ ih => exact ih.inside .alternation (.refl _)
  | concatenation _ ih => exact ih.inside .concatenation (.refl _)
  | group _ ih => exact ih.inside .group (.refl _)
  | tooDeep hd => exact ⟨_, ⟨_, .start⟩, hd, .refl _, rfl, rfl⟩
  | deeper hd _ ih =>
    exact (ih.inside (.deeper hd) (.of_log rfl)).map fun _ => ⟨rfl, rfl⟩
  | allDone => exact Quiet.refl _
  | nextOne ht _ iht ih => exact ih.inside (.tail ht) iht
  | broken _ ih => exact ih.inside .head (.refl _)
  | noneLeft => exact Quiet.refl _
  | chosen _ ih => exact ih
  | otherwise ht _ iht ih => exact ih.inside (.otherwise ht) iht
  | givenUp _ ih => exact ih.inside .choice (.refl _)
  | under _ ih => exact (ih.inside .body (.of_log rfl)).leave _ _
  | production hn _ ih =>
    exact (ih.inside (.production hn) (quiet_say id)).map fun _ => ⟨rfl, rfl⟩
  | noProduction => exact quiet_miss id _
  | notARule => exact quiet_miss id _

/-- what is begun next is begun before any refusal -/
theorem Calls.quiet (hc : Calls c j s k s') : Quiet s s' := by
  cases hc with
  | follow _ hr => exact hr.heard
  | further _ hr => exact hr.heard
  | tail ht => exact ht.heard
  | otherwise ht => exact ht.heard
  | production => exact quiet_say id
  | _ => exact .of_log rfl

theorem Begins.quiet (hb : Begins c j s k u) : Quiet s u := by
  induction hb with
  | start => exact .refl _
  | inside hc _ ih => exact hc.quiet.trans ih

/-! ## depth -/

theorem Calls.depth_le (hc : Calls c j s k s') (hs : s.depth ≤ c.maxDepth) :
    s'.depth ≤ c.maxDepth := by
  cases hc with
  | follow _ hr => exact hr.frame.depth ▸ hs
  | further _ hr => exact hr.frame.depth ▸ hs
  | tail ht => exact ht.frame.depth ▸ hs
  | otherwise ht => exact ht.frame.depth ▸ hs
  | deeper hd => exact hd
  | _ => exact hs

theorem Passes.depth_le (hp : Passes c j s u) (hs : s.depth ≤ c.maxDepth) :
    u.depth ≤ c.maxDepth := by
  induction hp with
  | start => exact hs
  | stop hy => exact hy.frame.depth ▸ hs
  | inside hc _ ih => exact ih (hc.depth_le hs)

theorem Refused.depth_eq (hr : Refused c j s u v) (hs : s.depth ≤ c.maxDepth) :
    u.depth = c.maxDepth := by
  obtain ⟨k, hk⟩ := hr.begun
  exact Nat.le_antisymm (hk.passes.depth_le hs) hr.deep

end

end Matching

/-! ## parses -/

namespace Parser

open Matching

/-- something was refused in the state `u` of the parse, after the events `before`; that was said,
and nothing but the end of the parse was said or done after it -/
structure Aborted (p : Parser) (start : RuleId) (u : State) (before : List Event)
    (error : ParseError) : Prop where
  begun : ∃ k, Begins p.setting (.body start start) (p.first start) (.nested k) u
  depth : u.depth = p.config.maxDepth
  log : u.log.toList = p.log.toList ++ before
  quiet : ∀ e ∈ before, ¬ e.IsRefusal
  verdict : (p.parse start).2 = .rejected error
  kind : error.kind = .recursionLimit p.config.maxDepth
  events : (p.parse start).1.log.toList =
    p.log.toList ++ (before ++ [.limitReached p.config.maxDepth u.pos, .parseFailed error])
  failure : (p.parse start).1.failure = u.failure ∧ error.failure = u.failure

section
variable {p : Parser} {start : RuleId} {u : State}

theorem quiet_since (hq : Quiet (p.first start) u) :
    ∃ es, u.log.toList = p.log.toList ++ es ∧ ∀ e ∈ es, ¬ e.IsRefusal :=
  said_since (fun _ _ _ => id) hq

theorem refused_of_limited (hl : (p.parse start).2.Limited) :
    ∃ u s, p.outcome start = .stopped .limit s ∧
      Refused p.setting (.body start start) (p.first start) u s := by
  have he : (p.parse start).2 ≠ .endless := by
    obtain ⟨_, _, _, hv⟩ := hl
    exact p.ends_of_rejected start hv
  obtain ⟨_, hy⟩ := p.yields_outcome start he
  have hh := hy.heard
  rw [limited_iff] at hl
  cases hr : p.outcome start with
  | matched s => rw [hr] at hl; exact hl.elim
  | stopped why s =>
    rw [hr] at hl hh
    cases why with
    | limit =>
      obtain ⟨u, hu⟩ := hh
      exact ⟨u, s, rfl, hu⟩
    | mismatch => exact hl.elim
    | endless => exact hl.elim

theorem aborted_of_refused {s : State} (hr : p.outcome start = .stopped .limit s)
    (hu : Refused p.setting (.body start start) (p.first start) u s) :
    ∃ before, p.Aborted start u before ⟨.recursionLimit p.config.maxDepth, s.pos, s.failure⟩ := by
  obtain ⟨before, hlog, hq⟩ := quiet_since hu.quiet
  have hdepth : u.depth = p.config.maxDepth := hu.depth_eq (Nat.zero_le _)
  have hparse := p.parse_eq start
  rw [hr] at hparse
  refine ⟨before, hu.begun, hdepth, hlog, hq, by rw [hparse]; rfl, rfl, ?_, ?_, hu.failure⟩
  · rw [hparse]
    show (s.log.push _).toList = _
    rw [hu.log, Array.toList_push, Array.toList_push, hlog, hdepth, List.append_assoc,
      List.append_assoc]
    rfl
  · rw [hparse]
    exact hu.failure

theorem quiet_of_not_limited (he : (p.parse start).2 ≠ .endless)
    (hl : ¬ (p.parse start).2.Limited) :
    ∃ es, (p.parse start).1.log.toList = p.log.toList ++ es ∧ ∀ e ∈ es, ¬ e.IsRefusal := by
  obtain ⟨_, hy⟩ := p.yields_outcome start he
  have hquiet : Quiet (p.first start) (p.outcome start).state := by
    have hh := hy.heard
    rw [limited_iff] at hl
    cases hr : p.outcome start with
    | matched s => rw [hr] at hh; exact hh
    | stopped why s =>
      rw [hr] at hh hl
      cases why with
      | limit => exact absurd trivial hl
      | mismatch => exact hh
      | endless => exact hh
  exact said_by_parse (fun _ _ _ => id) (fun _ => id) hquiet

end

/-- no parse goes deeper than its limit, and whatever it begins it begins before any refusal.  It
meets the limit just if it says so; then it says so once, at the limit itself, and after that it only
says that it has failed, with the failure that was recorded when the refusal came -/
theorem limit_aborts (p : Parser) (start : RuleId) (he : (p.parse start).2 ≠ .endless) :
    (∀ u, Passes p.setting (.body start start) (p.first start) u →
      u.depth ≤ p.config.maxDepth) ∧
    (∀ k u, Begins p.setting (.body start start) (p.first start) k u →
      ∃ es, u.log.toList = p.log.toList ++ es ∧ ∀ e ∈ es, ¬ e.IsRefusal) ∧
    ∃ events, (p.parse start).1.log.toList = p.log.toList ++ events ∧
      ((∃ offset failure, (p.parse start).2 =
          .rejected ⟨.recursionLimit p.config.maxDepth, offset, failure⟩) ↔
        ∃ e ∈ events, e.IsRefusal) ∧
      ((p.parse start).2.Limited → ∃ u before error, p.Aborted start u before error) := by
  refine ⟨fun u hu => hu.depth_le (Nat.zero_le _), fun k u hu => quiet_since hu.quiet, ?_⟩
  by_cases hl : (p.parse start).2.Limited
  · obtain ⟨u, s, hr, hu⟩ := refused_of_limited hl
    obtain ⟨before, ha⟩ := aborted_of_refused hr hu
    have hsaid : Event.limitReached p.config.maxDepth u.pos ∈ before ++
        [.limitReached p.config.maxDepth u.pos,
          .parseFailed ⟨.recursionLimit p.config.maxDepth, s.pos, s.failure⟩] := by simp
    exact ⟨_, ha.events, ⟨fun _ => ⟨_, hsaid, trivial⟩, fun _ => ⟨_, _, ha.verdict⟩⟩,
      fun _ => ⟨u, before, _, ha⟩⟩
  · obtain ⟨es, hlog, hes⟩ := quiet_of_not_limited he hl
    refine ⟨es, hlog, ⟨fun ⟨offset, failure, hv⟩ => ?_, fun ⟨e, hmem, hrefusal⟩ => ?_⟩,
      fun hl' => absurd hl' hl⟩
    · exact absurd ⟨_, offset, failure, hv⟩ hl
    · exact absurd hrefusal (hes e hmem)

open Grammar in
/-- `s = ( ( "a" ) | "b" ) ? "b"` may not go two groups deep: at the inner group the parse of `b` is
refused, although a second choice, and after it the literal behind the group, would match -/
theorem limit_aborts_choice :
    let g := Grammar.build [.rule "s", .concatenation, .group .optional, .alternation,
      .group .one, .literal "a" .one, .literal "b" .one, .attach 4 5, .attach 3 4, .attach 3 6,
      .attach 2 3, .attach 1 2, .attach 1 6, .attach 0 1]
    let p : Parser :=
      { source := .ofText "b" "input" 0 {}, grammar := g, config := { maxDepth := 1 } }
    let e : ParseError := ⟨.recursionLimit 1, 0, none⟩
    (p.parse 0).2 = .rejected e ∧
    (p.parse 0).1.log.toList =
      [.parse "s" "input" 1, .enterRule "s" 0, .limitReached 1 0, .parseFailed e] ∧
    ∃ u before error, p.Aborted 0 u before error := by
  intro g p e
  have hv : (p.parse 0).2 = .rejected e := by decide +kernel
  have hlog : (p.parse 0).1.log.toList =
      [.parse "s" "input" 1, .enterRule "s" 0, .limitReached 1 0, .parseFailed e] := by
    decide +kernel
  obtain ⟨_, _, events, _, _, habort⟩ := limit_aborts p 0 (p.ends_of_rejected 0 hv)
  exact ⟨hv, hlog, habort ⟨_, _, _, hv⟩⟩

end Parser

end Ebnf
