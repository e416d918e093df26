import Ebnf.Parser
import Ebnf.Proofs.Matching.Bound

/-!
# How a parse ends

A parse matches its start rule from a first state on, and makes a verdict of how that ended.

* `Attempt.Limited`, `Verdict.Limited`   a stop at the limit;
* `Said`              all that was said from one state to another is of some kind;
* `Parser.first`      the state in which a parse begins;
* `Parser.outcome`    how matching the start rule ends;
* `limited_iff`, `ends_iff`, `rejected_iff`, `matched_of_accepted`   each verdict says how the
                      matching ended;
* `yields_outcome`    a parse that comes to an end is a run;
* `said_by_parse`     what a parse says is what its matching said, and how it begins and ends;
* `Diagnostic.PointsAt`   what the snippet of a diagnostic shows is the place of a token.
-/

namespace Ebnf

namespace Matching

def Attempt.Limited : Attempt → Prop
  | .stopped .limit _ => True
  | _ => False

theorem Attempt.limited_map {f : State → State} {r : Attempt} :
    (r.map f).Limited ↔ r.Limited := by
  cases r with
  | matched s => exact Iff.rfl
  | stopped why s => cases why <;> exact Iff.rfl

theorem Attempt.limited_leave {c : Setting} {m : Mark} {outer : NodeId} {r : Attempt} :
    (leave c m outer r).Limited ↔ r.Limited := by
  cases r with
  | matched s => exact Iff.rfl
  | stopped why s => cases why <;> exact Iff.rfl

/-- all that was said from `s` to `s'` is of the kind `P` -/
def Said (P : Event → Prop) (s s' : State) : Prop :=
  ∃ es, s'.log.toList = s.log.toList ++ es ∧ ∀ e ∈ es, P e

section
variable {P : Event → Prop} {s s' u : State}

theorem Said.of_log (h : s'.log = s.log) : Said P s s' := ⟨[], by rw [h, List.append_nil], nofun⟩

theorem Said.refl (s : State) : Said P s s := .of_log rfl

theorem Said.trans (h : Said P s s') (h' : Said P s' u) : Said P s u := by
  obtain ⟨es, he, hq⟩ := h
  obtain ⟨es', he', hq'⟩ := h'
  refine ⟨es ++ es', by rw [he', he, List.append_assoc], fun e hmem => ?_⟩
  rcases List.mem_append.mp hmem with hmem | hmem
  · exact hq e hmem
  · exact hq' e hmem

theorem said_say {e : Event} (he : P e) : Said P s (s.say e) := by
  refine ⟨[e], Array.toList_push, fun e' hmem => ?_⟩
  rw [List.mem_singleton.mp hmem]
  exact he

end

end Matching

def Verdict.Limited (v : Verdict) : Prop :=
  ∃ limit offset failure, v = .rejected ⟨.recursionLimit limit, offset, failure⟩

namespace Parser

open Matching

variable (p : Parser) (start : RuleId)

def begun : Array Event :=
  p.log.push (.parse ((p.grammar.ruleName? start).getD "?") p.source.file p.source.size)

/-- the state in which the production of the start rule is begun -/
def first : State := .first start (p.begun start)

def outcome : Attempt := run p.setting start (p.begun start)

def ended (v : Verdict) (log : Array Event) : Array Event :=
  match v with
  | .rejected e => log.push (.parseFailed e)
  | _ => log

theorem parse_eq : p.parse start =
    ({ p with
        tree := (conclude p.setting (p.outcome start)).2
        failure := (p.outcome start).state.failure
        log := ended (conclude p.setting (p.outcome start)).1 (p.outcome start).state.log
        peak := (p.outcome start).state.peak },
      (conclude p.setting (p.outcome start)).1) := rfl

theorem verdict_eq : (p.parse start).2 = (conclude p.setting (p.outcome start)).1 := rfl

theorem failure_eq : (p.parse start).1.failure = (p.outcome start).state.failure := rfl

theorem peak_eq : (p.parse start).1.peak = (p.outcome start).state.peak := rfl

theorem conclude_of_mismatch (c : Setting) (s : State) :
    conclude c (.stopped .mismatch s) =
      (.rejected ⟨.noMatch, (s.failure.map Failure.token).getD 0, s.failure⟩, {}) := rfl

theorem conclude_of_limit (c : Setting) (s : State) :
    conclude c (.stopped .limit s) =
      (.rejected ⟨.recursionLimit c.maxDepth, s.pos, s.failure⟩, {}) := rfl

theorem rejected_iff {e : ParseError} :
    (p.parse start).2 = .rejected e ↔ errorOf p.setting (p.outcome start) = some e := by
  rw [verdict_eq]
  cases p.outcome start with
  | matched s =>
    by_cases h : s.pos = p.setting.source.size
    · simp [conclude_of_eq h, errorOf, h]
    · simp [conclude_of_ne h, errorOf, h]
  | stopped why s =>
    cases why with
    | mismatch => simp [conclude_of_mismatch, errorOf]
    | limit => simp [conclude_of_limit, errorOf]
    | endless => simp [conclude, errorOf]

theorem ends_of_rejected {e : ParseError} (h : (p.parse start).2 = .rejected e) :
    (p.parse start).2 ≠ .endless := by
  rw [h]
  exact nofun

/-- a source is accepted by a matching that reaches its end; the root is closed over what matched -/
theorem matched_of_accepted {root : NodeId} (h : (p.parse start).2 = .accepted root) :
    ∃ s, p.outcome start = .matched s ∧ s.pos = p.source.size ∧
      (p.parse start).1.tree = (s.closed p.setting Tree.rootId 0).tree := by
  rw [verdict_eq] at h
  rw [parse_eq]
  cases e : p.outcome start with
  | matched s =>
    rw [e] at h
    by_cases hall : s.pos = p.setting.source.size
    · exact ⟨s, rfl, hall, by rw [conclude_of_eq hall]⟩
    · rw [conclude_of_ne hall] at h
      cases h
  | stopped why s =>
    rw [e] at h
    cases why <;> cases h

theorem ends_iff : (p.parse start).2 ≠ .endless ↔ (p.outcome start).Finished := by
  rw [verdict_eq]
  cases p.outcome start with
  | matched s =>
    by_cases h : s.pos = p.setting.source.size
    · simp [conclude_of_eq h, Attempt.Finished]
    · simp [conclude_of_ne h, Attempt.Finished]
  | stopped why s =>
    cases why with
    | mismatch => simp [conclude_of_mismatch, Attempt.Finished]
    | limit => simp [conclude_of_limit, Attempt.Finished]
    | endless => simp [conclude, errorOf, Attempt.Finished]

theorem limited_iff : (p.parse start).2.Limited ↔ (p.outcome start).Limited := by
  unfold Verdict.Limited
  rw [verdict_eq]
  cases p.outcome start with
  | matched s =>
    by_cases h : s.pos = p.setting.source.size
    · simp [conclude_of_eq h, Attempt.Limited]
    · simp [conclude_of_ne h, Attempt.Limited]
  | stopped why s =>
    cases why with
    | mismatch => simp [conclude_of_mismatch, Attempt.Limited]
    | limit => simp [conclude_of_limit, Attempt.Limited]
    | endless => simp [conclude, errorOf, Attempt.Limited]

theorem verdict_of_ends (he : (p.parse start).2 ≠ .endless) (hl : ¬ (p.parse start).2.Limited) :
    (p.parse start).2 = .accepted Tree.rootId ∨
    (∃ offset failure, (p.parse start).2 = .rejected ⟨.noMatch, offset, failure⟩) ∨
    ∃ consumed total offset failure,
      (p.parse start).2 = .rejected ⟨.trailingInput consumed total, offset, failure⟩ := by
  rw [ends_iff] at he
  rw [limited_iff] at hl
  rw [verdict_eq]
  cases hr : p.outcome start with
  | matched s =>
    by_cases h : s.pos = p.setting.source.size
    · exact .inl (by rw [conclude_of_eq h])
    · exact .inr (.inr ⟨_, _, _, _, by rw [conclude_of_ne h]⟩)
  | stopped why s =>
    rw [hr] at he hl
    cases why with
    | mismatch => exact .inr (.inl ⟨_, _, by rw [conclude_of_mismatch]⟩)
    | limit => exact absurd trivial hl
    | endless => exact he.elim

theorem yields_outcome (h : (p.parse start).2 ≠ .endless) :
    ∃ h, Yields p.setting h (.body start start) (p.first start) (p.outcome start) := by
  exact yields_run_iff.mpr ⟨rfl, (p.ends_iff start).mp h⟩

theorem outcome_of_yields {h : Nat} {r : Attempt}
    (hy : Yields p.setting h (.body start start) (p.first start) r) : p.outcome start = r :=
  (yields_run_iff.mp ⟨h, hy⟩).1

/-! ## what a parse says -/

section
variable {p : Parser} {start : RuleId} {u : State} {P : Event → Prop}

theorem said_since (hbegin : ∀ rule file tokens, P (.parse rule file tokens))
    (hs : Said P (p.first start) u) :
    ∃ es, u.log.toList = p.log.toList ++ es ∧ ∀ e ∈ es, P e := by
  obtain ⟨es, hlog, hes⟩ := hs
  have hfirst : (p.first start).log.toList = p.log.toList ++
      [.parse ((p.grammar.ruleName? start).getD "?") p.source.file p.source.size] :=
    Array.toList_push
  refine ⟨_ :: es, by rw [hlog, hfirst, List.append_assoc]; rfl, fun e he => ?_⟩
  rcases List.mem_cons.mp he with rfl | he
  · exact hbegin _ _ _
  · exact hes e he

/-- what a parse says is what its matching said, and how it begins and ends -/
theorem said_by_parse (hbegin : ∀ rule file tokens, P (.parse rule file tokens))
    (hend : ∀ e, P (.parseFailed e)) (hs : Said P (p.first start) (p.outcome start).state) :
    ∃ es, (p.parse start).1.log.toList = p.log.toList ++ es ∧ ∀ e ∈ es, P e := by
  obtain ⟨es, hlog, hes⟩ := said_since hbegin hs
  rw [parse_eq]
  cases (conclude p.setting (p.outcome start)).1 with
  | rejected e =>
    refine ⟨es ++ [.parseFailed e], ?_, fun e' he' => ?_⟩
    · show ((p.outcome start).state.log.push _).toList = _
      rw [Array.toList_push, hlog, List.append_assoc]
    · rcases List.mem_append.mp he' with he' | he'
      · exact hes e' he'
      · rw [List.mem_singleton.mp he']
        exact hend e
  | accepted root => exact ⟨es, hlog, hes⟩
  | endless => exact ⟨es, hlog, hes⟩

end

end Parser

/-! ## reports -/

/-- the snippet names the file, the line and the column of the token `i`, and shows its line -/
def Diagnostic.PointsAt (d : Diagnostic) (x : Lexed) (i width : Nat) : Prop :=
  d.snippet = some
    { file := x.file
      line := (x.location i).line
      column := (x.location i).column + 1
      lineText := x.lineText (x.location i)
      width }

theorem Diagnostic.pointsAt_of_snippet {d : Diagnostic} {x : Lexed} {i width : Nat}
    (h : d.snippet = some (Report.snippet x i width)) : d.PointsAt x i (max width 1) := h

end Ebnf
