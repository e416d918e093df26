import Ebnf.Proofs.Grammar.Built
import Ebnf.Proofs.Outcome
import Ebnf.Proofs.Source.Spelling

/-!
# The recorded failure is true

A failure names a rule, a token and a term.  In a grammar that is built by calls the term is a leaf
of that rule's production, and it cannot match at that token.

* `Rejects`          a leaf cannot match at a place;
* `Truthful`         what a recorded failure says is so;
* `Job.Fits`         the terms of a job lie in the production of the current rule;
* `Yields.truthful`  a run that begins with a true failure, or none, ends so;
* `failure_truthful` so does every parse, and what its error says was expected is true.
-/

namespace Ebnf

open Grammar Matching

/-- the leaf `t` cannot match at the token `i` -/
inductive Rejects (x : Lexed) (g : Grammar) (i : Nat) (t : TermId) : Prop where
  | token {m o} (hn : g.node? t = some (.token m o)) (hin : i < x.size → (x.token i).is m = false)
      (hend : i = x.size → m.isEof = false)
  | literal {text o} (hn : g.node? t = some (.literal text o))
      (h : ∀ j, i ≤ j → j ≤ x.size → x.covered i j ≠ Utf8.encode (g.text text))
  | reference {target o} (hn : g.node? t = some (.reference target o))
      (h : target ∉ g.rules ∨ g.production? target = none)

/-- a failure says what is so: its term is a leaf of the production of its rule and cannot match at
its token, or it blames the start rule, which has no production -/
structure Truthful (x : Lexed) (g : Grammar) (start : RuleId) (f : Failure) : Prop where
  bound : f.token ≤ x.size
  term : (g.InProduction f.rule f.term ∧ Rejects x g f.token f.term) ∨
    (f.rule = start ∧ f.term = start ∧ g.production? start = none)

namespace Matching

def State.Honest (c : Setting) (start : RuleId) (s : State) : Prop :=
  ∀ f, s.failure = some f → Truthful c.source c.grammar start f

/-- while `rule` is being matched, the terms of the job lie in its production; just the start rule
has no reference that stands for it -/
def Job.Fits (g : Grammar) (start rule : RuleId) : Job → Prop
  | .term t => g.InProduction rule t
  | .rounds t n => g.InProduction rule t ∧ g.node? t = some n
  | .more t n _ => g.InProduction rule t ∧ g.node? t = some n
  | .single t n => g.InProduction rule t ∧ g.node? t = some n
  | .once t n => g.InProduction rule t ∧ g.node? t = some n
  | .inOrder ts => ∀ t ∈ ts, g.InProduction rule t
  | .firstOf ts => ∀ t ∈ ts, g.InProduction rule t
  | .nested j => j.Fits g start rule
  | .under t target => g.InProduction rule t ∧ ∃ o, g.node? t = some (.reference target o)
  | .body t target => (g.InProduction rule t ∧ ∃ o, g.node? t = some (.reference target o)) ∨
      (rule = start ∧ t = start ∧ target = start)

section
variable {c : Setting} {start : RuleId} {s s' : State} {t : TermId}

theorem honest_miss (hs : s.Honest c start) (hle : s.pos ≤ c.source.size)
    (ht : (c.grammar.InProduction s.rule t ∧ Rejects c.source c.grammar s.pos t) ∨
      (s.rule = start ∧ t = start ∧ c.grammar.production? start = none)) :
    (miss s t).state.Honest c start := by
  intro f hf
  have hnew : Truthful c.source c.grammar start ⟨s.rule, s.pos, t⟩ := ⟨hle, ht⟩
  obtain rfl : Failure.furthest s.failure ⟨s.rule, s.pos, t⟩ = f := Option.some.inj hf
  rcases Failure.furthest_cases s.failure ⟨s.rule, s.pos, t⟩ with e | e
  · rw [e]
    exact hnew
  · exact hs _ e

theorem honest_token {m : Mask} {o : Occurrence} (hn : c.grammar.node? t = some (.token m o))
    (ht : c.grammar.InProduction s.rule t) (hle : s.pos ≤ c.source.size)
    (hs : s.Honest c start) : (token c t m s).state.Honest c start := by
  rcases token_cases c t m s with ⟨_, _, e⟩ | ⟨_, _, e⟩ | ⟨hend, hin, e⟩
  · rw [e]
    exact hs
  · rw [e]
    exact hs
  · rw [e]
    exact honest_miss hs hle (.inl ⟨ht, .token hn hin fun he => hend (Nat.le_of_eq he.symm)⟩)

theorem honest_literal {text : Text} {o : Occurrence}
    (hn : c.grammar.node? t = some (.literal text o)) (ht : c.grammar.InProduction s.rule t)
    (hle : s.pos ≤ c.source.size) (hs : s.Honest c start) :
    (literal c t (c.grammar.text text) s).state.Honest c start := by
  rcases literal_cases c t (c.grammar.text text) s with ⟨stop, _, e⟩ | ⟨hnone, e⟩
  · rw [e]
    exact hs
  · rw [e]
    refine honest_miss hs hle (.inl ⟨ht, .literal hn fun j hij hj hcov => ?_⟩)
    have hsome : c.source.spell s.pos (Utf8.encode (c.grammar.text text)) = some j :=
      c.source.spell_eq_some_iff.mpr ⟨hij, Nat.le_trans hj (Nat.le_max_right _ _), hcov⟩
    rw [hnone] at hsome
    cases hsome

theorem honest_leave {m : Mark} {outer : NodeId} {r : Attempt} (hr : r.state.Honest c start) :
    (leave c m outer r).state.Honest c start := by
  cases r with
  | matched s => exact hr
  | stopped why s => exact hr

/-- a rule that has no production is blamed through its reference, or as the start rule -/
theorem honest_unresolved {rule : RuleId} (hj : (Job.body t rule).Fits c.grammar start s.rule)
    (hp : c.grammar.production? rule = none) (hle : s.pos ≤ c.source.size) (e : Event)
    (hs : s.Honest c start) : (miss (s.say e) t).state.Honest c start := by
  refine honest_miss (s := s.say e) hs hle ?_
  rcases hj with ⟨ht, o, hn⟩ | ⟨hrule, rfl, rfl⟩
  · exact .inl ⟨ht, .reference hn (.inr hp)⟩
  · exact .inr ⟨hrule, rfl, hp⟩

end

section
variable {c : Setting} {start : RuleId} {h : Nat} {j : Job} {s : State} {r : Attempt}

/-- a run that begins with a true failure, or with none, ends so -/
theorem Yields.truthful (hg : c.grammar.WellFormed) (hy : Yields c h j s r) :
    j.Fits c.grammar start s.rule → s.pos ≤ c.source.size → s.Honest c start →
    r.state.Honest c start := by
  induction hy with
  | missing hn =>
    intro hj
    obtain ⟨n, hn', _⟩ := hg.isTerm hj
    cases hn.symm.trans hn'
  | taken hn _ _ ih => exact fun hj => ih ⟨hj, hn⟩
  | skipped hn _ _ ih => exact fun hj => ih ⟨hj, hn⟩
  | justOne _ _ ih => exact ih
  | noneAtAll _ _ ih => exact ih
  | oneAndMore _ hr _ ih ihm =>
    intro hj hle hs
    exact ihm (hr.frame.rule ▸ hj) (hr.frame.pos_le hle) (ih hj hle hs)
  | idle => exact fun _ _ hs => hs
  | another _ hr _ ih ihm =>
    intro hj hle hs
    exact ihm (hr.frame.rule ▸ hj) (hr.frame.pos_le hle) (ih hj hle hs)
  | enough _ _ ih => exact ih
  | cutShort _ _ ih => exact ih
  | kept _ ih => exact ih
  | undone _ ih => exact ih
  | ruleAsTerm =>
    intro hj
    obtain ⟨n, hn', hterm⟩ := hg.isTerm hj.1
    obtain rfl := Option.some.inj (hj.2.symm.trans hn')
    cases hterm
  | reference _ ih => exact fun hj => ih ⟨hj.1, _, hj.2⟩
  | token => exact fun hj hle hs => honest_token hj.2 hj.1 hle hs
  | literal => exact fun hj hle hs => honest_literal hj.2 hj.1 hle hs
  | alternation _ ih => exact fun hj => ih fun u hu => hj.1.of_node hj.2 hu
  | concatenation _ ih => exact fun hj => ih fun u hu => hj.1.of_node hj.2 hu
  | group _ ih => exact fun hj => ih fun u hu => hj.1.of_node hj.2 hu
  | tooDeep => exact fun _ _ hs => hs
  | deeper _ _ ih =>
    intro hj hle hs
    rw [Attempt.state_map]
    exact ih hj hle hs
  | allDone => exact fun _ _ hs => hs
  | nextOne ht _ iht ih =>
    intro hj hle hs
    have hrest := fun u hu => hj u (List.mem_cons_of_mem _ hu)
    exact ih (ht.frame.rule ▸ hrest) (ht.frame.pos_le hle) (iht (hj _ List.mem_cons_self) hle hs)
  | broken _ ih => exact fun hj => ih (hj _ List.mem_cons_self)
  | noneLeft => exact fun _ _ hs => hs
  | chosen _ ih => exact fun hj => ih (hj _ List.mem_cons_self)
  | otherwise ht _ iht ih =>
    intro hj hle hs
    have hrest := fun u hu => hj u (List.mem_cons_of_mem _ hu)
    exact ih (ht.frame.rule ▸ hrest) (ht.frame.pos_le hle) (iht (hj _ List.mem_cons_self) hle hs)
  | givenUp _ ih => exact fun hj => ih (hj _ List.mem_cons_self)
  | under _ ih => exact fun hj hle hs => honest_leave (ih (.inl hj) hle hs)
  | production hn _ ih =>
    -- inside the production its own rule is the current one
    intro _ hle hs
    rw [Attempt.state_map]
    exact ih (inProduction_of_production (production?_of_node? hn)) hle hs
  | noProduction hn => exact fun hj hle => honest_unresolved hj (production?_of_node? hn) hle _
  | notARule hn => exact fun hj hle => honest_unresolved hj (production?_eq_none hn) hle _

end

end Matching

namespace Parser

theorem failure_of_rejected {p : Parser} {start : RuleId} {e : ParseError}
    (h : (p.parse start).2 = .rejected e) : e.failure = (p.parse start).1.failure := by
  rw [rejected_iff] at h
  rw [failure_eq]
  cases hr : p.outcome start with
  | matched s =>
    rw [hr, errorOf] at h
    split at h
    · cases h
    · obtain rfl := Option.some.inj h
      rfl
  | stopped why s =>
    rw [hr] at h
    cases why with
    | mismatch =>
      obtain rfl := Option.some.inj h
      rfl
    | limit =>
      obtain rfl := Option.some.inj h
      rfl
    | endless => cases h

/-- in a grammar that is built by calls, whatever a parse has recorded as a failure is true when it
ends, and so is what its error says was expected; an id that is no rule has no production either -/
theorem failure_truthful (p : Parser) (start : RuleId) {steps : List Step}
    (hg : p.grammar = build steps) (he : (p.parse start).2 ≠ .endless) :
    (∀ f, (p.parse start).1.failure = some f → Truthful p.source p.grammar start f) ∧
    ∀ e f, (p.parse start).2 = .rejected e → e.expectation = some f →
      Truthful p.source p.grammar start f := by
  have hwf : p.setting.grammar.WellFormed := by
    show p.grammar.WellFormed
    rw [hg]
    exact build_wellFormed steps
  have hrecord : ∀ f, (p.parse start).1.failure = some f →
      Truthful p.source p.grammar start f := by
    obtain ⟨h, hy⟩ := p.yields_outcome start he
    have hnone : (p.first start).Honest p.setting start := fun f hf => by cases hf
    exact hy.truthful hwf (.inr ⟨rfl, rfl, rfl⟩) (Nat.zero_le _) hnone
  refine ⟨hrecord, fun e f hv hf => hrecord f ?_⟩
  rw [← failure_of_rejected hv]
  exact (Option.filter_eq_some_iff.mp hf).1

open Grammar in
/-- `s = "a" t` and `t = "b"` do not match `ac`: the literal of `t` is blamed at `c` -/
theorem failure_truthful_inner_rule :
    let steps : List Step := [.rule "s", .rule "t", .concatenation, .literal "a" .one,
      .reference 1 .one, .attach 2 3, .attach 2 4, .attach 0 2, .literal "b" .one, .attach 1 5]
    let p : Parser := { source := .ofText "ac" "input" 0 {}, grammar := build steps }
    (p.parse 0).2 = .rejected ⟨.noMatch, 1, some ⟨1, 1, 5⟩⟩ ∧
    (p.parse 0).1.failure = some ⟨1, 1, 5⟩ ∧ Truthful p.source p.grammar 0 ⟨1, 1, 5⟩ := by
  intro steps p
  have hg : p.grammar = build steps := rfl
  have hv : (p.parse 0).2 = .rejected ⟨.noMatch, 1, some ⟨1, 1, 5⟩⟩ := by decide +kernel
  have hf : (p.parse 0).1.failure = some ⟨1, 1, 5⟩ := by decide +kernel
  have he : (p.parse 0).2 ≠ .endless := by
    rw [hv]
    exact fun he => by cases he
  exact ⟨hv, hf, (failure_truthful p 0 hg he).1 _ hf⟩

end Parser

end Ebnf
