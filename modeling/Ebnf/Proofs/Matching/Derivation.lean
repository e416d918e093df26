import Ebnf.Matching.Run

/-!
# Matching as a relation

`attempt` computes; here the same runs are trees of rules, one rule for each way a match can go on.
What holds of all runs is then shown by one induction, with a case for each rule.

* `Job`             what is being matched: a term, a list of terms, a rule, the rounds that follow;
* `Yields`          a job, begun in a state, comes to an end with an outcome, by attempts that lie at
                    most `height` deep in each other;
* `Yields.mono`     a larger height changes nothing, so two runs lie within one height;
* `yields_attempt`  an attempt that comes to an end is such a run.

A run that goes round forever has no tree, so `Yields` never gives the outcome `endless`.
-/

namespace Ebnf.Matching

def Attempt.Finished : Attempt → Prop
  | .stopped .endless _ => False
  | _ => True

inductive Job where
  /-- a term, as often as it may occur -/
  | term (t : TermId)
  /-- one or more matches of a node, or just one if it may not be repeated -/
  | rounds (t : TermId) (n : Grammar.Node)
  /-- the matches that follow one that began at `start` -/
  | more (t : TermId) (n : Grammar.Node) (start : Nat)
  /-- a single match, all or nothing -/
  | single (t : TermId) (n : Grammar.Node)
  /-- a single match, with nothing undone yet -/
  | once (t : TermId) (n : Grammar.Node)
  | inOrder (ts : List TermId)
  | firstOf (ts : List TermId)
  /-- a job one level deeper -/
  | nested (j : Job)
  /-- a rule, below a node of its own -/
  | under (t : TermId) (rule : RuleId)
  /-- the production of a rule -/
  | body (t : TermId) (rule : RuleId)

/-- `j`, begun in `s`, comes to the end `r` -/
inductive Yields (c : Setting) : (height : Nat) → Job → State → Attempt → Prop where
  | missing {h t s} (hn : c.grammar.node? t = none) :
      Yields c (h + 1) (.term t) s (miss (s.say (.missingTerm t)) t)
  | taken {h t n s r} (hn : c.grammar.node? t = some n) (hr : Yields c h (.rounds t n) s r)
      (ho : n.occurrence.isOptional = true → ∀ s', r ≠ .stopped .mismatch s') :
      Yields c (h + 1) (.term t) s r
  | skipped {h t n s s'} (hn : c.grammar.node? t = some n) (ho : n.occurrence.isOptional = true)
      (hr : Yields c h (.rounds t n) s (.stopped .mismatch s')) :
      Yields c (h + 1) (.term t) s (.matched s')
  | justOne {h t n s r} (hn : n.occurrence.isRepeated = false) (hr : Yields c h (.single t n) s r) :
      Yields c h (.rounds t n) s r
  | noneAtAll {h t n s why s'} (hn : n.occurrence.isRepeated = true)
      (hr : Yields c h (.single t n) s (.stopped why s')) :
      Yields c h (.rounds t n) s (.stopped why s')
  | oneAndMore {h t n s s' r} (hn : n.occurrence.isRepeated = true)
      (hr : Yields c h (.single t n) s (.matched s')) (hm : Yields c h (.more t n s.pos) s' r) :
      Yields c h (.rounds t n) s r
  | idle {h t n start s} (hs : s.pos ≤ start) :
      Yields c h (.more t n start) s (.matched (s.say (.idleRepetition t s.pos)))
  | another {h t n start s s' r} (hs : start < s.pos)
      (hr : Yields c h (.single t n) s (.matched s')) (hm : Yields c h (.more t n s.pos) s' r) :
      Yields c h (.more t n start) s r
  | enough {h t n start s s'} (hs : start < s.pos)
      (hr : Yields c h (.single t n) s (.stopped .mismatch s')) :
      Yields c h (.more t n start) s (.matched s')
  | cutShort {h t n start s s'} (hs : start < s.pos)
      (hr : Yields c h (.single t n) s (.stopped .limit s')) :
      Yields c h (.more t n start) s (.stopped .limit s')
  | kept {h t n s s'} (hr : Yields c h (.once t n) s (.matched s')) :
      Yields c h (.single t n) s (.matched s')
  | undone {h t n s why s'} (hr : Yields c h (.once t n) s (.stopped why s')) :
      Yields c h (.single t n) s (.stopped why (s'.reset s.mark))
  | ruleAsTerm {h t name production s} :
      Yields c h (.once t (.rule name production)) s (miss (s.say (.ruleAsTerm t)) t)
  | reference {h t target o s r} (hr : Yields c h (.nested (.under t target)) s r) :
      Yields c h (.once t (.reference target o)) s r
  | token {h t m o s} : Yields c h (.once t (.token m o)) s (Matching.token c t m s)
  | literal {h t x o s} :
      Yields c h (.once t (.literal x o)) s (Matching.literal c t (c.grammar.text x) s)
  | alternation {h t ts s r} (hr : Yields c h (.firstOf ts) s r) :
      Yields c h (.once t (.alternation ts)) s r
  | concatenation {h t ts s r} (hr : Yields c h (.inOrder ts) s r) :
      Yields c h (.once t (.concatenation ts)) s r
  | group {h t ts o s r} (hr : Yields c h (.nested (.inOrder ts)) s r) :
      Yields c h (.once t (.group ts o)) s r
  | tooDeep {h j s} (hd : c.maxDepth ≤ s.depth) :
      Yields c h (.nested j) s (.stopped .limit (s.say (.limitReached s.depth s.pos)))
  | deeper {h j s r} (hd : s.depth < c.maxDepth) (hr : Yields c h j s.deeper r) :
      Yields c h (.nested j) s (r.map fun s' => s'.withDepth s.depth)
  | allDone {h s} : Yields c h (.inOrder []) s (.matched s)
  | nextOne {h t ts s s' r} (ht : Yields c h (.term t) s (.matched s'))
      (hr : Yields c h (.inOrder ts) s' r) : Yields c h (.inOrder (t :: ts)) s r
  | broken {h t ts s why s'} (ht : Yields c h (.term t) s (.stopped why s')) :
      Yields c h (.inOrder (t :: ts)) s (.stopped why s')
  | noneLeft {h s} : Yields c h (.firstOf []) s (.stopped .mismatch s)
  | chosen {h t ts s s'} (ht : Yields c h (.term t) s (.matched s')) :
      Yields c h (.firstOf (t :: ts)) s (.matched s')
  | otherwise {h t ts s s' r} (ht : Yields c h (.term t) s (.stopped .mismatch s'))
      (hr : Yields c h (.firstOf ts) s' r) : Yields c h (.firstOf (t :: ts)) s r
  | givenUp {h t ts s s'} (ht : Yields c h (.term t) s (.stopped .limit s')) :
      Yields c h (.firstOf (t :: ts)) s (.stopped .limit s')
  | under {h t rule s r}
      (hr : Yields c h (.body t rule) (s.opened rule (some t) (some s.parent)) r) :
      Yields c h (.under t rule) s (leave c s.mark s.parent r)
  | production {h t rule name production s r}
      (hn : c.grammar.node? rule = some (.rule name (some production)))
      (hr : Yields c h (.term production)
        ((s.say (.enterRule (c.grammar.text name) s.pos)).withRule rule) r) :
      Yields c h (.body t rule) s (r.map fun s' => s'.withRule s.rule)
  | noProduction {h t rule name s} (hn : c.grammar.node? rule = some (.rule name none)) :
      Yields c h (.body t rule) s (miss (s.say (.noProduction (c.grammar.text name))) t)
  | notARule {h t rule s}
      (hn : ∀ name production, c.grammar.node? rule ≠ some (.rule name production)) :
      Yields c h (.body t rule) s (miss (s.say (.notARule rule)) t)

namespace Attempt

theorem finished_map {f : State → State} {r : Attempt} : (r.map f).Finished ↔ r.Finished := by
  cases r with
  | matched s => exact Iff.rfl
  | stopped why s => cases why <;> exact Iff.rfl

theorem finished_leave {c : Setting} {m : Mark} {outer : NodeId} {r : Attempt} :
    (leave c m outer r).Finished ↔ r.Finished := by
  cases r with
  | matched s => exact Iff.rfl
  | stopped why s => cases why <;> exact Iff.rfl

theorem finished_token (c : Setting) (t : TermId) (m : Mask) (s : State) :
    (Matching.token c t m s).Finished := by
  unfold Matching.token
  dsimp only
  split <;> split <;> trivial

theorem finished_literal (c : Setting) (t : TermId) (x : String) (s : State) :
    (Matching.literal c t x s).Finished := by
  unfold Matching.literal
  split <;> trivial

end Attempt

theorem Yields.finished {c : Setting} {h : Nat} {j : Job} {s : State} {r : Attempt}
    (hy : Yields c h j s r) : r.Finished := by
  induction hy with
  | missing => trivial
  | taken _ _ _ ih => exact ih
  | skipped => trivial
  | justOne _ _ ih => exact ih
  | noneAtAll _ _ ih => exact ih
  | oneAndMore _ _ _ _ ih => exact ih
  | idle => trivial
  | another _ _ _ _ ih => exact ih
  | enough => trivial
  | cutShort => trivial
  | kept => trivial
  | @undone _ _ _ _ why _ _ ih => cases why <;> exact ih
  | ruleAsTerm => trivial
  | reference _ ih => exact ih
  | token => exact Attempt.finished_token _ _ _ _
  | literal => exact Attempt.finished_literal _ _ _ _
  | alternation _ ih => exact ih
  | concatenation _ ih => exact ih
  | group _ ih => exact ih
  | tooDeep => trivial
  | deeper _ _ ih => exact Attempt.finished_map.mpr ih
  | allDone => trivial
  | nextOne _ _ _ ih => exact ih
  | broken _ ih => exact ih
  | noneLeft => trivial
  | chosen => trivial
  | otherwise _ _ _ ih => exact ih
  | givenUp => trivial
  | under _ ih => exact Attempt.finished_leave.mpr ih
  | production _ _ ih => exact Attempt.finished_map.mpr ih
  | noProduction => trivial
  | notARule => trivial

theorem Yields.mono {c : Setting} {h : Nat} {j : Job} {s : State} {r : Attempt}
    (hy : Yields c h j s r) : ∀ {k : Nat}, h ≤ k → Yields c k j s r := by
  induction hy with
  | missing hn =>
    intro k hk
    obtain ⟨k, rfl⟩ := Nat.exists_eq_add_of_le' (Nat.le_trans (Nat.le_add_left 1 _) hk)
    exact .missing hn
  | taken hn _ ho ih =>
    intro k hk
    obtain ⟨k, rfl⟩ := Nat.exists_eq_add_of_le' (Nat.le_trans (Nat.le_add_left 1 _) hk)
    exact .taken hn (ih (Nat.le_of_succ_le_succ hk)) ho
  | skipped hn ho _ ih =>
    intro k hk
    obtain ⟨k, rfl⟩ := Nat.exists_eq_add_of_le' (Nat.le_trans (Nat.le_add_left 1 _) hk)
    exact .skipped hn ho (ih (Nat.le_of_succ_le_succ hk))
  | justOne hn _ ih => exact fun hk => .justOne hn (ih hk)
  | noneAtAll hn _ ih => exact fun hk => .noneAtAll hn (ih hk)
  | oneAndMore hn _ _ ih ihm => exact fun hk => .oneAndMore hn (ih hk) (ihm hk)
  | idle hs => exact fun _ => .idle hs
  | another hs _ _ ih ihm => exact fun hk => .another hs (ih hk) (ihm hk)
  | enough hs _ ih => exact fun hk => .enough hs (ih hk)
  | cutShort hs _ ih => exact fun hk => .cutShort hs (ih hk)
  | kept _ ih => exact fun hk => .kept (ih hk)
  | undone _ ih => exact fun hk => .undone (ih hk)
  | ruleAsTerm => exact fun _ => .ruleAsTerm
  | reference _ ih => exact fun hk => .reference (ih hk)
  | token => exact fun _ => .token
  | literal => exact fun _ => .literal
  | alternation _ ih => exact fun hk => .alternation (ih hk)
  | concatenation _ ih => exact fun hk => .concatenation (ih hk)
  | group _ ih => exact fun hk => .group (ih hk)
  | tooDeep hd => exact fun _ => .tooDeep hd
  | deeper hd _ ih => exact fun hk => .deeper hd (ih hk)
  | allDone => exact fun _ => .allDone
  | nextOne _ _ iht ih => exact fun hk => .nextOne (iht hk) (ih hk)
  | broken _ ih => exact fun hk => .broken (ih hk)
  | noneLeft => exact fun _ => .noneLeft
  | chosen _ ih => exact fun hk => .chosen (ih hk)
  | otherwise _ _ iht ih => exact fun hk => .otherwise (iht hk) (ih hk)
  | givenUp _ ih => exact fun hk => .givenUp (ih hk)
  | under _ ih => exact fun hk => .under (ih hk)
  | production hn _ ih => exact fun hk => .production hn (ih hk)
  | noProduction hn => exact fun _ => .noProduction hn
  | notARule hn => exact fun _ => .notARule hn

theorem Yields.within_one {c : Setting} {h h' : Nat} {j j' : Job} {s s' : State} {r r' : Attempt}
    (hy : Yields c h j s r) (hy' : Yields c h' j' s' r') :
    ∃ m, Yields c m j s r ∧ Yields c m j' s' r' :=
  ⟨max h h', hy.mono (Nat.le_max_left h h'), hy'.mono (Nat.le_max_right h h')⟩

/-! ## from computation to derivation -/

section
variable {c : Setting} {h : Nat} {again : TermId → State → Attempt}
  (H : ∀ t s, (again t s).Finished → Yields c h (.term t) s (again t s))
include H

theorem yields_inOrder (ts : List TermId) (s : State) (hf : (inOrder again ts s).Finished) :
    Yields c h (.inOrder ts) s (inOrder again ts s) := by
  induction ts generalizing s with
  | nil => exact .allDone
  | cons t ts ih =>
    have ht := H t s
    rw [inOrder] at hf ⊢
    cases e : again t s with
    | matched s' =>
      rw [e] at ht hf
      exact .nextOne (ht trivial) (ih s' hf)
    | stopped why s' =>
      rw [e] at ht hf
      exact .broken (ht hf)

theorem yields_firstOf (ts : List TermId) (s : State) (hf : (firstOf again ts s).Finished) :
    Yields c h (.firstOf ts) s (firstOf again ts s) := by
  induction ts generalizing s with
  | nil => exact .noneLeft
  | cons t ts ih =>
    have ht := H t s
    rw [firstOf] at hf ⊢
    cases e : again t s with
    | matched s' =>
      rw [e] at ht
      exact .chosen (ht trivial)
    | stopped why s' =>
      rw [e] at ht hf
      cases why with
      | mismatch => exact .otherwise (ht trivial) (ih s' hf)
      | limit => exact .givenUp (ht trivial)
      | endless => exact hf.elim

theorem yields_body (t : TermId) (rule : RuleId) (s : State)
    (hf : (body c again t rule s).Finished) :
    Yields c h (.body t rule) s (body c again t rule s) := by
  unfold body at hf ⊢
  split at hf
  · rename_i name production hn
    have hp := H production ((s.say (.enterRule (c.grammar.text name) s.pos)).withRule rule)
    exact .production hn (hp (Attempt.finished_map.mp hf))
  · rename_i name hn
    exact .noProduction hn
  · rename_i hp hn
    refine .notARule fun name production e => ?_
    cases production with
    | none => exact hn name e
    | some production => exact hp name production e

theorem yields_underRule (t : TermId) (rule : RuleId) (s : State)
    (hf : (underRule c again t rule s).Finished) :
    Yields c h (.under t rule) s (underRule c again t rule s) :=
  .under (yields_body H t rule _ (Attempt.finished_leave.mp hf))

omit H in
theorem yields_nested {run : State → Attempt} {j : Job}
    (hj : ∀ s, (run s).Finished → Yields c h j s (run s)) (s : State)
    (hf : (nested c run s).Finished) : Yields c h (.nested j) s (nested c run s) := by
  by_cases hd : c.maxDepth ≤ s.depth
  · rw [nested_of_le hd]
    exact .tooDeep hd
  · have hd := Nat.lt_of_not_le hd
    rw [nested_of_lt hd] at hf ⊢
    exact .deeper hd (hj _ (Attempt.finished_map.mp hf))

theorem yields_once (t : TermId) (n : Grammar.Node) (s : State)
    (hf : (once c again t n s).Finished) : Yields c h (.once t n) s (once c again t n s) := by
  cases n with
  | rule name production => exact .ruleAsTerm
  | reference target o => exact .reference (yields_nested (yields_underRule H t target) s hf)
  | token m o => exact .token
  | literal x o => exact .literal
  | alternation ts => exact .alternation (yields_firstOf H ts s hf)
  | concatenation ts => exact .concatenation (yields_inOrder H ts s hf)
  | group ts o => exact .group (yields_nested (yields_inOrder H ts) s hf)

theorem yields_single (t : TermId) (n : Grammar.Node) (s : State)
    (hf : (atomic (once c again t n) s).Finished) :
    Yields c h (.single t n) s (atomic (once c again t n) s) := by
  have ho := yields_once H t n s
  unfold atomic at hf ⊢
  cases e : once c again t n s with
  | matched s' =>
    rw [e] at ho
    exact .kept (ho trivial)
  | stopped why s' =>
    rw [e] at ho hf
    exact .undone (ho (by cases why <;> exact hf))

end

section
variable {c : Setting} {h : Nat} {t : TermId} {n : Grammar.Node} {run : State → Attempt}
  (H : ∀ s, (run s).Finished → Yields c h (.single t n) s (run s))
include H

theorem yields_more (rounds start : Nat) (s : State) (hf : (more run t rounds start s).Finished) :
    Yields c h (.more t n start) s (more run t rounds start s) := by
  induction rounds generalizing start s with
  | zero => exact hf.elim
  | succ rounds ih =>
    have hr := H s
    rw [more] at hf ⊢
    by_cases hs : start < s.pos
    · rw [if_pos hs] at hf ⊢
      cases e : run s with
      | matched s' =>
        rw [e] at hr hf
        exact .another hs (hr trivial) (ih s.pos s' hf)
      | stopped why s' =>
        rw [e] at hr hf
        cases why with
        | mismatch => exact .enough hs (hr trivial)
        | limit => exact .cutShort hs (hr trivial)
        | endless => exact hf.elim
    · rw [if_neg hs]
      exact .idle (Nat.le_of_not_lt hs)

theorem yields_rounds (bound : Nat) (s : State)
    (hf : ((if n.occurrence.isRepeated then oneOrMore run t bound else run) s).Finished) :
    Yields c h (.rounds t n) s
      ((if n.occurrence.isRepeated then oneOrMore run t bound else run) s) := by
  cases hn : n.occurrence.isRepeated with
  | false =>
    rw [hn] at hf
    exact .justOne hn (H s hf)
  | true =>
    rw [hn] at hf
    have hr := H s
    change (oneOrMore run t bound s).Finished at hf
    show Yields c h _ s (oneOrMore run t bound s)
    unfold oneOrMore at hf ⊢
    cases e : run s with
    | matched s' =>
      rw [e] at hr hf
      exact .oneAndMore hn (hr trivial) (yields_more H bound s.pos s' hf)
    | stopped why s' =>
      rw [e] at hr hf
      exact .noneAtAll hn (hr hf)

end

theorem yields_optional {c : Setting} {h : Nat} {t : TermId} {n : Grammar.Node}
    {run : State → Attempt} {s : State} (hn : c.grammar.node? t = some n)
    (ho : n.occurrence.isOptional = true)
    (H : (run s).Finished → Yields c h (.rounds t n) s (run s))
    (hf : (optional run s).Finished) : Yields c (h + 1) (.term t) s (optional run s) := by
  unfold optional at hf ⊢
  cases e : run s with
  | matched s' =>
    rw [e] at H
    exact .taken hn (H trivial) (fun _ _ e' => by cases e')
  | stopped why s' =>
    rw [e] at H hf
    cases why with
    | mismatch => exact .skipped hn ho (H trivial)
    | limit => exact .taken hn (H trivial) (fun _ _ e' => by cases e')
    | endless => exact hf.elim

/-- an attempt that comes to an end is a run -/
theorem yields_attempt {c : Setting} {h : Nat} {t : TermId} {s : State}
    (hf : (attempt c h t s).Finished) : Yields c h (.term t) s (attempt c h t s) := by
  induction h generalizing t s with
  | zero => exact hf.elim
  | succ h ih =>
    rw [attempt_succ] at hf ⊢
    split at hf
    · rename_i hn
      exact .missing hn
    · rename_i n hn
      have hr := yields_rounds (yields_single (fun _ _ => ih) t n) (rounds c) s
      unfold occurring at hf ⊢
      cases ho : n.occurrence.isOptional with
      | false =>
        rw [ho] at hf
        exact .taken hn (hr hf) (fun ho' => by rw [ho] at ho'; cases ho')
      | true =>
        rw [ho] at hf
        exact yields_optional hn ho hr hf

end Ebnf.Matching
