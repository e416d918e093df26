import Mathlib.Data.Fintype.Card
import Mathlib.Logic.Relation
import Ebnf.Grammar.Build
import Ebnf.Proofs.Matching.Course
import Ebnf.Proofs.Outcome

/-!
# A limit makes every parse end

A call leads to a reference or a group, which lies one level deeper, or to a child of a choice or of
a sequence, or to a round that begins further on.  The limit bounds the first, the tokens bound the
last, and the second cannot go on forever unless a choice or a sequence lies in itself.

* `Holds`, `NoSelfNesting`   choices and sequences with their children; none lies in itself;
* `Grounded`            no chain of calls below a job goes on forever;
* `grounded_term`       in such a grammar no term has one;
* `Grounded.halts`      a job below which no chain of calls goes on forever comes to an end;
* `Tries`               the rounds that a repetition tries;
* `Tries.lt_of_next`    each of them begins further on than the one before;
* `parse_halts`         every parse comes to an end.
-/

namespace Ebnf

namespace Grammar

/-- `t` is a choice or a sequence, and `u` is one of its children -/
inductive Holds (g : Grammar) (t u : TermId) : Prop where
  | alternation {ts} (hn : g.node? t = some (.alternation ts)) (hu : u ∈ ts)
  | concatenation {ts} (hn : g.node? t = some (.concatenation ts)) (hu : u ∈ ts)

/-- no choice or sequence lies in itself, with nothing but choices and sequences in between -/
def NoSelfNesting (g : Grammar) : Prop := ∀ t, ¬ Relation.TransGen (Holds g) t t

variable {g : Grammar} {t u : TermId}

theorem Holds.lt_size (h : Holds g t u) : t < g.size := by
  cases h with
  | alternation hn => exact lt_size_of_node? hn
  | concatenation hn => exact lt_size_of_node? hn

theorem Holds.mem_children (h : Holds g t u) : u ∈ g.children t := by
  unfold children
  cases h with
  | alternation hn hu =>
    rw [hn]
    exact hu
  | concatenation hn hu =>
    rw [hn]
    exact hu

theorem noSelfNesting_of_rank (rank : TermId → Nat) (h : ∀ t u, Holds g t u → rank u < rank t) :
    g.NoSelfNesting := by
  intro t hp
  have hfall : Relation.TransGen (fun m n : Nat => n < m) (rank t) (rank t) := hp.lift rank h
  rw [Relation.transGen_eq_self] at hfall
  exact Nat.lt_irrefl _ hfall

theorem NoSelfNesting.wellFounded (hg : g.NoSelfNesting) :
    WellFounded fun u t => Holds g t u := by
  -- there are finitely many nodes, and what is no node holds nothing
  have hfin : WellFounded fun u t : Fin g.size => Relation.TransGen (Holds g) t u := by
    have : IsTrans (Fin g.size) fun u t => Relation.TransGen (Holds g) t u :=
      ⟨fun _ _ _ h h' => h'.trans h⟩
    have : Std.Irrefl fun u t : Fin g.size => Relation.TransGen (Holds g) t u := ⟨fun t => hg t⟩
    exact Finite.wellFounded_of_trans_of_irrefl _
  have hnode : ∀ i : Fin g.size, Acc (fun u t => Holds g t u) i.val := by
    intro i
    induction i using hfin.induction with
    | _ i ih =>
      refine ⟨_, fun u hu => ?_⟩
      by_cases hlt : u < g.size
      · exact ih ⟨u, hlt⟩ (.single hu)
      · exact ⟨_, fun v hv => absurd hv.lt_size hlt⟩
  exact ⟨fun t => ⟨_, fun u hu => Acc.inv (hnode ⟨t, hu.lt_size⟩) hu⟩⟩

end Grammar

namespace Matching

open Grammar

/-! ## chains of calls -/

/-- no chain of calls below `j`, begun in `s`, goes on forever -/
def Grounded (c : Setting) (j : Job) (s : State) : Prop :=
  Acc (fun x y : Job × State => Calls c y.1 y.2 x.1 x.2) (j, s)

def GroundedAt (c : Setting) (d : Nat) (j : Job) : Prop :=
  ∀ s : State, s.depth = d → s.pos ≤ c.source.size → Grounded c j s

section
variable {c : Setting} {d h : Nat} {j k : Job} {s s' : State} {t : TermId} {n : Grammar.Node}
  {ts : List TermId}

theorem Grounded.intro (H : ∀ k s', Calls c j s k s' → Grounded c k s') : Grounded c j s :=
  Acc.intro _ fun x hc => H x.1 x.2 hc

theorem groundedAt_inOrder (H : ∀ u ∈ ts, GroundedAt c d (.term u)) :
    GroundedAt c d (.inOrder ts) := by
  induction ts with
  | nil => exact fun s _ _ => .intro fun k s' hc => by cases hc
  | cons t ts ih =>
    intro s hd hs
    refine .intro fun k s' hc => ?_
    cases hc with
    | head => exact H t List.mem_cons_self s hd hs
    | tail ht =>
      have hrest := ih fun u hu => H u (List.mem_cons_of_mem t hu)
      exact hrest s' (ht.frame.depth.trans hd) (ht.frame.pos_le hs)

theorem groundedAt_firstOf (H : ∀ u ∈ ts, GroundedAt c d (.term u)) :
    GroundedAt c d (.firstOf ts) := by
  induction ts with
  | nil => exact fun s _ _ => .intro fun k s' hc => by cases hc
  | cons t ts ih =>
    intro s hd hs
    refine .intro fun k s' hc => ?_
    cases hc with
    | choice => exact H t List.mem_cons_self s hd hs
    | otherwise ht =>
      have hrest := ih fun u hu => H u (List.mem_cons_of_mem t hu)
      exact hrest s' (ht.frame.depth.trans hd) (ht.frame.pos_le hs)

theorem groundedAt_body {rule : RuleId} (H : ∀ p, GroundedAt c d (.term p)) :
    GroundedAt c d (.body t rule) := by
  intro s hd hs
  refine .intro fun k s' hc => ?_
  cases hc with
  | production hn => exact H _ _ hd hs

theorem groundedAt_under {rule : RuleId} (H : ∀ p, GroundedAt c d (.term p)) :
    GroundedAt c d (.under t rule) := by
  intro s hd hs
  refine .intro fun k s' hc => ?_
  cases hc with
  | body => exact groundedAt_body H _ hd hs

theorem groundedAt_nested (H : d < c.maxDepth → GroundedAt c (d + 1) j) :
    GroundedAt c d (.nested j) := by
  intro s hd hs
  refine .intro fun k s' hc => ?_
  cases hc with
  | deeper hlt =>
    subst hd
    exact H hlt s.deeper rfl hs

theorem groundedAt_single (H : GroundedAt c d (.once t n)) : GroundedAt c d (.single t n) := by
  intro s hd hs
  refine .intro fun k s' hc => ?_
  cases hc with
  | once => exact H s hd hs

/-- the rounds that follow begin further and further on, and none beyond the source -/
theorem groundedAt_more (H : GroundedAt c d (.single t n)) (start : Nat) :
    GroundedAt c d (.more t n start) := by
  intro s hd hs
  induction hm : c.source.size - start using Nat.strongRecOn generalizing s start with
  | _ m ih =>
    refine .intro fun k s' hc => ?_
    cases hc with
    | another => exact H s hd hs
    | further hlt hr =>
      have hfall : c.source.size - s.pos < m := by omega
      exact ih _ hfall s.pos s' (hr.frame.depth.trans hd) (hr.frame.pos_le hs) rfl

theorem groundedAt_rounds (H : GroundedAt c d (.single t n)) : GroundedAt c d (.rounds t n) := by
  intro s hd hs
  refine .intro fun k s' hc => ?_
  cases hc with
  | first => exact H s hd hs
  | follow _ hr =>
    exact groundedAt_more H s.pos s' (hr.frame.depth.trans hd) (hr.frame.pos_le hs)

/-- a single match, if all terms are grounded one level deeper, and those it holds at its own -/
theorem groundedAt_once (hn : c.grammar.node? t = some n)
    (Hdeep : d < c.maxDepth → ∀ u, GroundedAt c (d + 1) (.term u))
    (Hheld : ∀ u, Holds c.grammar t u → GroundedAt c d (.term u)) :
    GroundedAt c d (.once t n) := by
  intro s hd hs
  refine .intro fun k s' hc => ?_
  cases hc with
  | reference => exact groundedAt_nested (fun hlt => groundedAt_under (Hdeep hlt)) s hd hs
  | alternation => exact groundedAt_firstOf (fun u hu => Hheld u (.alternation hn hu)) s hd hs
  | concatenation => exact groundedAt_inOrder (fun u hu => Hheld u (.concatenation hn hu)) s hd hs
  | group =>
    exact groundedAt_nested (fun hlt => groundedAt_inOrder fun u _ => Hdeep hlt u) s hd hs

/-- where nothing lies in itself, no term has a chain of calls that goes on forever -/
theorem grounded_term (hg : c.grammar.NoSelfNesting) (d : Nat) (t : TermId) :
    GroundedAt c d (.term t) := by
  -- first by the levels that the limit leaves, then by what holds what
  induction hm : c.maxDepth - d using Nat.strongRecOn generalizing d t with
  | _ m deeper =>
    induction t using hg.wellFounded.induction with
    | _ t held =>
      intro s hd hs
      refine .intro fun k s' hc => ?_
      cases hc with
      | rounds hn =>
        have hdeep : d < c.maxDepth → ∀ u, GroundedAt c (d + 1) (.term u) := by
          intro hlt u
          have hfall : c.maxDepth - (d + 1) < m := by omega
          exact deeper _ hfall (d + 1) u rfl
        exact groundedAt_rounds (groundedAt_single (groundedAt_once hn hdeep held)) s hd hs

/-! ## from finite chains to an end -/

def Halts (c : Setting) (j : Job) (s : State) : Prop := ∃ h r, Yields c h j s r

theorem Halts.pass (hj : Halts c j s) (hk : ∀ {h r}, Yields c h j s r → Yields c h k s' r) :
    Halts c k s' := by
  obtain ⟨h, r, hy⟩ := hj
  exact ⟨h, r, hk hy⟩

theorem halts_term (H : ∀ n, c.grammar.node? t = some n → Halts c (.rounds t n) s) :
    Halts c (.term t) s := by
  cases hn : c.grammar.node? t with
  | none => exact ⟨1, _, .missing hn⟩
  | some n =>
    obtain ⟨h, r, hy⟩ := H n hn
    by_cases hskip : n.occurrence.isOptional = true ∧ ∃ s', r = .stopped .mismatch s'
    · obtain ⟨ho, s', rfl⟩ := hskip
      exact ⟨h + 1, _, .skipped hn ho hy⟩
    · exact ⟨h + 1, r, .taken hn hy fun ho s' he => hskip ⟨ho, s', he⟩⟩

theorem halts_rounds (H : Halts c (.single t n) s)
    (Hm : n.occurrence.isRepeated = true → ∀ h s', Yields c h (.single t n) s (.matched s') →
      Halts c (.more t n s.pos) s') : Halts c (.rounds t n) s := by
  cases hrep : n.occurrence.isRepeated with
  | false => exact H.pass (.justOne hrep)
  | true =>
    obtain ⟨h, r, hy⟩ := H
    cases r with
    | matched s' =>
      obtain ⟨m, r', hm⟩ := Hm hrep h s' hy
      obtain ⟨l, hy, hm⟩ := hy.within_one hm
      exact ⟨l, r', .oneAndMore hrep hy hm⟩
    | stopped why s' => exact ⟨h, _, .noneAtAll hrep hy⟩

theorem halts_more {start : Nat} (H : start < s.pos → Halts c (.single t n) s)
    (Hm : start < s.pos → ∀ h s', Yields c h (.single t n) s (.matched s') →
      Halts c (.more t n s.pos) s') : Halts c (.more t n start) s := by
  by_cases hlt : start < s.pos
  · obtain ⟨h, r, hy⟩ := H hlt
    cases r with
    | matched s' =>
      obtain ⟨m, r', hm⟩ := Hm hlt h s' hy
      obtain ⟨l, hy, hm⟩ := hy.within_one hm
      exact ⟨l, r', .another hlt hy hm⟩
    | stopped why s' =>
      cases why with
      | mismatch => exact ⟨h, _, .enough hlt hy⟩
      | limit => exact ⟨h, _, .cutShort hlt hy⟩
      | endless => exact hy.finished.elim
  · exact ⟨0, _, .idle (Nat.le_of_not_lt hlt)⟩

theorem halts_inOrder {ts : List TermId} (H : Halts c (.term t) s)
    (Hr : ∀ h s', Yields c h (.term t) s (.matched s') → Halts c (.inOrder ts) s') :
    Halts c (.inOrder (t :: ts)) s := by
  obtain ⟨h, r, hy⟩ := H
  cases r with
  | matched s' =>
    obtain ⟨m, r', hr⟩ := Hr h s' hy
    obtain ⟨l, hy, hr⟩ := hy.within_one hr
    exact ⟨l, r', .nextOne hy hr⟩
  | stopped why s' => exact ⟨h, _, .broken hy⟩

theorem halts_firstOf {ts : List TermId} (H : Halts c (.term t) s)
    (Hr : ∀ h s', Yields c h (.term t) s (.stopped .mismatch s') → Halts c (.firstOf ts) s') :
    Halts c (.firstOf (t :: ts)) s := by
  obtain ⟨h, r, hy⟩ := H
  cases r with
  | matched s' => exact ⟨h, _, .chosen hy⟩
  | stopped why s' =>
    cases why with
    | mismatch =>
      obtain ⟨m, r', hr⟩ := Hr h s' hy
      obtain ⟨l, hy, hr⟩ := hy.within_one hr
      exact ⟨l, r', .otherwise hy hr⟩
    | limit => exact ⟨h, _, .givenUp hy⟩
    | endless => exact hy.finished.elim

theorem halts_body {rule : RuleId}
    (H : ∀ name p, c.grammar.node? rule = some (.rule name (some p)) →
      Halts c (.term p) ((s.say (.enterRule (c.grammar.text name) s.pos)).withRule rule)) :
    Halts c (.body t rule) s := by
  cases hp : c.grammar.production? rule with
  | some p =>
    obtain ⟨name, hn⟩ := production?_eq_some_iff.mp hp
    obtain ⟨h, r, hy⟩ := H name p hn
    exact ⟨h, _, .production hn hy⟩
  | none =>
    by_cases hrule : ∃ name production, c.grammar.node? rule = some (.rule name production)
    · obtain ⟨name, production, hn⟩ := hrule
      obtain rfl := (production?_of_node? hn).symm.trans hp
      exact ⟨0, _, .noProduction hn⟩
    · exact ⟨0, _, .notARule fun name production hn => hrule ⟨name, production, hn⟩⟩

theorem halts_of_calls (H : ∀ k s', Calls c j s k s' → Halts c k s') : Halts c j s := by
  cases j with
  | term t => exact halts_term fun n hn => H _ _ (.rounds hn)
  | rounds t n => exact halts_rounds (H _ _ .first) fun hrep h s' hy => H _ _ (.follow hrep hy)
  | more t n start =>
    exact halts_more (fun hlt => H _ _ (.another hlt)) fun hlt h s' hy => H _ _ (.further hlt hy)
  | single t n =>
    obtain ⟨h, r, hy⟩ := H _ _ .once
    cases r with
    | matched s' => exact ⟨h, _, .kept hy⟩
    | stopped why s' => exact ⟨h, _, .undone hy⟩
  | once t n =>
    cases n with
    | rule name production => exact ⟨0, _, .ruleAsTerm⟩
    | reference target o => exact (H _ _ .reference).pass .reference
    | token m o => exact ⟨0, _, .token⟩
    | literal x o => exact ⟨0, _, .literal⟩
    | alternation ts => exact (H _ _ .alternation).pass .alternation
    | concatenation ts => exact (H _ _ .concatenation).pass .concatenation
    | group ts o => exact (H _ _ .group).pass .group
  | inOrder ts =>
    cases ts with
    | nil => exact ⟨0, _, .allDone⟩
    | cons t ts => exact halts_inOrder (H _ _ .head) fun h s' hy => H _ _ (.tail hy)
  | firstOf ts =>
    cases ts with
    | nil => exact ⟨0, _, .noneLeft⟩
    | cons t ts => exact halts_firstOf (H _ _ .choice) fun h s' hy => H _ _ (.otherwise hy)
  | nested j =>
    by_cases hd : c.maxDepth ≤ s.depth
    · exact ⟨0, _, .tooDeep hd⟩
    · have hd := Nat.lt_of_not_le hd
      obtain ⟨h, r, hy⟩ := H _ _ (.deeper hd)
      exact ⟨h, _, .deeper hd hy⟩
  | under t rule =>
    obtain ⟨h, r, hy⟩ := H _ _ .body
    exact ⟨h, _, .under hy⟩
  | body t rule => exact halts_body fun name p hn => H _ _ (.production hn)

theorem Grounded.halts (hg : Grounded c j s) : Halts c j s := by
  suffices ∀ x : Job × State, Acc (fun x y : Job × State => Calls c y.1 y.2 x.1 x.2) x →
      Halts c x.1 x.2 from this (j, s) hg
  intro x hx
  induction hx with
  | intro x _ ih => exact halts_of_calls fun k s' hc => ih (k, s') hc

end

/-! ## the rounds of a repetition -/

/-- a repetition of `n`, which has come to the job `j` in `s`, tries its round `i`, counted from
there, in the state at the end -/
inductive Tries (c : Setting) (t : TermId) (n : Grammar.Node) :
    Job → State → (i : Nat) → State → Prop where
  | now {j s} (hc : Calls c j s (.single t n) s) : Tries c t n j s 0 s
  | later {j s start s' i u} (hc : Calls c j s (.more t n start) s')
      (hr : Tries c t n (.more t n start) s' i u) : Tries c t n j s (i + 1) u

section
variable {c : Setting} {j : Job} {s u v : State} {t : TermId} {n : Grammar.Node}

/-- each round that follows moves on, and none is tried beyond the source -/
theorem Tries.forth_of_more {start i : Nat} (hu : Tries c t n (.more t n start) s i u)
    (hs : s.pos ≤ c.source.size) : start + i < u.pos ∧ u.pos ≤ c.source.size := by
  generalize hj : Job.more t n start = j at hu
  induction hu generalizing start with
  | now hc =>
    subst hj
    cases hc with
    | another hlt => exact ⟨hlt, hs⟩
  | later hc _ ih =>
    subst hj
    cases hc with
    | further hlt hr =>
      obtain ⟨h1, h2⟩ := ih (hr.frame.pos_le hs) rfl
      exact ⟨by omega, h2⟩

theorem Tries.forth {i : Nat} (hu : Tries c t n (.rounds t n) s i u) (hs : s.pos ≤ c.source.size) :
    s.pos + i ≤ u.pos ∧ u.pos ≤ c.source.size := by
  cases hu with
  | now => exact ⟨Nat.le_refl _, hs⟩
  | later hc hr =>
    cases hc with
    | follow _ hy =>
      obtain ⟨h1, h2⟩ := hr.forth_of_more (hy.frame.pos_le hs)
      exact ⟨h1, h2⟩

/-- the rounds that follow begin where the one before ended, and no other ones follow -/
theorem Calls.more_unique {start start' : Nat} {s₁ s₂ : State} (hj : ∀ k, j ≠ .nested k)
    (hc : Calls c j s (.more t n start) s₁) (hc' : Calls c j s (.more t n start') s₂) :
    start = s.pos ∧ start' = s.pos ∧ s₁ = s₂ := by
  cases hc with
  | deeper => exact absurd rfl (hj _)
  | follow _ hr =>
    cases hc' with
    | follow _ hr' => exact ⟨rfl, rfl, Attempt.matched.inj (hr.functional hr')⟩
  | further _ hr =>
    cases hc' with
    | further _ hr' => exact ⟨rfl, rfl, Attempt.matched.inj (hr.functional hr')⟩

theorem Tries.lt_of_next {i : Nat} (hu : Tries c t n j s i u) (hv : Tries c t n j s (i + 1) v)
    (hj : ∀ k, j ≠ .nested k) : u.pos < v.pos := by
  induction hu with
  | now =>
    cases hv with
    | later hc hr =>
      obtain ⟨rfl, _⟩ := hc.more_unique hj hc
      cases hr with
      | now hc' =>
        cases hc' with
        | another hlt => exact hlt
  | later hc _ ih =>
    cases hv with
    | later hc' hr' =>
      obtain ⟨rfl, rfl, rfl⟩ := hc.more_unique hj hc'
      exact ih hr' nofun

end

end Matching

/-! ## parses -/

namespace Parser

open Matching Grammar

/-- where no choice or sequence lies in itself, every parse comes to an end, whatever its limit.  No
chain of its calls goes on forever, no job is begun or ends beyond the source, and in each repetition
every round but the last moves on -/
theorem parse_halts (p : Parser) (start : RuleId) (hg : p.grammar.NoSelfNesting) :
    (p.parse start).2 ≠ .endless ∧
    Grounded p.setting (.body start start) (p.first start) ∧
    (∀ u, Passes p.setting (.body start start) (p.first start) u → u.pos ≤ p.source.size) ∧
    ∀ t n s, Begins p.setting (.body start start) (p.first start) (.rounds t n) s →
      ∀ i u, Tries p.setting t n (.rounds t n) s i u → s.pos + i ≤ u.pos ∧
        ∀ v, Tries p.setting t n (.rounds t n) s (i + 1) v → u.pos < v.pos := by
  have hground : Grounded p.setting (.body start start) (p.first start) :=
    groundedAt_body (fun u => grounded_term hg 0 u) _ rfl (Nat.zero_le _)
  have hpos : ∀ u, Passes p.setting (.body start start) (p.first start) u →
      u.pos ≤ p.source.size := fun u hu => hu.pos_le (Nat.zero_le _)
  refine ⟨?_, hground, hpos, fun t n s hb i u hu => ?_⟩
  · obtain ⟨h, r, hy⟩ := hground.halts
    rw [ends_iff, p.outcome_of_yields start hy]
    exact hy.finished
  · exact ⟨(hu.forth (hpos s hb.passes)).1, fun v hv => hu.lt_of_next hv nofun⟩

open Grammar in
/-- `s = ( s * "" | "a" ) *` refers to itself on the left, repeats what matches nothing, and comes to
an end under the limit 3 -/
theorem parse_halts_left_recursion :
    let g := Grammar.build [.rule "s", .group .star, .alternation, .concatenation,
      .reference 0 .star, .literal "" .one, .literal "a" .one, .attach 3 4, .attach 3 5,
      .attach 2 3, .attach 2 6, .attach 1 2, .attach 0 1]
    let p : Parser := { source := .ofText "aa" "input" 0 {}, grammar := g, config := ⟨3, .never⟩ }
    p.grammar.NoSelfNesting ∧ (p.parse 0).2 ≠ .endless ∧
    Grounded p.setting (.body 0 0) (p.first 0) := by
  intro g p
  -- children have larger ids here
  have hchild : ∀ t < g.size, ∀ u ∈ g.children t, 7 - u < 7 - t := by decide +kernel
  have hg : p.grammar.NoSelfNesting :=
    noSelfNesting_of_rank (fun t => 7 - t) fun t u h => hchild t h.lt_size u h.mem_children
  obtain ⟨hends, hground, _⟩ := parse_halts p 0 hg
  exact ⟨hg, hends, hground⟩

end Parser

end Ebnf
