import Mathlib.Data.Finset.Card
import Mathlib.Data.Finset.Prod
import Mathlib.Order.Interval.Finset.Nat
import Mathlib.Order.Monotone.Basic
import Ebnf.Proofs.Matching.Frame

/-!
# The bounds never cut a run

`attempt` has a bound on attempts in each other, and a repetition one on its rounds.  Neither is
ever the reason why a run ends.

* `Gives`           the computation of a job;
* `Yields.gives`    it is what the relation says, so the rounds are enough;
* `Yields.within_height`   a run that comes to an end at all does so within the height that `term`
                    allows;
* `finished_term_iff`, `yields_term_iff`   so `term` comes to an end if any height does;
* `yields_run_iff`  and so does a whole run, from `State.first` on.
-/

namespace Ebnf.Matching

/-! ## from derivation to computation -/

def Gives (c : Setting) (h : Nat) : Job → State → Attempt → Prop
  | .term t, s, r => attempt c h t s = r
  | .rounds t n, s, r =>
    (if n.occurrence.isRepeated then oneOrMore (atomic (once c (attempt c h) t n)) t (rounds c)
      else atomic (once c (attempt c h) t n)) s = r
  | .more t n start, s, r =>
    ∀ bound, 0 < bound → (start < s.pos → 2 ≤ bound ∧ c.source.size + 2 ≤ s.pos + bound) →
      more (atomic (once c (attempt c h) t n)) t bound start s = r
  | .single t n, s, r => atomic (once c (attempt c h) t n) s = r
  | .once t n, s, r => once c (attempt c h) t n s = r
  | .inOrder ts, s, r => inOrder (attempt c h) ts s = r
  | .firstOf ts, s, r => firstOf (attempt c h) ts s = r
  | .nested j, s, r =>
    (c.maxDepth ≤ s.depth ∧ .stopped .limit (s.say (.limitReached s.depth s.pos)) = r) ∨
      (s.depth < c.maxDepth ∧ ∃ r', Gives c h j s.deeper r' ∧
        (r'.map fun s' => s'.withDepth s.depth) = r)
  | .under t rule, s, r => underRule c (attempt c h) t rule s = r
  | .body t rule, s, r => body c (attempt c h) t rule s = r

theorem nested_of_gives {c : Setting} {h : Nat} {j : Job} {run : State → Attempt} {s : State}
    {r : Attempt} (hj : ∀ s r, Gives c h j s r → run s = r) (hn : Gives c h (.nested j) s r) :
    nested c run s = r := by
  rcases hn with ⟨hd, rfl⟩ | ⟨hd, r', hr, rfl⟩
  · exact nested_of_le hd
  · rw [nested_of_lt hd, hj _ _ hr]

theorem attempt_of_gives {c : Setting} {h : Nat} {t : TermId} {n : Grammar.Node} {s : State}
    {r : Attempt} (hn : c.grammar.node? t = some n) (hr : Gives c h (.rounds t n) s r) :
    attempt c (h + 1) t s = if n.occurrence.isOptional then optional (fun _ => r) s else r := by
  rw [attempt_succ, hn]
  show occurring _ _ _ _ _ = _
  unfold occurring
  cases n.occurrence.isOptional with
  | false => exact hr
  | true =>
    rw [if_pos rfl, if_pos rfl]
    unfold optional
    rw [← show _ = r from hr]

theorem Yields.gives {c : Setting} {h : Nat} {j : Job} {s : State} {r : Attempt}
    (hy : Yields c h j s r) : Gives c h j s r := by
  induction hy with
  | missing hn =>
    show attempt c (_ + 1) _ _ = _
    rw [attempt_succ, hn]
  | @taken _ _ n _ r hn _ ho ih =>
    refine (attempt_of_gives hn ih).trans ?_
    cases e : n.occurrence.isOptional with
    | false => rfl
    | true =>
      cases r with
      | matched s' => rfl
      | stopped why s' =>
        cases why with
        | mismatch => exact absurd rfl (ho e s')
        | limit => rfl
        | endless => rfl
  | skipped hn ho _ ih =>
    refine (attempt_of_gives hn ih).trans ?_
    rw [if_pos ho]
    rfl
  | justOne hn _ ih =>
    show (if _ then _ else _ : State → Attempt) _ = _
    rw [hn]
    exact ih
  | noneAtAll hn _ ih =>
    show (if _ then _ else _ : State → Attempt) _ = _
    rw [if_pos hn, oneOrMore, ih]
  | @oneAndMore _ _ _ s s' _ hn hr _ ih ihm =>
    show (if _ then _ else _ : State → Attempt) _ = _
    have hb : s'.pos ≤ max s.pos c.source.size := hr.frame.bound
    rw [if_pos hn, oneOrMore, ih]
    refine ihm (c.source.size + 1) (Nat.succ_pos _) fun hlt => ?_
    omega
  | idle hs =>
    intro bound hb _
    obtain ⟨bound, rfl⟩ := Nat.exists_eq_add_of_le' hb
    rw [more, if_neg (Nat.not_lt_of_le hs)]
  | @another _ _ _ _ s s' _ hs hr _ ih ihm =>
    intro bound hb hsize
    obtain ⟨bound, rfl⟩ := Nat.exists_eq_add_of_le' hb
    have hsize := hsize hs
    have hf : s'.pos ≤ max s.pos c.source.size := hr.frame.bound
    rw [more, if_pos hs, ih]
    exact ihm bound (by omega) fun hlt => by omega
  | enough hs _ ih =>
    intro bound hb _
    obtain ⟨bound, rfl⟩ := Nat.exists_eq_add_of_le' hb
    rw [more, if_pos hs, ih]
  | cutShort hs _ ih =>
    intro bound hb _
    obtain ⟨bound, rfl⟩ := Nat.exists_eq_add_of_le' hb
    rw [more, if_pos hs, ih]
  | kept _ ih =>
    show atomic _ _ = _
    rw [atomic, ih]
  | undone _ ih =>
    show atomic _ _ = _
    rw [atomic, ih]
  | ruleAsTerm => rfl
  | @reference _ t target _ _ _ _ ih =>
    exact nested_of_gives (j := .under t target) (fun _ _ hr => hr) ih
  | token => rfl
  | literal => rfl
  | alternation _ ih => exact ih
  | concatenation _ ih => exact ih
  | @group _ _ ts _ _ _ _ ih =>
    exact nested_of_gives (j := .inOrder ts) (fun _ _ hr => hr) ih
  | tooDeep hd => exact .inl ⟨hd, rfl⟩
  | deeper hd _ ih => exact .inr ⟨hd, _, ih, rfl⟩
  | allDone => rfl
  | nextOne _ _ iht ih =>
    show inOrder _ _ _ = _
    rw [inOrder, iht]
    exact ih
  | broken _ ih =>
    show inOrder _ _ _ = _
    rw [inOrder, ih]
  | noneLeft => rfl
  | chosen _ ih =>
    show firstOf _ _ _ = _
    rw [firstOf, ih]
  | otherwise _ _ iht ih =>
    show firstOf _ _ _ = _
    rw [firstOf, iht]
    exact ih
  | givenUp _ ih =>
    show firstOf _ _ _ = _
    rw [firstOf, ih]
  | under _ ih => exact congrArg (leave c _ _) ih
  | production hn _ ih =>
    show body _ _ _ _ _ = _
    rw [body, hn]
    exact congrArg (Attempt.map _) ih
  | noProduction hn =>
    show body _ _ _ _ _ = _
    rw [body, hn]
  | notARule hn =>
    show body _ _ _ _ _ = _
    unfold body
    split
    · rename_i e
      exact absurd e (hn _ _)
    · rename_i e
      exact absurd e (hn _ _)
    · rfl

theorem Gives.unique {c : Setting} {h : Nat} {j : Job} {s : State} {r r' : Attempt}
    (hr : Gives c h j s r) (hr' : Gives c h j s r') : r = r' := by
  induction j generalizing s r r' with
  | more t n start =>
    have henough : start < s.pos → 2 ≤ c.source.size + 2 ∧
        c.source.size + 2 ≤ s.pos + (c.source.size + 2) := by omega
    have h1 := hr (c.source.size + 2) (by omega) henough
    have h2 := hr' (c.source.size + 2) (by omega) henough
    exact h1.symm.trans h2
  | nested j ih =>
    rcases hr with ⟨hd, rfl⟩ | ⟨hd, u, hu, rfl⟩
    · rcases hr' with ⟨_, rfl⟩ | ⟨hd', _⟩
      · rfl
      · exact absurd hd' (Nat.not_lt_of_le hd)
    · rcases hr' with ⟨hd', _⟩ | ⟨_, u', hu', rfl⟩
      · exact absurd hd (Nat.not_lt_of_le hd')
      · rw [ih hu hu']
  | _ => exact hr.symm.trans hr'

theorem Yields.functional {c : Setting} {h k : Nat} {j : Job} {s : State} {r r' : Attempt}
    (hy : Yields c h j s r) (hy' : Yields c k j s r') : r = r' := by
  obtain ⟨m, hy, hy'⟩ := hy.within_one hy'
  exact hy.gives.unique hy'.gives

/-! ## how a run goes on depends only on the spot -/

/-- what decides how a run goes on: the place in the input and the depth -/
def State.spot (s : State) : Nat × Nat := (s.pos, s.depth)

def Attempt.outline : Attempt → Option Stop × Nat × Nat
  | .matched s => (none, s.spot)
  | .stopped why s => (some why, s.spot)

theorem Attempt.outline_matched {s s' : State} (h : s'.spot = s.spot) :
    (Attempt.matched s').outline = (Attempt.matched s).outline := congrArg (Prod.mk none) h

theorem Attempt.outline_stopped {s s' : State} (why : Stop) (h : s'.spot = s.spot) :
    (Attempt.stopped why s').outline = (Attempt.stopped why s).outline :=
  congrArg (Prod.mk (some why)) h

theorem Attempt.eq_matched_of_outline {r : Attempt} {s : State}
    (h : r.outline = (Attempt.matched s).outline) : ∃ s', r = .matched s' ∧ s'.spot = s.spot := by
  cases r with
  | matched s' => exact ⟨s', rfl, congrArg Prod.snd h⟩
  | stopped why s' => cases congrArg Prod.fst h

theorem Attempt.eq_stopped_of_outline {r : Attempt} {why : Stop} {s : State}
    (h : r.outline = (Attempt.stopped why s).outline) :
    ∃ s', r = .stopped why s' ∧ s'.spot = s.spot := by
  cases r with
  | matched s' => cases congrArg Prod.fst h
  | stopped why' s' =>
    obtain rfl : why' = why := Option.some.inj (congrArg Prod.fst h)
    exact ⟨s', rfl, congrArg Prod.snd h⟩

theorem Attempt.outline_map {f g : State → State} {r r' : Attempt} (h : r'.outline = r.outline)
    (hfg : ∀ s s', s'.spot = s.spot → (g s').spot = (f s).spot) :
    (r'.map g).outline = (r.map f).outline := by
  cases r with
  | matched s =>
    obtain ⟨s', rfl, hs⟩ := Attempt.eq_matched_of_outline h
    exact Attempt.outline_matched (hfg s s' hs)
  | stopped why s =>
    obtain ⟨s', rfl, hs⟩ := Attempt.eq_stopped_of_outline h
    exact Attempt.outline_stopped why (hfg s s' hs)

theorem Attempt.outline_leave {c : Setting} {m m' : Mark} {outer outer' : NodeId} {r r' : Attempt}
    (h : r'.outline = r.outline) :
    (leave c m' outer' r').outline = (leave c m outer r).outline := by
  cases r with
  | matched s =>
    obtain ⟨s', rfl, hs⟩ := Attempt.eq_matched_of_outline h
    exact Attempt.outline_matched hs
  | stopped why s =>
    obtain ⟨s', rfl, hs⟩ := Attempt.eq_stopped_of_outline h
    exact Attempt.outline_stopped why hs

theorem outline_token {c : Setting} {t : TermId} {m : Mask} {s s' : State} (h : s'.spot = s.spot) :
    (token c t m s').outline = (token c t m s).outline := by
  have hp : s'.pos = s.pos := congrArg Prod.fst h
  have hd : s'.depth = s.depth := congrArg Prod.snd h
  unfold token
  dsimp only
  rw [hp]
  split
  · split
    · exact Attempt.outline_matched h
    · exact Attempt.outline_stopped .mismatch h
  · split
    · exact congrArg (fun d => (none, s.pos + 1, d)) hd
    · exact Attempt.outline_stopped .mismatch h

theorem outline_literal {c : Setting} {t : TermId} {x : String} {s s' : State}
    (h : s'.spot = s.spot) : (literal c t x s').outline = (literal c t x s).outline := by
  have hp : s'.pos = s.pos := congrArg Prod.fst h
  have hd : s'.depth = s.depth := congrArg Prod.snd h
  unfold literal
  rw [hp]
  split
  · rename_i stop _
    exact congrArg (fun d => (none, stop, d)) hd
  · exact Attempt.outline_stopped .mismatch h

/-- from every state at the spot of `s`, `j` ends as `r` does -/
def Repeats (c : Setting) (h : Nat) (j : Job) (s : State) (r : Attempt) : Prop :=
  ∀ s₂ : State, s₂.spot = s.spot → ∃ r₂, Yields c h j s₂ r₂ ∧ r₂.outline = r.outline

section
variable {c : Setting} {h h' : Nat} {j k : Job} {s s' s₂ : State} {r : Attempt} {why : Stop}

theorem Repeats.matched (H : Repeats c h j s (.matched s')) (hs : s₂.spot = s.spot) :
    ∃ s₂', Yields c h j s₂ (.matched s₂') ∧ s₂'.spot = s'.spot := by
  obtain ⟨r₂, hy, ho⟩ := H s₂ hs
  obtain ⟨s₂', rfl, hs'⟩ := Attempt.eq_matched_of_outline ho
  exact ⟨s₂', hy, hs'⟩

theorem Repeats.stopped (H : Repeats c h j s (.stopped why s')) (hs : s₂.spot = s.spot) :
    ∃ s₂', Yields c h j s₂ (.stopped why s₂') ∧ s₂'.spot = s'.spot := by
  obtain ⟨r₂, hy, ho⟩ := H s₂ hs
  obtain ⟨s₂', rfl, hs'⟩ := Attempt.eq_stopped_of_outline ho
  exact ⟨s₂', hy, hs'⟩

theorem Repeats.pass (H : Repeats c h j s r)
    (hk : ∀ {s r}, Yields c h j s r → Yields c h' k s r) : Repeats c h' k s r := by
  intro s₂ hs
  obtain ⟨r₂, hy, ho⟩ := H s₂ hs
  exact ⟨r₂, hk hy, ho⟩

end

/-- from another state at the same spot the run goes the same way -/
theorem Yields.alike {c : Setting} {h : Nat} {j : Job} {s : State} {r : Attempt}
    (hy : Yields c h j s r) : Repeats c h j s r := by
  induction hy with
  | missing hn => exact fun _ hs => ⟨_, .missing hn, Attempt.outline_stopped .mismatch hs⟩
  | taken hn _ ho ih =>
    intro s₂ hs
    obtain ⟨r₂, hr, ha⟩ := ih s₂ hs
    refine ⟨r₂, .taken hn hr fun e s' he => ?_, ha⟩
    rw [he] at ha
    obtain ⟨s'', hs'', _⟩ := Attempt.eq_stopped_of_outline ha.symm
    exact ho e s'' hs''
  | skipped hn ho _ ih =>
    intro s₂ hs
    obtain ⟨s', hr, hs'⟩ := ih.stopped hs
    exact ⟨_, .skipped hn ho hr, Attempt.outline_matched hs'⟩
  | justOne hn _ ih => exact ih.pass (.justOne hn)
  | noneAtAll hn _ ih =>
    intro s₂ hs
    obtain ⟨s', hr, hs'⟩ := ih.stopped hs
    exact ⟨_, .noneAtAll hn hr, Attempt.outline_stopped _ hs'⟩
  | oneAndMore hn _ _ ih ihm =>
    intro s₂ hs
    obtain ⟨s', hr, hs'⟩ := ih.matched hs
    obtain ⟨r₃, hm, ha⟩ := ihm s' hs'
    have hp : s₂.pos = _ := congrArg Prod.fst hs
    exact ⟨r₃, .oneAndMore hn hr (by rw [hp]; exact hm), ha⟩
  | idle hle =>
    intro s₂ hs
    have hp : s₂.pos = _ := congrArg Prod.fst hs
    exact ⟨_, .idle (by rw [hp]; exact hle), Attempt.outline_matched hs⟩
  | another hlt _ _ ih ihm =>
    intro s₂ hs
    obtain ⟨s', hr, hs'⟩ := ih.matched hs
    obtain ⟨r₃, hm, ha⟩ := ihm s' hs'
    have hp : s₂.pos = _ := congrArg Prod.fst hs
    exact ⟨r₃, .another (by rw [hp]; exact hlt) hr (by rw [hp]; exact hm), ha⟩
  | enough hlt _ ih =>
    intro s₂ hs
    obtain ⟨s', hr, hs'⟩ := ih.stopped hs
    have hp : s₂.pos = _ := congrArg Prod.fst hs
    exact ⟨_, .enough (by rw [hp]; exact hlt) hr, Attempt.outline_matched hs'⟩
  | cutShort hlt _ ih =>
    intro s₂ hs
    obtain ⟨s', hr, hs'⟩ := ih.stopped hs
    have hp : s₂.pos = _ := congrArg Prod.fst hs
    exact ⟨_, .cutShort (by rw [hp]; exact hlt) hr, Attempt.outline_stopped .limit hs'⟩
  | kept _ ih =>
    intro s₂ hs
    obtain ⟨s', hr, hs'⟩ := ih.matched hs
    exact ⟨_, .kept hr, Attempt.outline_matched hs'⟩
  | @undone _ _ _ s why _ _ ih =>
    intro s₂ hs
    obtain ⟨s', hr, hs'⟩ := ih.stopped hs
    have hp : s₂.pos = s.pos := congrArg Prod.fst hs
    have hd : s'.depth = _ := congrArg Prod.snd hs'
    refine ⟨_, .undone hr, ?_⟩
    show (some why, s₂.pos, s'.depth) = _
    rw [hp, hd]
    rfl
  | ruleAsTerm => exact fun _ hs => ⟨_, .ruleAsTerm, Attempt.outline_stopped .mismatch hs⟩
  | reference _ ih => exact ih.pass .reference
  | token => exact fun _ hs => ⟨_, .token, outline_token hs⟩
  | literal => exact fun _ hs => ⟨_, .literal, outline_literal hs⟩
  | alternation _ ih => exact ih.pass .alternation
  | concatenation _ ih => exact ih.pass .concatenation
  | group _ ih => exact ih.pass .group
  | tooDeep hd =>
    intro s₂ hs
    have hp : s₂.depth = _ := congrArg Prod.snd hs
    exact ⟨_, .tooDeep (by rw [hp]; exact hd), Attempt.outline_stopped .limit hs⟩
  | @deeper _ _ s _ hd _ ih =>
    intro s₂ hs
    have hp : s₂.pos = s.pos := congrArg Prod.fst hs
    have hp' : s₂.depth = s.depth := congrArg Prod.snd hs
    obtain ⟨r₂, hr, ha⟩ := ih s₂.deeper (congrArg₂ (fun i d => (i, d + 1)) hp hp')
    refine ⟨_, .deeper (by rw [hp']; exact hd) hr, Attempt.outline_map ha fun s' s₂' hs' => ?_⟩
    exact congrArg₂ Prod.mk (congrArg Prod.fst hs') hp'
  | allDone => exact fun _ hs => ⟨_, .allDone, Attempt.outline_matched hs⟩
  | nextOne _ _ iht ih =>
    intro s₂ hs
    obtain ⟨s', ht, hs'⟩ := iht.matched hs
    obtain ⟨r₃, hr, ha⟩ := ih s' hs'
    exact ⟨r₃, .nextOne ht hr, ha⟩
  | broken _ ih =>
    intro s₂ hs
    obtain ⟨s', ht, hs'⟩ := ih.stopped hs
    exact ⟨_, .broken ht, Attempt.outline_stopped _ hs'⟩
  | noneLeft => exact fun _ hs => ⟨_, .noneLeft, Attempt.outline_stopped .mismatch hs⟩
  | chosen _ ih =>
    intro s₂ hs
    obtain ⟨s', ht, hs'⟩ := ih.matched hs
    exact ⟨_, .chosen ht, Attempt.outline_matched hs'⟩
  | otherwise _ _ iht ih =>
    intro s₂ hs
    obtain ⟨s', ht, hs'⟩ := iht.stopped hs
    obtain ⟨r₃, hr, ha⟩ := ih s' hs'
    exact ⟨r₃, .otherwise ht hr, ha⟩
  | givenUp _ ih =>
    intro s₂ hs
    obtain ⟨s', ht, hs'⟩ := ih.stopped hs
    exact ⟨_, .givenUp ht, Attempt.outline_stopped .limit hs'⟩
  | under _ ih =>
    intro s₂ hs
    obtain ⟨r₂, hr, ha⟩ := ih (s₂.opened _ _ _) hs
    exact ⟨_, .under hr, Attempt.outline_leave ha⟩
  | @production _ _ _ _ _ s _ hn _ ih =>
    intro s₂ hs
    obtain ⟨r₂, hr, ha⟩ := ih ((s₂.say _).withRule _) hs
    exact ⟨_, .production hn hr, Attempt.outline_map ha fun _ _ hs' => hs'⟩
  | noProduction hn =>
    exact fun _ hs => ⟨_, .noProduction hn, Attempt.outline_stopped .mismatch hs⟩
  | notARule hn => exact fun _ hs => ⟨_, .notARule hn, Attempt.outline_stopped .mismatch hs⟩

/-! ## how many spots there are -/

/-- `s` is at a spot that a run from `s₀` may come to -/
def Within (c : Setting) (s₀ s : State) : Prop :=
  (s₀.pos ≤ s.pos ∧ s.pos ≤ max s₀.pos c.source.size) ∧
    (s₀.depth ≤ s.depth ∧ s.depth ≤ max s₀.depth c.maxDepth)

theorem Within.frame {c : Setting} {s₀ s s' : State} (h : Within c s₀ s) (hf : Frame c s s') :
    Within c s₀ s' := by
  obtain ⟨⟨h1, h2⟩, h3⟩ := h
  have h4 := hf.forth
  have h5 := hf.bound
  refine ⟨⟨by omega, by omega⟩, ?_⟩
  rw [hf.depth]
  exact h3

theorem Within.deeper {c : Setting} {s₀ s : State} (h : Within c s₀ s) (hd : s.depth < c.maxDepth) :
    Within c s₀ s.deeper := by
  obtain ⟨h1, h2, _⟩ := h
  refine ⟨h1, ?_⟩
  show s₀.depth ≤ s.depth + 1 ∧ s.depth + 1 ≤ _
  omega

/-- if all terms do with one attempt less in each other, so do all jobs -/
theorem Yields.lower {c : Setting} {s₀ : State} {k : Nat}
    (H : ∀ t s r, Within c s₀ s → Yields c (k + 1) (.term t) s r → Yields c k (.term t) s r)
    {m : Nat} {j : Job} {s : State} {r : Attempt} (hy : Yields c m j s r) :
    m = k + 1 → Within c s₀ s → Yields c k j s r := by
  induction hy with
  | missing hn =>
    intro e hs
    obtain rfl : _ = k := Nat.succ.inj e
    exact H _ _ _ hs (.missing hn)
  | taken hn hr ho =>
    intro e hs
    obtain rfl : _ = k := Nat.succ.inj e
    exact H _ _ _ hs (.taken hn hr ho)
  | skipped hn ho hr =>
    intro e hs
    obtain rfl : _ = k := Nat.succ.inj e
    exact H _ _ _ hs (.skipped hn ho hr)
  | justOne hn _ ih => exact fun e hs => .justOne hn (ih e hs)
  | noneAtAll hn _ ih => exact fun e hs => .noneAtAll hn (ih e hs)
  | oneAndMore hn hr _ ih ihm =>
    exact fun e hs => .oneAndMore hn (ih e hs) (ihm e (hs.frame hr.frame))
  | idle hle => exact fun _ _ => .idle hle
  | another hlt hr _ ih ihm =>
    exact fun e hs => .another hlt (ih e hs) (ihm e (hs.frame hr.frame))
  | enough hlt _ ih => exact fun e hs => .enough hlt (ih e hs)
  | cutShort hlt _ ih => exact fun e hs => .cutShort hlt (ih e hs)
  | kept _ ih => exact fun e hs => .kept (ih e hs)
  | undone _ ih => exact fun e hs => .undone (ih e hs)
  | ruleAsTerm => exact fun _ _ => .ruleAsTerm
  | reference _ ih => exact fun e hs => .reference (ih e hs)
  | token => exact fun _ _ => .token
  | literal => exact fun _ _ => .literal
  | alternation _ ih => exact fun e hs => .alternation (ih e hs)
  | concatenation _ ih => exact fun e hs => .concatenation (ih e hs)
  | group _ ih => exact fun e hs => .group (ih e hs)
  | tooDeep hd => exact fun _ _ => .tooDeep hd
  | deeper hd _ ih => exact fun e hs => .deeper hd (ih e (hs.deeper hd))
  | allDone => exact fun _ _ => .allDone
  | nextOne ht _ iht ih => exact fun e hs => .nextOne (iht e hs) (ih e (hs.frame ht.frame))
  | broken _ ih => exact fun e hs => .broken (ih e hs)
  | noneLeft => exact fun _ _ => .noneLeft
  | chosen _ ih => exact fun e hs => .chosen (ih e hs)
  | otherwise ht _ iht ih => exact fun e hs => .otherwise (iht e hs) (ih e (hs.frame ht.frame))
  | givenUp _ ih => exact fun e hs => .givenUp (ih e hs)
  | under _ ih => exact fun e hs => .under (ih e hs)
  | production hn _ ih => exact fun e hs => .production hn (ih e hs)
  | noProduction hn => exact fun _ _ => .noProduction hn
  | notARule hn => exact fun _ _ => .notARule hn

/-- the terms, with one for all that are missing, each with a spot that a run from `s₀` may come
to -/
def spots (c : Setting) (s₀ : State) : Finset (TermId × Nat × Nat) :=
  Finset.range (c.grammar.size + 1) ×ˢ Finset.Icc s₀.pos (max s₀.pos c.source.size) ×ˢ
    Finset.Icc s₀.depth (max s₀.depth c.maxDepth)

theorem card_spots_le (c : Setting) (s₀ : State) : (spots c s₀).card ≤ height c := by
  have hp : max s₀.pos c.source.size + 1 - s₀.pos ≤ c.source.size + 1 := by omega
  have hd : max s₀.depth c.maxDepth + 1 - s₀.depth ≤ c.maxDepth + 1 := by omega
  rw [spots, Finset.card_product, Finset.card_product, Finset.card_range, Nat.card_Icc,
    Nat.card_Icc, height, Nat.mul_comm, Nat.mul_comm (c.maxDepth + 1)]
  exact Nat.mul_le_mul_right _ (Nat.mul_le_mul hp hd)

/-- a run of the term begins at the spot and comes to an end within the height -/
def Ends (c : Setting) (k : Nat) (x : TermId × Nat × Nat) : Prop :=
  ∃ s r, s.spot = x.2 ∧ Yields c k (.term x.1) s r

open Classical in
/-- where runs come to an end within the height -/
noncomputable def done (c : Setting) (s₀ : State) (k : Nat) : Finset (TermId × Nat × Nat) :=
  (spots c s₀).filter (Ends c k)

theorem mem_done {c : Setting} {s₀ : State} {k : Nat} {x : TermId × Nat × Nat} :
    x ∈ done c s₀ k ↔ x ∈ spots c s₀ ∧ Ends c k x := by
  classical
  exact Finset.mem_filter

theorem done_mono (c : Setting) (s₀ : State) {k k' : Nat} (h : k ≤ k') :
    done c s₀ k ⊆ done c s₀ k' := by
  intro x hx
  obtain ⟨hm, s, r, hs, hy⟩ := mem_done.mp hx
  exact mem_done.mpr ⟨hm, s, r, hs, hy.mono h⟩

theorem Within.mem_spots {c : Setting} {s₀ s : State} (h : Within c s₀ s) {t : TermId}
    (ht : t ≤ c.grammar.size) : (t, s.spot) ∈ spots c s₀ := by
  obtain ⟨h1, h2⟩ := h
  rw [spots, Finset.mem_product, Finset.mem_product, Finset.mem_Icc, Finset.mem_Icc]
  exact ⟨Finset.mem_range.mpr (Nat.lt_succ_of_le ht), h1, h2⟩

/-- where runs with one attempt more come to an end at no more spots, none needs the attempt -/
theorem Yields.lower_term {c : Setting} {s₀ : State} {k : Nat}
    (hd : done c s₀ (k + 1) ⊆ done c s₀ k) {t : TermId} {s : State} {r : Attempt}
    (hs : Within c s₀ s) (hy : Yields c (k + 1) (.term t) s r) : Yields c k (.term t) s r := by
  by_cases ht : t < c.grammar.size
  · have hx := hd (mem_done.mpr ⟨hs.mem_spots (Nat.le_of_lt ht), s, r, rfl, hy⟩)
    obtain ⟨_, s₁, r₁, hs₁, hy₁⟩ := mem_done.mp hx
    obtain ⟨r₂, hy₂, _⟩ := hy₁.alike s hs₁.symm
    obtain rfl : r₂ = r := hy₂.functional hy
    exact hy₂
  · -- all missing terms share one spot, so one that needs no attempt would end with none
    have hn := Grammar.node?_of_size_le (Nat.le_of_not_lt ht)
    have hn' : c.grammar.node? c.grammar.size = none := Grammar.node?_of_size_le (Nat.le_refl _)
    have hx := hd (mem_done.mpr ⟨hs.mem_spots (Nat.le_refl _), s, _, rfl, .missing hn'⟩)
    obtain ⟨_, s₁, r₁, _, hy₁⟩ := mem_done.mp hx
    cases k with
    | zero => cases hy₁
    | succ k =>
      cases hy with
      | missing => exact .missing hn
      | taken e => rw [hn] at e; cases e
      | skipped e => rw [hn] at e; cases e

theorem done_stable {c : Setting} {s₀ : State} {k : Nat}
    (hd : done c s₀ (k + 1) ⊆ done c s₀ k) : done c s₀ (k + 2) ⊆ done c s₀ (k + 1) := by
  intro x hx
  obtain ⟨hm, s, r, hs, hy⟩ := mem_done.mp hx
  refine mem_done.mpr ⟨hm, s, r, hs, ?_⟩
  have hw : Within c s₀ s := by
    rw [spots, Finset.mem_product, Finset.mem_product, Finset.mem_Icc, Finset.mem_Icc, ← hs] at hm
    exact hm.2
  have H := fun t s r hs hy => Yields.lower_term (t := t) (s := s) (r := r) hd hs hy
  cases hy with
  | missing hn => exact .missing hn
  | taken hn hr ho => exact .taken hn (hr.lower H rfl hw) ho
  | skipped hn ho hr => exact .skipped hn ho (hr.lower H rfl hw)

/-- a term that comes to an end at all does so within the height that `term` allows -/
theorem Yields.within_height {c : Setting} {h : Nat} {t : TermId} {s : State} {r : Attempt}
    (hy : Yields c h (.term t) s r) : Yields c (height c) (.term t) s r := by
  by_cases ht : t < c.grammar.size
  · -- the spots where runs end grow with the height until two heights next to each other agree,
    -- and there are no more of them than `height c`
    have hstable : ∀ m, (done c s m).card = (done c s (m + 1)).card →
        (done c s (m + 1)).card = (done c s (m + 2)).card := by
      intro m hm
      have hsub := done_mono c s (Nat.le_succ m)
      have heq := Finset.eq_of_subset_of_card_le hsub (Nat.le_of_eq hm.symm)
      have hback := done_stable (Finset.Subset.antisymm_iff.mp heq).2
      exact Nat.le_antisymm (Finset.card_le_card (done_mono c s (Nat.le_succ _)))
        (Finset.card_le_card hback)
    have hmono : Monotone fun m => (done c s m).card :=
      fun _ _ hle => Finset.card_le_card (done_mono c s hle)
    have hbound : ∀ m, (done c s m).card ≤ (spots c s).card := fun m =>
      Finset.card_le_card fun x hx => (mem_done.mp hx).1
    have e1 := Nat.stabilises_of_monotone hmono hbound hstable
      (Nat.le_trans (card_spots_le c s) (Nat.le_max_right h (height c)))
    have e2 := Nat.stabilises_of_monotone hmono hbound hstable (card_spots_le c s)
    have hsub := done_mono c s (Nat.le_max_right h (height c))
    have heq := Finset.eq_of_subset_of_card_le hsub (Nat.le_of_eq (e1.trans e2.symm))
    have hw : Within c s s :=
      ⟨⟨Nat.le_refl _, Nat.le_max_left _ _⟩, Nat.le_refl _, Nat.le_max_left _ _⟩
    have hx : (t, s.spot) ∈ done c s (max h (height c)) := mem_done.mpr
      ⟨hw.mem_spots (Nat.le_of_lt ht), s, r, rfl, hy.mono (Nat.le_max_left h _)⟩
    rw [← heq] at hx
    obtain ⟨_, s₁, r₁, hs₁, hy₁⟩ := mem_done.mp hx
    obtain ⟨r₂, hy₂, _⟩ := hy₁.alike s hs₁.symm
    obtain rfl : r₂ = r := hy₂.functional hy
    exact hy₂
  · have hn := Grammar.node?_of_size_le (Nat.le_of_not_lt ht)
    cases hy with
    | missing => exact Yields.mono (.missing (h := 0) hn) (height_pos c)
    | taken e => rw [hn] at e; cases e
    | skipped e => rw [hn] at e; cases e

theorem finished_term_iff {c : Setting} {t : TermId} {s : State} :
    (term c t s).Finished ↔ ∃ h, (attempt c h t s).Finished := by
  constructor
  · exact fun hf => ⟨height c, hf⟩
  · rintro ⟨h, hf⟩
    have hy : term c t s = attempt c h t s := (yields_attempt hf).within_height.gives
    rw [hy]
    exact hf

theorem yields_term_iff {c : Setting} {t : TermId} {s : State} {r : Attempt} :
    (∃ h, Yields c h (.term t) s r) ↔ term c t s = r ∧ r.Finished := by
  constructor
  · rintro ⟨h, hy⟩
    exact ⟨hy.within_height.gives, hy.finished⟩
  · rintro ⟨rfl, hf⟩
    exact ⟨height c, yields_attempt hf⟩

/-! ## whole runs -/

theorem yields_body_iff {c : Setting} {t : TermId} {rule : RuleId} {s : State} {r : Attempt} :
    (∃ h, Yields c h (.body t rule) s r) ↔ body c (term c) t rule s = r ∧ r.Finished := by
  constructor
  · rintro ⟨h, hy⟩
    refine ⟨?_, hy.finished⟩
    have hy' : Yields c (height c) (.body t rule) s r := by
      cases hy with
      | production hn hr => exact .production hn hr.within_height
      | noProduction hn => exact .noProduction hn
      | notARule hn => exact .notARule hn
    exact hy'.gives
  · rintro ⟨rfl, hf⟩
    exact ⟨height c, yields_body (fun _ _ => yields_attempt) t rule s hf⟩

def State.first (start : RuleId) (log : Array Event) : State :=
  ({ rule := start, log } : State).opened start none none

theorem run_eq (c : Setting) (start : RuleId) (log : Array Event) :
    run c start log = body c (term c) start start (.first start log) := rfl

theorem yields_run_iff {c : Setting} {start : RuleId} {log : Array Event} {r : Attempt} :
    (∃ h, Yields c h (.body start start) (.first start log) r) ↔
      run c start log = r ∧ r.Finished := by
  rw [run_eq]
  exact yields_body_iff

end Ebnf.Matching
