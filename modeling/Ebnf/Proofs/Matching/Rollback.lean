import Ebnf.Grammar.Build
import Ebnf.Proofs.Matching.Bound

/-!
# What a term gives back

A term that does not match leaves no trace but the furthest failure.  One that meets the limit does
so too, unless it is repeated and some round of it has matched before: such rounds are kept.

* `KeepsRound`          a repeated term whose first round matches;
* `restored_iff_of_limit`   a term that meets the limit gives everything back just if it keeps no
                        round;
* `term_rolls_back`     what the state after a term has in common with the state before.
-/

namespace Ebnf.Matching

/-- the term is repeated, and a first match of it succeeds -/
def KeepsRound (c : Setting) (t : TermId) (s : State) : Prop :=
  ∃ n s₁, c.grammar.node? t = some n ∧ n.occurrence.isRepeated = true ∧
    atomic (once c (term c) t n) s = .matched s₁

section
variable {c : Setting} {h : Nat} {t : TermId} {n : Grammar.Node} {s s' : State}

theorem Yields.lt_pos_of_more {start : Nat} {why : Stop}
    (hy : Yields c h (.more t n start) s (.stopped why s')) : start < s'.pos := by
  have hf := hy.frame.forth
  cases hy with
  | another hlt => exact Nat.lt_of_lt_of_le hlt hf
  | cutShort hlt => exact Nat.lt_of_lt_of_le hlt hf

theorem KeepsRound.yields (hk : KeepsRound c t s) (hn : c.grammar.node? t = some n) :
    n.occurrence.isRepeated = true ∧ ∃ s₁, Yields c (height c) (.single t n) s (.matched s₁) := by
  obtain ⟨n', s₁, hn', hrep, hs₁⟩ := hk
  obtain rfl : n' = n := Option.some.inj (hn'.symm.trans hn)
  have hall : ∀ u s', (term c u s').Finished → Yields c (height c) (.term u) s' (term c u s') :=
    fun _ _ hf => yields_attempt hf
  have hf : (atomic (once c (term c) t n') s).Finished := by
    rw [hs₁]
    trivial
  have hy := yields_single hall t n' s hf
  rw [hs₁] at hy
  exact ⟨hrep, s₁, hy⟩

/-- a term that meets the limit gives everything back just if it keeps no round -/
theorem restored_iff_of_limit (hy : Yields c h (.term t) s (.stopped .limit s')) :
    Restored s s' ↔ ¬ KeepsRound c t s := by
  have hy := hy.within_height
  generalize hk : height c = k at hy
  cases hy with
  | @taken k _ n _ _ hn hr _ =>
    cases hr with
    | justOne hone hs =>
      refine ⟨fun _ hkeep => ?_, fun _ => hs.restored_of_single⟩
      rw [(hkeep.yields hn).1] at hone
      cases hone
    | noneAtAll _ hs =>
      refine ⟨fun _ hkeep => ?_, fun _ => hs.restored_of_single⟩
      obtain ⟨_, s₁, hs₁⟩ := hkeep.yields hn
      cases hs.functional hs₁
    | @oneAndMore _ _ _ _ s₁ _ hrep hs hm =>
      -- the first round is kept, however the later ones ended
      have hmoved := hm.lt_pos_of_more
      constructor
      · intro hres
        exact absurd hres.1 (Nat.ne_of_gt hmoved)
      · intro hkeep
        refine absurd ⟨n, s₁, hn, hrep, ?_⟩ hkeep
        exact (hs.mono (hk ▸ Nat.le_succ k : k ≤ height c)).gives

end

def SamePlace (s s' : State) : Prop :=
  s'.parent = s.parent ∧ s'.rule = s.rule ∧ s'.depth = s.depth

theorem Frame.samePlace {c : Setting} {s s' : State} (h : Frame c s s') : SamePlace s s' :=
  ⟨h.parent, h.rule, h.depth⟩

/-- after a term, however it ended, parent, rule and depth are what they were; a match moves on and
adds nodes behind those at hand; a mismatch gives back place and tree; so does a stop at the limit,
just if no round of the term is kept -/
theorem term_rolls_back (c : Setting) (t : TermId) (s : State) :
    match term c t s with
    | .matched s' => SamePlace s s' ∧ s.pos ≤ s'.pos ∧ s.tree.Begins s'.tree
    | .stopped .mismatch s' => SamePlace s s' ∧ Restored s s'
    | .stopped .limit s' => SamePlace s s' ∧ s.pos ≤ s'.pos ∧ s.tree.Begins s'.tree ∧
        (Restored s s' ↔ ¬ KeepsRound c t s)
    | .stopped .endless _ => ∀ h, ¬ (attempt c h t s).Finished := by
  cases e : term c t s with
  | matched s' =>
    obtain ⟨h, hy⟩ := yields_term_iff.mpr ⟨e, trivial⟩
    exact ⟨hy.frame.samePlace, hy.frame.forth, hy.frame.grows⟩
  | stopped why s' =>
    cases why with
    | mismatch =>
      obtain ⟨h, hy⟩ := yields_term_iff.mpr ⟨e, trivial⟩
      exact ⟨hy.frame.samePlace, hy.restored_of_mismatch⟩
    | limit =>
      obtain ⟨h, hy⟩ := yields_term_iff.mpr ⟨e, trivial⟩
      exact ⟨hy.frame.samePlace, hy.frame.forth, hy.frame.grows, restored_iff_of_limit hy⟩
    | endless =>
      intro h hf
      have hterm := finished_term_iff.mpr ⟨h, hf⟩
      rw [e] at hterm
      exact hterm

open Grammar in
/-- a group matches `a` and meets the limit in its second round: the first one is kept -/
theorem limit_keeps_first_round :
    let g := Grammar.build [.rule "s", .group .repeated, .alternation, .literal "a" .one,
      .group .one, .attach 0 1, .attach 1 2, .attach 2 3, .attach 2 4]
    let c : Setting := ⟨.ofText "ab" "input" 0 {}, g, 1⟩
    let s := ({ rule := 0 } : State).opened 0 none none
    ∃ s', term c 1 s = .stopped .limit s' ∧ ¬ Restored s s' := by
  intro g c s
  have hpos : (term c 1 s).state.pos = 1 := by decide +kernel
  refine ⟨(term c 1 s).state, by decide +kernel, fun hres => ?_⟩
  have h := hres.1
  rw [hpos] at h
  cases h

end Ebnf.Matching
