import Mathlib.Data.Finset.Card
import Mathlib.Data.Finset.Range
import Mathlib.Logic.Relation
import Ebnf.Proofs.Reference.Meaning

/-!
# Left recursion

A term calls another one on the left if it may try it without having moved on.

* `Nullable`        a term that may match nothing;
* `Means.nullable`  a term that ends where it began is nullable;
* `LeftCall`        from a term to those it may try where it begins;
* `NoLeftRecursion` no term calls itself on the left, through however many others;
* `leftRank`        the number of terms that a term calls on the left, through others;
* `leftRank_lt`     it falls along each call.
-/

namespace Ebnf

namespace Grammar

/-! ## terms that may match nothing -/

/-- the term may match nothing -/
inductive Nullable (g : Grammar) : TermId → Prop where
  | optional {t n} (hn : g.node? t = some n) (ho : n.occurrence.isOptional = true) : Nullable g t
  | literal {t text o} (hn : g.node? t = some (.literal text o)) (he : g.text text = "") :
      Nullable g t
  | token {t m o} (hn : g.node? t = some (.token m o)) (he : m.isEof = true) : Nullable g t
  | alternation {t ts u} (hn : g.node? t = some (.alternation ts)) (hu : u ∈ ts)
      (h : Nullable g u) : Nullable g t
  | concatenation {t ts} (hn : g.node? t = some (.concatenation ts))
      (h : ∀ u ∈ ts, Nullable g u) : Nullable g t
  | group {t ts o} (hn : g.node? t = some (.group ts o)) (h : ∀ u ∈ ts, Nullable g u) :
      Nullable g t
  | reference {t target o p} (hn : g.node? t = some (.reference target o))
      (hp : g.production? target = some p) (h : Nullable g p) : Nullable g t

/-! ## calls on the left -/

/-- `t` may try `u` where it begins itself -/
inductive LeftCall (g : Grammar) (t u : TermId) : Prop where
  | alternation {ts} (hn : g.node? t = some (.alternation ts)) (hu : u ∈ ts)
  | concatenation {before after} (hn : g.node? t = some (.concatenation (before ++ u :: after)))
      (h : ∀ v ∈ before, Nullable g v)
  | group {before after o} (hn : g.node? t = some (.group (before ++ u :: after) o))
      (h : ∀ v ∈ before, Nullable g v)
  | reference {target o} (hn : g.node? t = some (.reference target o))
      (hp : g.production? target = some u)

/-- no term comes back to itself by calls on the left -/
def NoLeftRecursion (g : Grammar) : Prop := ∀ t, ¬ Relation.TransGen (LeftCall g) t t

end Grammar

namespace Reference

open Grammar

variable {x : Lexed} {g : Grammar} {i j : Nat}

theorem forth_of_tokenAt {m : Mask} (h : tokenAt x m i = .ends j) : i ≤ j := by
  unfold tokenAt at h
  split at h <;> split at h <;> cases h
  · exact Nat.le_succ i
  · exact Nat.le_refl i

theorem isEof_of_tokenAt {m : Mask} (h : tokenAt x m i = .ends i) : m.isEof = true := by
  unfold tokenAt at h
  split at h
  · split at h
    · exact absurd (Outcome.ends.inj h) (Nat.succ_ne_self i)
    · cases h
  · split at h
    · assumption
    · cases h

theorem covered_of_literalAt {bs : List UInt8} (h : literalAt x bs i = .ends j) :
    i ≤ j ∧ x.covered i j = bs := by
  unfold literalAt at h
  split at h
  · rename_i k hk
    obtain rfl := Outcome.ends.inj h
    have hc := @List.find?_some _ (fun j => x.covered i j == bs) _ _ hk
    exact ⟨(List.mem_range'_1.mp (List.mem_of_find?_eq_some hk)).1, beq_iff_eq.mp hc⟩
  · cases h

theorem Means.forth {p : Phrase} {o : Outcome} (h : Means x g p i o) :
    ∀ j, o = .ends j → i ≤ j := by
  induction h with
  | matched _ _ ih => exact ih
  | skipped => exact fun _ e => Nat.le_of_eq (Outcome.ends.inj e)
  | justOne _ _ ih => exact ih
  | oneAndMore _ _ _ ih ihm => exact fun j e => Nat.le_trans (ih _ rfl) (ihm j e)
  | idle => exact fun _ e => Nat.le_of_eq (Outcome.ends.inj e)
  | enough => exact fun _ e => Nat.le_of_eq (Outcome.ends.inj e)
  | another _ _ _ ih ihm => exact fun j e => Nat.le_trans (ih _ rfl) (ihm j e)
  | reference _ ih => exact ih
  | token => exact fun _ e => forth_of_tokenAt e
  | literal => exact fun _ e => (covered_of_literalAt e).1
  | alternation _ ih => exact ih
  | concatenation _ ih => exact ih
  | group _ ih => exact ih
  | allDone => exact fun _ e => Nat.le_of_eq (Outcome.ends.inj e)
  | nextOne _ _ ih ihr => exact fun j e => Nat.le_trans (ih _ rfl) (ihr j e)
  | chosen _ ih => exact ih
  | otherwise _ _ _ ihr => exact ihr
  | production _ _ ih => exact ih
  | _ => exact fun _ e => by cases e

/-- what a phrase says about terms if it matches nothing -/
def Phrase.Nullable (g : Grammar) : Phrase → Prop
  | .term t => g.Nullable t
  | .rounds n => ∀ t, g.node? t = some n → g.Nullable t
  | .more _ _ => True
  | .once n => ∀ t, g.node? t = some n → g.Nullable t
  | .inOrder ts => ∀ t ∈ ts, g.Nullable t
  | .firstOf ts => ∃ t ∈ ts, g.Nullable t
  | .rule id => ∃ p, g.production? id = some p ∧ g.Nullable p

theorem Means.nullable {p : Phrase} {o : Outcome} (h : Means x g p i o) :
    o = .ends i → p.Nullable g := by
  induction h with
  | matched hn _ ih => exact fun e => ih e _ hn
  | skipped hn ho _ _ => exact fun _ => .optional hn ho
  | justOne _ _ ih => exact ih
  | @oneAndMore n i j o _ h hm ih _ =>
    -- the rounds after the first do not go back, so the first did not move on
    intro e
    have h1 : i ≤ j := h.forth j rfl
    have h2 : j ≤ i := hm.forth i e
    exact ih (congrArg Outcome.ends (Nat.le_antisymm h2 h1))
  | idle => exact fun _ => trivial
  | enough => exact fun _ => trivial
  | another => exact fun _ => trivial
  | reference _ ih =>
    intro e t hn
    obtain ⟨p, hp, hnull⟩ := ih e
    exact .reference hn hp hnull
  | token => exact fun e t hn => .token hn (isEof_of_tokenAt e)
  | @literal text _ i =>
    intro e t hn
    have hc := (covered_of_literalAt e).2
    rw [x.covered_self, ← Utf8.encode_empty, Utf8.encode_inj] at hc
    exact .literal hn hc.symm
  | alternation _ ih =>
    intro e t hn
    obtain ⟨u, hu, hnull⟩ := ih e
    exact .alternation hn hu hnull
  | concatenation _ ih => exact fun e t hn => .concatenation hn (ih e)
  | group _ ih => exact fun e t hn => .group hn (ih e)
  | allDone => exact fun _ _ ht => by cases ht
  | @nextOne t ts i j o h hr ih ihr =>
    intro e u hu
    have h1 : i ≤ j := h.forth j rfl
    have h2 : j ≤ i := hr.forth i e
    obtain rfl : i = j := Nat.le_antisymm h1 h2
    rcases List.mem_cons.mp hu with rfl | hu
    · exact ih rfl
    · exact ihr e u hu
  | chosen _ ih => exact fun e => ⟨_, List.mem_cons_self, ih e⟩
  | otherwise _ _ _ ihr =>
    intro e
    obtain ⟨u, hu, hnull⟩ := ihr e
    exact ⟨u, List.mem_cons_of_mem _ hu, hnull⟩
  | production hp _ ih => exact fun e => ⟨_, hp, ih e⟩
  | _ => exact fun e => by cases e

end Reference

namespace Grammar

variable {g : Grammar} {t u : TermId}

theorem LeftCall.lt_size (h : LeftCall g t u) : t < g.size := by
  cases h with
  | alternation hn => exact lt_size_of_node? hn
  | concatenation hn => exact lt_size_of_node? hn
  | group hn => exact lt_size_of_node? hn
  | reference hn => exact lt_size_of_node? hn

/-- there is no left recursion where a number falls along each call -/
theorem noLeftRecursion_of_rank (rank : TermId → Nat)
    (h : ∀ t u, LeftCall g t u → rank u < rank t) : g.NoLeftRecursion := by
  have hpath : ∀ t u, Relation.TransGen (LeftCall g) t u → rank u < rank t := by
    intro t u hp
    induction hp with
    | single hc => exact h _ _ hc
    | tail _ hc ih => exact Nat.lt_trans (h _ _ hc) ih
  exact fun t hp => Nat.lt_irrefl _ (hpath t t hp)

open Classical in
/-- the terms that `t` calls on the left, through others -/
noncomputable def leftOf (g : Grammar) (t : TermId) : Finset TermId :=
  (Finset.range g.size).filter (Relation.TransGen (LeftCall g) t)

theorem mem_leftOf : u ∈ g.leftOf t ↔ u < g.size ∧ Relation.TransGen (LeftCall g) t u := by
  classical
  rw [leftOf, Finset.mem_filter, Finset.mem_range]

noncomputable def leftRank (g : Grammar) (t : TermId) : Nat := (g.leftOf t).card

theorem leftRank_lt_size (hg : g.NoLeftRecursion) (ht : t < g.size) : g.leftRank t < g.size := by
  have hsub : g.leftOf t ⊂ Finset.range g.size := by
    refine Finset.ssubset_iff_subset_ne.mpr ⟨fun u hu => ?_, fun he => ?_⟩
    · exact Finset.mem_range.mpr (mem_leftOf.mp hu).1
    · have hself : t ∈ g.leftOf t := he ▸ Finset.mem_range.mpr ht
      exact hg t (mem_leftOf.mp hself).2
  have h := Finset.card_lt_card hsub
  rwa [Finset.card_range] at h

/-- a term calls more terms on the left than those that it calls -/
theorem leftRank_lt (hg : g.NoLeftRecursion) (h : LeftCall g t u) (hu : u < g.size) :
    g.leftRank u < g.leftRank t := by
  refine Finset.card_lt_card (Finset.ssubset_iff_subset_ne.mpr ⟨fun v hv => ?_, fun he => ?_⟩)
  · obtain ⟨hlt, hpath⟩ := mem_leftOf.mp hv
    exact mem_leftOf.mpr ⟨hlt, .head h hpath⟩
  · have hmem : u ∈ g.leftOf u := he ▸ mem_leftOf.mpr ⟨hu, .single h⟩
    exact hg u (mem_leftOf.mp hmem).2

end Grammar

end Ebnf
