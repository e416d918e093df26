import Ebnf.Proofs.Outcome
import Ebnf.Proofs.Tree.Forest

/-!
# What a match leaves behind

While a run goes on, the nodes of unfinished rules are open; they are the ancestors of the current
parent, and no match looks at them.  So the invariant is about what a match adds, and not about the
whole row.

* `Adds`             the nodes that a match appended are a forest below its parent, and cover the
                     tokens that it consumed;
* `Adds.trans`       one match behind the other;
* `Adds.closed`      the node of a rule, once it is closed over what was added below it;
* `Yields.adds`      every match adds a forest;
* `Grown`            a root with a forest below it, which covers the source;
* `parse_grown`      the tree of an accepted source is one.
-/

namespace Ebnf

open Ebnf.Tree

namespace Matching

/-- the nodes from `s` to `s'` are a forest below the parent of `s`, and cover the tokens between -/
def Adds (x : Lexed) (s s' : State) : Prop :=
  Forest x s'.tree s.parent s.tree.size s'.tree.size s.pos s'.pos

section
variable {c : Setting} {s s' s'' : State}

theorem adds_of_restored (h : Restored s s') : Adds c.source s s' := by
  obtain ⟨hp, ht⟩ := h
  unfold Adds
  rw [hp, ht]
  exact .nil

theorem Adds.trans (h : Adds c.source s s') (hf : Frame c s s') (h' : Adds c.source s' s'')
    (hf' : Frame c s' s'') : Adds c.source s s'' := by
  have hkeep : ∀ a, s.tree.size ≤ a → a < s'.tree.size → s''.tree.node? a = s'.tree.node? a :=
    fun _ _ ha => hf'.grows.node? ha
  have hrest : Forest c.source s''.tree s.parent s'.tree.size s''.tree.size s'.pos s''.pos :=
    hf.parent ▸ h'
  exact (h.of_nodes hkeep).append hrest

/-! ## leaves -/

theorem node?_pushLeaf (t : Tree) (kind : Kind) (term : TermId) (parent : NodeId)
    (tokens : TokenRange) (span : Span) :
    (t.pushLeaf kind term parent tokens span).node? t.size =
      some ⟨kind, some term, some parent, tokens, span, some (t.size + 1)⟩ :=
  Array.getElem?_push_size

theorem adds_leaf {kind : Kind} {term : TermId} {stop : Nat} {span : Span}
    (hk : ∀ rule, kind ≠ .rule rule) (hspan : span = c.source.rangeSpan ⟨s.pos, stop⟩)
    (hle : s.pos ≤ stop) (hstop : stop ≤ c.source.size) :
    Adds c.source s (s.leaf kind term stop span) := by
  have hn := node?_pushLeaf s.tree kind term s.parent ⟨s.pos, stop⟩ span
  have hsize : (s.leaf kind term stop span).tree.size = s.tree.size + 1 :=
    s.tree.size_pushLeaf kind term s.parent ⟨s.pos, stop⟩ span
  unfold Adds
  rw [hsize]
  refine .leaf hn ?_ ⟨rfl, rfl, hspan, rfl, hle, hstop⟩ .nil
  cases kind with
  | rule rule => exact absurd rfl (hk rule)
  | token mask => rfl
  | literal => rfl

theorem adds_token {t : TermId} {m : Mask} (hm : token c t m s = .matched s') :
    Adds c.source s s' := by
  unfold token at hm
  dsimp only at hm
  split at hm
  · split at hm
    · cases hm
      exact .nil
    · cases hm
  · rename_i heof
    have hlt : s.pos < c.source.size :=
      Nat.lt_of_not_le fun hle => heof (c.source.isEof_token.mpr hle)
    split at hm
    · cases hm
      refine adds_leaf (fun _ => nofun) ?_ (Nat.le_succ _) hlt
      rw [c.source.rangeSpan_eq (Nat.le_succ _) hlt, ← (c.source.stop_token hlt).2]
      rfl
    · cases hm

theorem adds_literal {t : TermId} {text : String} (hs : s.pos ≤ c.source.size)
    (hm : literal c t text s = .matched s') : Adds c.source s s' := by
  unfold literal at hm
  split at hm
  · rename_i stop hspell
    cases hm
    obtain ⟨h1, h2, _⟩ := c.source.spell_eq_some_iff.mp hspell
    rw [Nat.max_eq_right hs] at h2
    exact adds_leaf (fun _ => nofun) rfl h1 h2
  · cases hm

/-! ## the node of a rule -/

theorem node?_openNode (t : Tree) (rule : RuleId) (term : Option TermId) (parent : Option NodeId)
    (tokenStart : Nat) :
    (t.openNode rule term parent tokenStart).node? t.size =
      some ⟨.rule rule, term, parent, ⟨tokenStart, tokenStart⟩, .point 0, none⟩ :=
  Array.getElem?_push_size

theorem closed_opened {rule : RuleId} {term : Option TermId} {parent : Option NodeId}
    (hadds : Adds c.source (s.opened rule term parent) s')
    (hf : Frame c (s.opened rule term parent) s') (hpos : s'.pos ≤ c.source.size) :
    ∃ n, (s'.closed c s.tree.size s.pos).tree.node? s.tree.size = some n ∧ n.kind = .rule rule ∧
      n.term = term ∧ Covers c.source n parent s.pos s'.pos s'.tree.size ∧
      Forest c.source (s'.closed c s.tree.size s.pos).tree s.tree.size (s.tree.size + 1)
        s'.tree.size s.pos s'.pos := by
  have hsize : (s.opened rule term parent).tree.size = s.tree.size + 1 :=
    s.tree.size_openNode rule term parent s.pos
  have hopen := node?_openNode s.tree rule term parent s.pos
  have hlt : s.tree.size < (s.opened rule term parent).tree.size := by
    rw [hsize]
    exact Nat.lt_succ_self _
  have hat : s'.tree.node? s.tree.size = _ := (hf.grows.node? hlt).trans hopen
  have hclose := s'.tree.node?_closeNode s.tree.size
  have hn := hclose s.tree.size s'.pos (c.source.rangeSpan ⟨s.pos, s'.pos⟩)
  rw [if_pos rfl, hat] at hn
  refine ⟨_, hn, rfl, rfl, ⟨rfl, rfl, rfl, rfl, hf.forth, hpos⟩, ?_⟩
  have hforest : Forest c.source s'.tree s.tree.size (s.tree.size + 1) s'.tree.size s.pos s'.pos :=
    hsize ▸ hadds
  refine hforest.of_nodes fun a ha _ => ?_
  have hne : s.tree.size ≠ a := by omega
  exact (hclose a _ _).trans (if_neg hne)

theorem Attempt.eq_matched_of_map {f : State → State} {r : Attempt}
    (h : r.map f = .matched s') : ∃ s₁, r = .matched s₁ ∧ f s₁ = s' := by
  cases r with
  | matched s₁ => exact ⟨s₁, rfl, Attempt.matched.inj h⟩
  | stopped why s₁ => cases h

end

/-! ## the induction -/

theorem Yields.adds {c : Setting} {h : Nat} {j : Job} {s s' : State} {r : Attempt}
    (hy : Yields c h j s r) (hr : r = .matched s') (hs : s.pos ≤ c.source.size) :
    Adds c.source s s' := by
  induction hy generalizing s' with
  | missing => cases hr
  | taken _ _ _ ih => exact ih hr hs
  | skipped _ _ hm =>
    cases hr
    exact adds_of_restored hm.restored_of_rounds
  | justOne _ _ ih => exact ih hr hs
  | noneAtAll => cases hr
  | oneAndMore _ h1 h2 ih1 ih2 =>
    subst hr
    have hf := h1.frame
    exact (ih1 rfl hs).trans hf (ih2 rfl (hf.pos_le hs)) h2.frame
  | idle =>
    cases hr
    exact .nil
  | another _ h1 h2 ih1 ih2 =>
    subst hr
    have hf := h1.frame
    exact (ih1 rfl hs).trans hf (ih2 rfl (hf.pos_le hs)) h2.frame
  | enough _ hm =>
    cases hr
    exact adds_of_restored hm.restored_of_single
  | cutShort => cases hr
  | kept _ ih => exact ih hr hs
  | undone => cases hr
  | ruleAsTerm => cases hr
  | reference _ ih => exact ih hr hs
  | token => exact adds_token hr
  | literal => exact adds_literal hs hr
  | alternation _ ih => exact ih hr hs
  | concatenation _ ih => exact ih hr hs
  | group _ ih => exact ih hr hs
  | tooDeep => cases hr
  | deeper _ _ ih =>
    obtain ⟨s₁, h₁, rfl⟩ := Attempt.eq_matched_of_map hr
    have hadds := ih h₁ hs
    exact hadds
  | allDone =>
    cases hr
    exact .nil
  | nextOne h1 h2 ih1 ih2 =>
    subst hr
    have hf := h1.frame
    exact (ih1 rfl hs).trans hf (ih2 rfl (hf.pos_le hs)) h2.frame
  | broken => cases hr
  | noneLeft => cases hr
  | chosen _ ih => exact ih hr hs
  | otherwise hm h2 _ ih =>
    subst hr
    have hres := hm.restored_of_mismatch
    exact (adds_of_restored hres).trans hm.frame (ih rfl (hm.frame.pos_le hs)) h2.frame
  | givenUp => cases hr
  | @under _ t rule s r hb ih =>
    cases r with
    | stopped why s₁ => cases hr
    | matched s₁ =>
      cases hr
      -- the forest so far hangs below the open node, which is closed last
      have hf : Frame c (s.opened rule (some t) (some s.parent)) s₁ := hb.frame
      obtain ⟨n, hn, hkind, _, hc, inner⟩ := closed_opened (ih rfl hs) hf (hf.pos_le hs)
      have hrule : n.isTerminal = false := by
        rw [Node.isTerminal, hkind]
      have hsize : ((s₁.withParent s.parent).closed c s.tree.size s.pos).tree.size = s₁.tree.size :=
        s₁.tree.size_closeNode _ _ _
      unfold Adds
      show Forest _ _ _ _ ((s₁.withParent s.parent).closed c s.tree.size s.pos).tree.size _ _
      rw [hsize]
      exact .rule hn hrule hc inner .nil
  | production _ _ ih =>
    obtain ⟨s₁, h₁, rfl⟩ := Attempt.eq_matched_of_map hr
    have hadds := ih h₁ hs
    exact hadds
  | noProduction => cases hr
  | notARule => cases hr

end Matching

/-! ## whole trees -/

/-- a root for `start` that covers the source, and a forest below it -/
structure Tree.Grown (x : Lexed) (start : RuleId) (t : Tree) : Prop where
  root : ∃ n, t.node? rootId = some n ∧ n.kind = .rule start ∧ n.term = none ∧
    Covers x n none 0 x.size t.size
  forest : Forest x t rootId 1 t.size 0 x.size

namespace Parser

open Matching

/-- the tree of an accepted source covers it, below a root for the start rule -/
theorem parse_grown (p : Parser) (start : RuleId) {root : NodeId}
    (h : (p.parse start).2 = .accepted root) :
    (p.parse start).1.tree.Grown p.source start := by
  obtain ⟨s, hr, hall, htree⟩ := p.matched_of_accepted start h
  obtain ⟨_, hy⟩ := yields_run_iff.mpr ⟨hr, trivial⟩
  obtain ⟨n, hn, hkind, hterm, hc, inner⟩ :=
    closed_opened (hy.adds rfl (Nat.zero_le _)) hy.frame (Nat.le_of_eq hall)
  have hsize : (s.closed p.setting rootId 0).tree.size = s.tree.size :=
    s.tree.size_closeNode _ _ _
  rw [hall, ← hsize] at hc inner
  rw [htree]
  exact ⟨⟨n, hn, hkind, hterm, hc⟩, inner⟩

end Parser

end Ebnf
