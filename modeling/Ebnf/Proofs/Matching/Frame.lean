import Ebnf.Proofs.Matching.Derivation
import Ebnf.Proofs.Source.Spelling

/-!
# What a run leaves alone

* `Tree.Begins`          the nodes of a tree come first in another one, unchanged;
* `Frame`                what holds between the first and the last state of every run: parent, rule
                         and depth are the same, the place moves on, the nodes at hand stay;
* `Yields.frame`         every run keeps its frame, whatever its outcome;
* `Restored`             place and tree are the same as well;
* `Yields.restored_of_mismatch`   a term that does not match gives everything back.
-/

namespace Ebnf

/-! ## trees that begin alike -/

/-- the nodes of `t` come first in `u`, unchanged -/
def Tree.Begins (t u : Tree) : Prop := t.nodes.toList <+: u.nodes.toList

namespace Tree

theorem Begins.refl (t : Tree) : t.Begins t := List.prefix_refl _

theorem Begins.trans {t u v : Tree} (h : t.Begins u) (h' : u.Begins v) : t.Begins v :=
  List.IsPrefix.trans h h'

theorem Begins.node? {t u : Tree} (h : t.Begins u) {i : NodeId} (hi : i < t.size) :
    u.node? i = t.node? i := by
  obtain ⟨rest, hrest⟩ := h
  rw [Tree.node?, Tree.node?, ← Array.getElem?_toList, ← Array.getElem?_toList, ← hrest]
  exact List.getElem?_append_left (by rwa [Array.length_toList])

theorem Begins.size_le {t u : Tree} (h : t.Begins u) : t.size ≤ u.size := by
  have hle := List.IsPrefix.length_le h
  rwa [Array.length_toList, Array.length_toList] at hle

theorem Begins.truncate {t u : Tree} (h : t.Begins u) : u.truncate t.size = t := by
  obtain ⟨rest, hrest⟩ := h
  have e : (u.truncate t.size).nodes = t.nodes := by
    rw [← Array.toList_inj, toList_truncate, ← hrest]
    exact List.take_left' (Array.length_toList ..)
  cases t
  exact congrArg Tree.mk e

theorem begins_openNode (t : Tree) (rule : RuleId) (term : Option TermId) (parent : Option NodeId)
    (tokenStart : Nat) : t.Begins (t.openNode rule term parent tokenStart) := by
  rw [Begins, openNode, Array.toList_push]
  exact List.prefix_append _ _

theorem begins_pushLeaf (t : Tree) (kind : Kind) (term : TermId) (parent : NodeId)
    (tokens : TokenRange) (span : Span) : t.Begins (t.pushLeaf kind term parent tokens span) := by
  rw [Begins, pushLeaf, Array.toList_push]
  exact List.prefix_append _ _

theorem node?_closeNode (t : Tree) (id i : NodeId) (tokenStop : Nat) (span : Span) :
    (t.closeNode id tokenStop span).node? i =
      if id = i then (t.node? i).map fun n => n.closed tokenStop span t.size else t.node? i :=
  Array.getElem?_modify

theorem Begins.closeNode {t u : Tree} (h : t.Begins u) {id : NodeId} (hid : t.size ≤ id)
    (tokenStop : Nat) (span : Span) : t.Begins (u.closeNode id tokenStop span) := by
  apply List.prefix_iff_getElem?.mpr
  intro i hi
  rw [Array.length_toList] at hi
  have hne : id ≠ i := Nat.ne_of_gt (Nat.lt_of_lt_of_le hi hid)
  have e := u.node?_closeNode id i tokenStop span
  rw [if_neg hne, h.node? hi] at e
  rw [Array.getElem?_toList, Array.getElem_toList]
  exact e.trans (Array.getElem?_eq_getElem hi)

end Tree

namespace Matching

/-! ## the frame of a run -/

/-- what every run from `s` to `s'` keeps -/
structure Frame (c : Setting) (s s' : State) : Prop where
  parent : s'.parent = s.parent
  rule : s'.rule = s.rule
  depth : s'.depth = s.depth
  forth : s.pos ≤ s'.pos
  bound : s'.pos ≤ max s.pos c.source.size
  grows : s.tree.Begins s'.tree

section
variable {c : Setting} {s s' s'' : State}

theorem Frame.refl (c : Setting) (s : State) : Frame c s s :=
  ⟨rfl, rfl, rfl, Nat.le_refl _, Nat.le_max_left _ _, Tree.Begins.refl _⟩

theorem Frame.trans (h : Frame c s s') (h' : Frame c s' s'') : Frame c s s'' := by
  have h1 := h.forth
  have h2 := h'.forth
  have h3 := h.bound
  have h4 := h'.bound
  exact ⟨h'.parent.trans h.parent, h'.rule.trans h.rule, h'.depth.trans h.depth, by omega, by omega,
    h.grows.trans h'.grows⟩

theorem Frame.pos_le (hf : Frame c s s') (h : s.pos ≤ c.source.size) : s'.pos ≤ c.source.size := by
  have hb := hf.bound
  rwa [Nat.max_eq_right h] at hb

theorem frame_say (c : Setting) (s : State) (e : Event) : Frame c s (s.say e) :=
  ⟨rfl, rfl, rfl, Nat.le_refl _, Nat.le_max_left _ _, Tree.Begins.refl _⟩

theorem frame_miss (c : Setting) (s : State) (t : TermId) : Frame c s (miss s t).state :=
  ⟨rfl, rfl, rfl, Nat.le_refl _, Nat.le_max_left _ _, Tree.Begins.refl _⟩

theorem frame_leaf {kind : Tree.Kind} {t : TermId} {stop : Nat} {span : Span} (h : s.pos ≤ stop)
    (h' : stop ≤ max s.pos c.source.size) : Frame c s (s.leaf kind t stop span) :=
  ⟨rfl, rfl, rfl, h, h', s.tree.begins_pushLeaf _ _ _ _ _⟩

/-- what a token can do: match the end of the input, match a token, or miss -/
theorem token_cases (c : Setting) (t : TermId) (m : Mask) (s : State) :
    (c.source.size ≤ s.pos ∧ m.isEof = true ∧ token c t m s = .matched s) ∨
    (s.pos < c.source.size ∧ (c.source.token s.pos).is m = true ∧
      token c t m s = .matched (s.leaf (.token (c.source.token s.pos).mask) t (s.pos + 1)
        (c.source.token s.pos).span)) ∨
    ((c.source.size ≤ s.pos → m.isEof = false) ∧
      (s.pos < c.source.size → (c.source.token s.pos).is m = false) ∧
      token c t m s = miss s t) := by
  unfold token
  dsimp only
  by_cases heof : (c.source.token s.pos).mask.isEof = true
  · have hle : c.source.size ≤ s.pos := c.source.isEof_token.mp heof
    rw [if_pos heof]
    cases hm : m.isEof with
    | true => exact .inl ⟨hle, rfl, rfl⟩
    | false => exact .inr (.inr ⟨fun _ => rfl, fun h => absurd h (Nat.not_lt_of_le hle), rfl⟩)
  · have hlt : s.pos < c.source.size :=
      Nat.lt_of_not_le fun hle => heof (c.source.isEof_token.mpr hle)
    rw [if_neg heof]
    cases hm : (c.source.token s.pos).is m with
    | true => exact .inr (.inl ⟨hlt, rfl, rfl⟩)
    | false => exact .inr (.inr ⟨fun h => absurd hlt (Nat.not_lt_of_le h), fun _ => rfl, rfl⟩)

/-- what a literal can do: match a run of tokens, or miss -/
theorem literal_cases (c : Setting) (t : TermId) (x : String) (s : State) :
    (∃ stop, c.source.spell s.pos (Utf8.encode x) = some stop ∧
      literal c t x s = .matched (s.leaf .literal t stop (c.source.rangeSpan ⟨s.pos, stop⟩))) ∨
    (c.source.spell s.pos (Utf8.encode x) = none ∧ literal c t x s = miss s t) := by
  unfold literal
  cases c.source.spell s.pos (Utf8.encode x) with
  | some stop => exact .inl ⟨stop, rfl, rfl⟩
  | none => exact .inr ⟨rfl, rfl⟩

theorem frame_token (c : Setting) (t : TermId) (m : Mask) (s : State) :
    Frame c s (token c t m s).state := by
  unfold token
  dsimp only
  split
  · split
    · exact Frame.refl c s
    · exact frame_miss c s t
  · rename_i heof
    split
    · have hlt : s.pos < c.source.size :=
        Nat.lt_of_not_le fun hle => heof (c.source.isEof_token.mpr hle)
      exact frame_leaf (Nat.le_succ _) (by omega)
    · exact frame_miss c s t

theorem frame_literal (c : Setting) (t : TermId) (x : String) (s : State) :
    Frame c s (literal c t x s).state := by
  unfold literal
  split
  · rename_i stop hs
    obtain ⟨h1, h2, _⟩ := c.source.spell_eq_some_iff.mp hs
    exact frame_leaf h1 h2
  · exact frame_miss c s t

theorem Frame.reset (h : Frame c s s') :
    (s'.reset s.mark).pos = s.pos ∧ (s'.reset s.mark).tree = s.tree :=
  ⟨rfl, h.grows.truncate⟩

theorem Frame.undone (h : Frame c s s') : Frame c s (s'.reset s.mark) := by
  obtain ⟨hp, ht⟩ := h.reset
  refine ⟨h.parent, h.rule, h.depth, Nat.le_of_eq hp.symm, ?_, ?_⟩
  · rw [hp]
    exact Nat.le_max_left _ _
  · rw [ht]
    exact Tree.Begins.refl _

theorem Frame.nested {r : Attempt} (h : Frame c s.deeper r.state) :
    Frame c s (r.map fun s' => s'.withDepth s.depth).state := by
  rw [Attempt.state_map]
  exact ⟨h.parent, h.rule, rfl, h.forth, h.bound, h.grows⟩

theorem Frame.body {e : Event} {rule : RuleId} {r : Attempt}
    (h : Frame c ((s.say e).withRule rule) r.state) :
    Frame c s (r.map fun s' => s'.withRule s.rule).state := by
  rw [Attempt.state_map]
  exact ⟨h.parent, rfl, h.depth, h.forth, h.bound, h.grows⟩

theorem Frame.leave {rule : RuleId} {term : Option TermId} {parent : Option NodeId} {r : Attempt}
    (h : Frame c (s.opened rule term parent) r.state) :
    Frame c s (Matching.leave c s.mark s.parent r).state := by
  have hg : s.tree.Begins r.state.tree := (s.tree.begins_openNode _ _ _ _).trans h.grows
  cases r with
  | matched s' =>
    exact ⟨rfl, h.rule, h.depth, h.forth, h.bound, hg.closeNode (Nat.le_refl _) _ _⟩
  | stopped why s' => exact ⟨rfl, h.rule, h.depth, h.forth, h.bound, hg⟩

end

section
variable {c : Setting} {h : Nat} {j : Job} {t : TermId} {n : Grammar.Node} {s s' : State}

/-- every run keeps its frame, whatever its outcome -/
theorem Yields.frame {r : Attempt} (hy : Yields c h j s r) : Frame c s r.state := by
  induction hy with
  | missing => exact (frame_say c _ _).trans (frame_miss c _ _)
  | taken _ _ _ ih => exact ih
  | skipped _ _ _ ih => exact ih
  | justOne _ _ ih => exact ih
  | noneAtAll _ _ ih => exact ih
  | oneAndMore _ _ _ ih ihm => exact ih.trans ihm
  | idle => exact frame_say c _ _
  | another _ _ _ ih ihm => exact ih.trans ihm
  | enough _ _ ih => exact ih
  | cutShort _ _ ih => exact ih
  | kept _ ih => exact ih
  | undone _ ih => exact ih.undone
  | ruleAsTerm => exact (frame_say c _ _).trans (frame_miss c _ _)
  | reference _ ih => exact ih
  | token => exact frame_token c _ _ _
  | literal => exact frame_literal c _ _ _
  | alternation _ ih => exact ih
  | concatenation _ ih => exact ih
  | group _ ih => exact ih
  | tooDeep => exact frame_say c _ _
  | deeper _ _ ih => exact ih.nested
  | allDone => exact Frame.refl c _
  | nextOne _ _ iht ih => exact iht.trans ih
  | broken _ ih => exact ih
  | noneLeft => exact Frame.refl c _
  | chosen _ ih => exact ih
  | otherwise _ _ iht ih => exact iht.trans ih
  | givenUp _ ih => exact ih
  | under _ ih => exact ih.leave
  | production _ _ ih => exact ih.body
  | noProduction => exact (frame_say c _ _).trans (frame_miss c _ _)
  | notARule => exact (frame_say c _ _).trans (frame_miss c _ _)

/-! ## what is given back -/

/-- place and tree are what they were -/
def Restored (s s' : State) : Prop := s'.pos = s.pos ∧ s'.tree = s.tree

theorem Yields.restored_of_single {why : Stop}
    (hy : Yields c h (.single t n) s (.stopped why s')) : Restored s s' := by
  cases hy with
  | undone ho => exact ho.frame.reset

/-- a further round that does not match ends the repetition, and is no mismatch of it -/
theorem Yields.more_ne_mismatch {start : Nat} :
    ¬ Yields c h (.more t n start) s (.stopped .mismatch s') := by
  intro hy
  generalize hj : Job.more t n start = j at hy
  generalize hr : Attempt.stopped .mismatch s' = r at hy
  induction hy generalizing start with
  | another _ _ _ _ ihm =>
    cases hj
    exact ihm rfl hr
  | idle => cases hr
  | enough => cases hr
  | cutShort => cases hr
  | _ => cases hj

theorem Yields.restored_of_rounds (hy : Yields c h (.rounds t n) s (.stopped .mismatch s')) :
    Restored s s' := by
  cases hy with
  | justOne _ hr => exact hr.restored_of_single
  | noneAtAll _ hr => exact hr.restored_of_single
  | oneAndMore _ _ hm => exact absurd hm Yields.more_ne_mismatch

theorem Yields.restored_of_mismatch (hy : Yields c h (.term t) s (.stopped .mismatch s')) :
    Restored s s' := by
  cases hy with
  | missing => exact ⟨rfl, rfl⟩
  | taken _ hr => exact hr.restored_of_rounds

end

end Matching

end Ebnf
