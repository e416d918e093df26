import Ebnf.Grammar.Build
import Ebnf.Proofs.Outcome
import Ebnf.Proofs.Tree.Reading

/-!
# A tree derives its source

A match leaves a row of nodes that its term stands for, and nothing of what was tried before or
after it; so the tree of an accepted source is a derivation.

* `Job.HasPart`         what a job matches, as a part of a grammar;
* `Derives`             from one state to another, a part left the row of nodes behind;
* `Derives.then`        one row behind the other;
* `derives_closed`      the node of a rule, once it is closed over the row of its production;
* `Yields.derives`      every match leaves a row of its part;
* `parse_derivation`    the tree of an accepted source is a derivation.
-/

namespace Ebnf

open Ebnf.Tree

namespace Matching

/-- the job says of its terms what the grammar says -/
def Job.Named (g : Grammar) : Job → Prop
  | .rounds u n => g.node? u = some n
  | .more u n _ => g.node? u = some n
  | .single u n => g.node? u = some n
  | .once u n => g.node? u = some n
  | .nested j => j.Named g
  | .under u rule => ∃ o, g.node? u = some (.reference rule o)
  | _ => True

/-- the job, where it matches, is a match of the part -/
def Job.HasPart (g : Grammar) : Job → Part → Prop
  | .term u, q => q = .term u
  | .rounds u n, q => ∃ k, 0 < k ∧ (k = 1 ∨ n.occurrence.isRepeated = true) ∧ q = .times k u
  | .more u _ _, q => ∃ k, q = .times k u
  | .single u _, q => q = .once u
  | .once u _, q => q = .once u
  | .inOrder us, q => q = .inOrder us
  | .firstOf us, q => ∃ v ∈ us, q = .term v
  | .nested j, q => j.HasPart g q
  | .under u _, q => q = .once u
  | .body _ rule, q => ∃ p, g.production? rule = some p ∧ q = .term p

/-- the nodes from `s` to `s'` are such as a derivation has, and the topmost ones are a row that the
part stands for -/
def Derives (c : Setting) (q : Part) (s s' : State) : Prop :=
  Generates c.source c.grammar s'.tree q s.pos (s'.tree.tops s.tree.size s'.tree.size) s'.pos ∧
  Derived c.source c.grammar s'.tree s.tree.size s'.tree.size

section
variable {c : Setting} {s s' s'' : State} {q q' q'' : Part}

theorem derives_nothing (h : Generates c.source c.grammar s.tree q s.pos [] s.pos)
    (hr : Restored s s') : Derives c q s s' := by
  obtain ⟨hp, ht⟩ := hr
  unfold Derives
  rw [hp, ht, tops_self]
  exact ⟨h, Derived.nil _ _ _ _⟩

theorem Derives.then (h : Derives c q s s') (ha : Adds c.source s s') (h' : Derives c q' s' s'')
    (hf' : Frame c s' s'')
    (H : ∀ {ids ids'}, Generates c.source c.grammar s''.tree q s.pos ids s'.pos →
      Generates c.source c.grammar s''.tree q' s'.pos ids' s''.pos →
      Generates c.source c.grammar s''.tree q'' s.pos (ids ++ ids') s''.pos) :
    Derives c q'' s s'' := by
  have hkeep : ∀ a, s.tree.size ≤ a → a < s'.tree.size → s''.tree.node? a = s'.tree.node? a :=
    fun _ _ hlt => hf'.grows.node? hlt
  have hforest : Forest c.source s''.tree s.parent s.tree.size s'.tree.size s.pos s'.pos :=
    ha.of_nodes hkeep
  obtain ⟨hrow, hnodes⟩ := h
  obtain ⟨hrow', hnodes'⟩ := h'
  refine ⟨?_, (hnodes.of_nodes ha hkeep).append hnodes'⟩
  rw [hforest.tops_append hf'.grows.size_le]
  exact H (hrow.of_stretch ha hkeep) hrow'

/-! ## leaves -/

theorem derives_leaf {kind : Kind} {u : TermId} {stop : Nat} {span : Span}
    (hk : ∀ rule, kind ≠ .rule rule)
    (hterm : FromTerm c.source c.grammar
      ⟨kind, some u, some s.parent, ⟨s.pos, stop⟩, span, some (s.tree.size + 1)⟩)
    (H : ∀ t : Tree, t.Shows s.tree.size kind u s.pos stop →
      Generates c.source c.grammar t (.once u) s.pos [s.tree.size] stop) :
    Derives c (.once u) s (s.leaf kind u stop span) := by
  have hn := node?_pushLeaf s.tree kind u s.parent ⟨s.pos, stop⟩ span
  have hsize : (s.leaf kind u stop span).tree.size = s.tree.size + 1 :=
    s.tree.size_pushLeaf kind u s.parent ⟨s.pos, stop⟩ span
  have hstop : (s.leaf kind u stop span).tree.stop s.tree.size = s.tree.size + 1 := by
    show Tree.stop (s.tree.pushLeaf ..) _ = _
    rw [Tree.stop, hn]
    rfl
  unfold Derives
  rw [hsize, tops_cons (Nat.lt_succ_self _) (Nat.le_refl _) hstop, tops_self]
  refine ⟨H _ ⟨_, hn, rfl, rfl, rfl⟩, fun a n ha ha' hna => ?_⟩
  obtain rfl : a = s.tree.size := by omega
  obtain rfl := Option.some.inj (hna.symm.trans hn)
  exact ⟨hterm, fun rule hrule => absurd hrule (hk rule)⟩

theorem derives_token {u : TermId} {m : Mask} {o : Occurrence}
    (hu : c.grammar.node? u = some (.token m o)) (hs : s.pos ≤ c.source.size)
    (hm : token c u m s = .matched s') : Derives c (.once u) s s' := by
  rcases token_cases c u m s with ⟨hle, heof, e⟩ | ⟨_, his, e⟩ | ⟨_, _, e⟩
  · obtain rfl := Attempt.matched.inj (e.symm.trans hm)
    refine derives_nothing ?_ ⟨rfl, rfl⟩
    rw [Nat.le_antisymm hs hle]
    exact .atEnd hu heof
  · obtain rfl := Attempt.matched.inj (e.symm.trans hm)
    exact derives_leaf (fun _ => nofun) ⟨rfl, u, m, o, rfl, hu, his⟩ fun _ hs => .token hu his hs
  · rw [e] at hm
    cases hm

theorem derives_literal {u : TermId} {text : Grammar.Text} {o : Occurrence}
    (hu : c.grammar.node? u = some (.literal text o)) (hs : s.pos ≤ c.source.size)
    (hm : literal c u (c.grammar.text text) s = .matched s') : Derives c (.once u) s s' := by
  rcases literal_cases c u (c.grammar.text text) s with ⟨stop, hstop, e⟩ | ⟨_, e⟩
  · obtain rfl := Attempt.matched.inj (e.symm.trans hm)
    obtain ⟨h1, h2, hcov⟩ := c.source.spell_eq_some_iff.mp hstop
    rw [Nat.max_eq_right hs] at h2
    have hspan := c.source.spanBytes_rangeSpan h1 h2
    exact derives_leaf (fun _ => nofun) ⟨u, text, o, rfl, hu, hspan.trans hcov⟩
      fun _ hs => .literal hu hcov hs
  · rw [e] at hm
    cases hm

/-! ## the node of a rule -/

/-- the node that was opened in `s`, once it is closed in `s'` over the row of its production -/
theorem derives_closed {u : TermId} {rule : RuleId} {term : Option TermId}
    {parent : Option NodeId}
    (hd : ∃ q, (Job.body u rule).HasPart c.grammar q ∧ Derives c q (s.opened rule term parent) s')
    (ha : Adds c.source (s.opened rule term parent) s')
    (hf : Frame c (s.opened rule term parent) s') (hpos : s'.pos ≤ c.source.size) :
    let t := (s'.closed c s.tree.size s.pos).tree
    ∃ n, t.node? s.tree.size = some n ∧ n.kind = .rule rule ∧ n.term = term ∧
      n.tokens = ⟨s.pos, s'.pos⟩ ∧ t.stop s.tree.size = t.size ∧
      Expands c.source c.grammar t s.tree.size n ∧
      Derived c.source c.grammar t (s.tree.size + 1) t.size := by
  intro t
  obtain ⟨n, hn, hkind, hterm, hc, inner⟩ := closed_opened ha hf hpos
  have hsize : (s.opened rule term parent).tree.size = s.tree.size + 1 :=
    s.tree.size_openNode rule term parent s.pos
  have htsize : t.size = s'.tree.size := s'.tree.size_closeNode _ _ _
  have hstop : t.stop s.tree.size = s'.tree.size := hc.stop_eq hn
  -- closing changes the node of the rule only, which lies before the row
  have hkeep : ∀ a, s.tree.size + 1 ≤ a → a < s'.tree.size → t.node? a = s'.tree.node? a := by
    intro a hle _
    have hne : s.tree.size ≠ a := by omega
    exact (s'.tree.node?_closeNode s.tree.size a _ _).trans (if_neg hne)
  obtain ⟨_, ⟨p, hp, rfl⟩, hrow, hnodes⟩ := hd
  rw [hsize] at hrow hnodes
  have hforest : Forest c.source s'.tree s.tree.size (s.tree.size + 1) s'.tree.size s.pos s'.pos :=
    hsize ▸ ha
  refine ⟨n, hn, hkind, hterm, hc.tokens, hstop.trans htsize.symm, fun r hr => ?_, ?_⟩
  · obtain rfl : rule = r := Kind.rule.inj (hkind.symm.trans hr)
    refine ⟨p, hp, ?_⟩
    rw [hc.tokens, children_eq_tops, hstop]
    exact hrow.of_stretch hforest hkeep
  · rw [htsize]
    exact hnodes.of_nodes hforest hkeep

/-- a rule's node is a row of its own, which a reference to the rule stands for -/
theorem derives_reference {u : TermId} {rule : RuleId} {o : Occurrence} {parent : Option NodeId}
    (hu : c.grammar.node? u = some (.reference rule o))
    (hd : ∃ q, (Job.body u rule).HasPart c.grammar q ∧ Derives c q (s.opened rule (some u) parent) s')
    (ha : Adds c.source (s.opened rule (some u) parent) s')
    (hf : Frame c (s.opened rule (some u) parent) s') (hpos : s'.pos ≤ c.source.size) :
    Derives c (.once u) s (s'.closed c s.tree.size s.pos) := by
  obtain ⟨n, hn, hkind, hterm, htokens, hstop, hexp, hnodes⟩ := derives_closed hd ha hf hpos
  have hlt : s.tree.size < (s'.closed c s.tree.size s.pos).tree.size := lt_size_of_node? hn
  unfold Derives
  rw [tops_cons hlt (Nat.le_refl _) hstop, tops_self]
  refine ⟨.reference hu ⟨n, hn, hkind, hterm, htokens⟩, fun a m ha ha' hm => ?_⟩
  rcases Nat.eq_or_lt_of_le ha with rfl | hgt
  · obtain rfl := Option.some.inj (hm.symm.trans hn)
    refine ⟨?_, hexp⟩
    unfold FromTerm
    rw [hkind]
    exact ⟨u, o, hterm, hu⟩
  · exact hnodes a m hgt ha' hm

end

/-! ## the induction -/

/-- every match leaves a row of nodes that its part stands for -/
theorem Yields.derives {c : Setting} {h : Nat} {j : Job} {s s' : State} {r : Attempt}
    (hy : Yields c h j s r) (hr : r = .matched s') (hj : j.Named c.grammar)
    (hs : s.pos ≤ c.source.size) : ∃ q, j.HasPart c.grammar q ∧ Derives c q s s' := by
  induction hy generalizing s' with
  | missing => cases hr
  | taken hn _ _ ih =>
    obtain ⟨_, ⟨k, hpos, hk, rfl⟩, hrow, hnodes⟩ := ih hr hn hs
    refine ⟨_, rfl, .term hn ?_ hrow, hnodes⟩
    rcases hk with rfl | hrep
    · exact Occurrence.allows_one _
    · exact Occurrence.allows_of_pos hrep hpos
  | skipped hn ho hm =>
    cases hr
    exact ⟨_, rfl, derives_nothing (.term hn (Occurrence.allows_zero ho) .noTimes)
      hm.restored_of_rounds⟩
  | justOne _ _ ih =>
    obtain ⟨_, rfl, hrow, hnodes⟩ := ih hr hj hs
    exact ⟨_, ⟨1, Nat.one_pos, .inl rfl, rfl⟩, hrow.times_one, hnodes⟩
  | noneAtAll => cases hr
  | oneAndMore hrep h1 h2 ih1 ih2 =>
    subst hr
    obtain ⟨_, rfl, hd1⟩ := ih1 rfl hj hs
    obtain ⟨_, ⟨k, rfl⟩, hd2⟩ := ih2 rfl hj (h1.frame.pos_le hs)
    exact ⟨_, ⟨k + 1, Nat.succ_pos k, .inr hrep, rfl⟩,
      hd1.then (h1.adds rfl hs) hd2 h2.frame .oneTime⟩
  | idle =>
    cases hr
    exact ⟨_, ⟨0, rfl⟩, derives_nothing .noTimes ⟨rfl, rfl⟩⟩
  | another _ h1 h2 ih1 ih2 =>
    subst hr
    obtain ⟨_, rfl, hd1⟩ := ih1 rfl hj hs
    obtain ⟨_, ⟨k, rfl⟩, hd2⟩ := ih2 rfl hj (h1.frame.pos_le hs)
    exact ⟨_, ⟨k + 1, rfl⟩, hd1.then (h1.adds rfl hs) hd2 h2.frame .oneTime⟩
  | enough _ hm =>
    cases hr
    exact ⟨_, ⟨0, rfl⟩, derives_nothing .noTimes hm.restored_of_single⟩
  | cutShort => cases hr
  | kept _ ih => exact ih hr hj hs
  | undone => cases hr
  | ruleAsTerm => cases hr
  | reference _ ih => exact ih hr ⟨_, hj⟩ hs
  | token => exact ⟨_, rfl, derives_token hj hs hr⟩
  | literal => exact ⟨_, rfl, derives_literal hj hs hr⟩
  | alternation _ ih =>
    obtain ⟨_, ⟨v, hv, rfl⟩, hrow, hnodes⟩ := ih hr trivial hs
    exact ⟨_, rfl, .alternation hj hv hrow, hnodes⟩
  | concatenation _ ih =>
    obtain ⟨_, rfl, hrow, hnodes⟩ := ih hr trivial hs
    exact ⟨_, rfl, .concatenation hj hrow, hnodes⟩
  | group _ ih =>
    obtain ⟨_, rfl, hrow, hnodes⟩ := ih hr trivial hs
    exact ⟨_, rfl, .group hj hrow, hnodes⟩
  | tooDeep => cases hr
  | deeper _ _ ih =>
    obtain ⟨s₁, h₁, rfl⟩ := Attempt.eq_matched_of_map hr
    obtain ⟨q, hq, hd⟩ := ih h₁ hj hs
    exact ⟨q, hq, hd⟩
  | allDone =>
    cases hr
    exact ⟨_, rfl, derives_nothing .allDone ⟨rfl, rfl⟩⟩
  | nextOne h1 h2 ih1 ih2 =>
    subst hr
    obtain ⟨_, rfl, hd1⟩ := ih1 rfl trivial hs
    obtain ⟨_, rfl, hd2⟩ := ih2 rfl trivial (h1.frame.pos_le hs)
    exact ⟨_, rfl, hd1.then (h1.adds rfl hs) hd2 h2.frame .nextOne⟩
  | broken => cases hr
  | noneLeft => cases hr
  | chosen _ ih =>
    obtain ⟨_, rfl, hd⟩ := ih hr trivial hs
    exact ⟨_, ⟨_, List.mem_cons_self, rfl⟩, hd⟩
  | otherwise hm _ _ ih =>
    -- the choice before left no node, so the row is that of the later one
    obtain ⟨hp, ht⟩ := hm.restored_of_mismatch
    obtain ⟨_, ⟨v, hv, rfl⟩, hd⟩ := ih hr trivial (hm.frame.pos_le hs)
    unfold Derives at hd
    rw [hp, ht] at hd
    exact ⟨_, ⟨v, List.mem_cons_of_mem _ hv, rfl⟩, hd⟩
  | givenUp => cases hr
  | @under _ u rule s r hb ih =>
    cases r with
    | stopped why s₁ => cases hr
    | matched s₁ =>
      cases hr
      obtain ⟨o, hu⟩ := hj
      have hf : Frame c (s.opened rule (some u) (some s.parent)) s₁ := hb.frame
      have hd := derives_reference hu (ih rfl trivial hs) (hb.adds rfl hs) hf (hf.pos_le hs)
      exact ⟨_, rfl, hd⟩
  | production hn _ ih =>
    obtain ⟨s₁, h₁, rfl⟩ := Attempt.eq_matched_of_map hr
    obtain ⟨_, rfl, hd⟩ := ih h₁ trivial hs
    exact ⟨_, ⟨_, Grammar.production?_of_node? hn, rfl⟩, hd⟩
  | noProduction => cases hr
  | notARule => cases hr

end Matching

namespace Parser

open Matching

/-- the tree of an accepted source is a derivation of it from the start rule, the grammar being read
as EBNF -/
theorem parse_derivation (p : Parser) (start : RuleId) {root : NodeId}
    (h : (p.parse start).2 = .accepted root) :
    (p.parse start).1.tree.Derivation p.source p.grammar start := by
  obtain ⟨s, hr, hall, htree⟩ := p.matched_of_accepted start h
  obtain ⟨_, hy⟩ := yields_run_iff.mpr ⟨hr, trivial⟩
  obtain ⟨n, hn, hkind, _, htokens, _, hexp, hnodes⟩ :=
    derives_closed (hy.derives rfl trivial (Nat.zero_le _)) (hy.adds rfl (Nat.zero_le _)) hy.frame
      (Nat.le_of_eq hall)
  rw [htree]
  refine ⟨⟨n, hn, hkind, htokens.trans (by rw [← hall])⟩, ?_, ?_⟩
  · intro a m hm ha
    exact (hnodes a m (Nat.pos_of_ne_zero ha) (lt_size_of_node? hm) hm).1
  · intro a m hm
    rcases Nat.eq_zero_or_pos a with rfl | ha
    · obtain rfl := Option.some.inj (hm.symm.trans hn)
      exact hexp
    · exact (hnodes a m ha (lt_size_of_node? hm) hm).2

open Grammar in
/-- `s = ( t "b" ) * t` and `t = "a" ?` derive `aba`: the second round of the group matches `a` and
misses `b`, and its nodes are gone -/
theorem parse_derivation_undone_round :
    let g := Grammar.build [.rule "s", .rule "t", .concatenation, .group .star, .reference 1 .one,
      .literal "b" .one, .attach 3 4, .attach 3 5, .attach 2 3, .attach 2 4, .attach 0 2,
      .literal "a" .optional, .attach 1 6]
    let p : Parser := { source := .ofText "aba" "input" 0 {}, grammar := g }
    (p.parse 0).2 = .accepted Tree.rootId ∧ (p.parse 0).1.tree.children Tree.rootId = [1, 3, 4] ∧
    (p.parse 0).1.tree.Derivation p.source p.grammar 0 := by
  intro g p
  have hv : (p.parse 0).2 = .accepted Tree.rootId := by decide +kernel
  have hc : (p.parse 0).1.tree.children Tree.rootId = [1, 3, 4] := by decide +kernel
  exact ⟨hv, hc, parse_derivation p 0 hv⟩

end Parser

end Ebnf
