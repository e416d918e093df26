import Ebnf.Grammar.Build
import Ebnf.Proofs.Matching.Alongside
import Ebnf.Proofs.Outcome

/-!
# Groups that occur once

A group that occurs once matches what a concatenation of its children does; it only lies one level
deeper.  Two grammars that differ by such groups are matched side by side, and stay at the same place
with the same tree until the one with the groups meets the limit.

* `Node.Flattens`, `Grammar.Flattens`   the same, with concatenations for some groups that occur once;
* `Grammar.grouped`     a grammar with a group in the place of a concatenation;
* `follows_attempt`     a term ends as it does with the groups, unless the limit is met there;
* `outcome_follows`     so do parses, whatever was said before them;
* `group_once_is_concatenation`   what that says of the verdict and of what a parse leaves behind.
-/

namespace Ebnf

open Grammar Matching

/-- the node with the children of `m` one behind the other, at its own level if `m` is a group that
occurs once -/
inductive Grammar.Node.Flattens : (n m : Grammar.Node) → Prop where
  | same {n} : Flattens n n
  | group {ts} : Flattens (.concatenation ts) (.group ts .one)

/-- `g` is `h`, but for groups that occur once, which may be concatenations in `g` -/
structure Grammar.Flattens (g h : Grammar) : Prop where
  buffer : g.buffer = h.buffer
  size : g.size = h.size
  node : ∀ t n, g.node? t = some n → ∃ m, h.node? t = some m ∧ n.Flattens m

/-- the grammar with a group that occurs once in the place of a node, with the children `ts` -/
def Grammar.grouped (g : Grammar) (i : TermId) (ts : List TermId) : Grammar :=
  { g with nodes := g.nodes.setIfInBounds i (.group ts .one) }

namespace Grammar

theorem Node.Flattens.occurrence {n m : Node} (h : n.Flattens m) : n.occurrence = m.occurrence := by
  cases h <;> rfl

theorem node?_grouped {g : Grammar} {i : TermId} {ts : List TermId} (hi : i < g.size) (t : TermId) :
    (g.grouped i ts).node? t = if i = t then some (.group ts .one) else g.node? t := by
  show (g.nodes.setIfInBounds i _)[t]? = _
  rw [Array.getElem?_setIfInBounds]
  split
  · exact if_pos hi
  · rfl

theorem flattens_grouped {g : Grammar} {i : TermId} {ts : List TermId}
    (hn : g.node? i = some (.concatenation ts)) : g.Flattens (g.grouped i ts) where
  buffer := rfl
  size := Array.size_setIfInBounds.symm
  node := by
    intro t n ht
    have e : (g.grouped i ts).node? t = _ := node?_grouped (lt_size_of_node? hn) t
    by_cases hit : i = t
    · subst hit
      obtain rfl := Option.some.inj (hn.symm.trans ht)
      exact ⟨_, e.trans (if_pos rfl), .group⟩
    · exact ⟨n, (e.trans (if_neg hit)).trans ht, .same⟩

theorem Flattens.refl (g : Grammar) : g.Flattens g := ⟨rfl, rfl, fun _ n ht => ⟨n, ht, .same⟩⟩

section
variable {g h : Grammar} (hg : g.Flattens h)
include hg

theorem Flattens.text_eq (t : Text) : g.text t = h.text t := by
  unfold text
  rw [hg.buffer]

theorem Flattens.node?_none {t : TermId} (ht : g.node? t = none) : h.node? t = none := by
  apply node?_of_size_le
  rw [← hg.size]
  exact Array.getElem?_eq_none_iff.mp ht

theorem Flattens.node?_rule {t : TermId} {name : Text} {production : Option TermId}
    (ht : g.node? t = some (.rule name production)) : h.node? t = some (.rule name production) := by
  obtain ⟨m, hm, hf⟩ := hg.node t _ ht
  cases hf
  exact hm

theorem Flattens.node?_ne_rule {t : TermId}
    (ht : ∀ name production, g.node? t ≠ some (.rule name production)) (name : Text)
    (production : Option TermId) : h.node? t ≠ some (.rule name production) := by
  intro e
  cases hn : g.node? t with
  | none =>
    rw [hg.node?_none hn] at e
    cases e
  | some n =>
    obtain ⟨m, hm, hf⟩ := hg.node t n hn
    obtain rfl := Option.some.inj (hm.symm.trans e)
    cases hf
    exact ht _ _ hn

theorem Flattens.ruleName?_eq (t : RuleId) : g.ruleName? t = h.ruleName? t := by
  unfold ruleName?
  split
  · rename_i name production hn
    rw [hg.node?_rule hn, hg.text_eq]
  · rename_i hn
    split
    · rename_i name production hn'
      exact absurd hn' (hg.node?_ne_rule hn name production)
    · rfl

end

end Grammar

namespace Matching

/-! ## rules -/

section
variable {c : Setting} {g : Grammar} {again again' : TermId → State → Attempt} {d e : Base}
  {s u : State}

section
variable {rule : RuleId} {name : Text} {t : TermId}

theorem body_of_production {production : TermId}
    (hn : c.grammar.node? rule = some (.rule name (some production))) :
    body c again t rule s = (again production
      ((s.say (.enterRule (c.grammar.text name) s.pos)).withRule rule)).map
        fun s' => s'.withRule s.rule := by
  rw [body, hn]

theorem body_of_noProduction (hn : c.grammar.node? rule = some (.rule name none)) :
    body c again t rule s = miss (s.say (.noProduction (c.grammar.text name))) t := by
  rw [body, hn]

theorem body_of_notARule
    (hn : ∀ name production, c.grammar.node? rule ≠ some (.rule name production)) :
    body c again t rule s = miss (s.say (.notARule rule)) t := by
  unfold body
  split
  · rename_i e
    exact absurd e (hn _ _)
  · rename_i e
    exact absurd e (hn _ _)
  · rfl

end

/-! ## terms of the two grammars -/

section
variable (hg : c.grammar.Flattens g)
include hg

theorem follows_body (H : ∀ t s u, s.Shallower d e u → (again t s).Follows d e (again' t u))
    (t : TermId) (rule : RuleId) (s u : State) (h : s.Shallower d e u) :
    (body c again t rule s).Follows d e (body (c.withGrammar g) again' t rule u) := by
  have htext : ∀ name, c.grammar.text name = (c.withGrammar g).grammar.text name := hg.text_eq
  cases hp : c.grammar.production? rule with
  | some production =>
    obtain ⟨name, hn⟩ := production?_eq_some_iff.mp hp
    have hn' : (c.withGrammar g).grammar.node? rule = _ := hg.node?_rule hn
    rw [body_of_production hn, body_of_production hn', htext, h.pos, h.rule]
    exact (H _ _ _ ((h.say _).withRule rule)).map fun _ _ hs => hs.withRule u.rule
  | none =>
    by_cases hn : ∃ name, c.grammar.node? rule = some (.rule name none)
    · obtain ⟨name, hn⟩ := hn
      have hn' : (c.withGrammar g).grammar.node? rule = _ := hg.node?_rule hn
      rw [body_of_noProduction hn, body_of_noProduction hn', htext]
      exact follows_miss (h.say _) t
    · have hn : ∀ name production, c.grammar.node? rule ≠ some (.rule name production) := by
        intro name production e
        rw [production?_of_node? e] at hp
        exact hn ⟨name, hp ▸ e⟩
      have hn' := hg.node?_ne_rule hn
      rw [body_of_notARule hn, body_of_notARule (c := c.withGrammar g) hn']
      exact follows_miss (h.say _) t

theorem follows_underRule (H : ∀ t s u, s.Shallower d e u → (again t s).Follows d e (again' t u))
    (t : TermId) (rule : RuleId) (s u : State) (h : s.Shallower d e u) :
    (underRule c again t rule s).Follows d e (underRule (c.withGrammar g) again' t rule u) := by
  unfold underRule
  rw [h.mark, h.parent]
  exact follows_leave (follows_body hg H t rule _ _ (h.opened _ _ _)) _ _

theorem follows_once
    (H : ∀ d e t s u, s.Shallower d e u → (again t s).Follows d e (again' t u)) (t : TermId)
    {n m : Node} (hf : n.Flattens m) (s u : State) (h : s.Shallower d e u) :
    (once c again t n s).Follows d e (once (c.withGrammar g) again' t m u) := by
  cases hf with
  | group => exact follows_nested_right (fun _ _ => follows_inOrder (H _ _) _) h
  | same =>
    cases n with
    | rule => exact follows_miss (h.say _) t
    | reference target => exact follows_nested (follows_underRule hg (H _ _) t target) h
    | token m => exact follows_token t m h
    | literal text =>
      have htext : c.grammar.text text = (c.withGrammar g).grammar.text text := hg.text_eq text
      show Attempt.Follows d e _ (literal (c.withGrammar g) t ((c.withGrammar g).grammar.text text) u)
      rw [← htext]
      exact follows_literal t _ h
    | alternation ts => exact follows_firstOf (H _ _) ts h
    | concatenation ts => exact follows_inOrder (H _ _) ts h
    | group ts => exact follows_nested (fun _ _ => follows_inOrder (H _ _) ts) h

/-- a term ends as it does with the groups, unless the limit is met there; whether or not it comes to
an end -/
theorem follows_attempt (height : Nat) (d e : Base) (t : TermId) (s u : State) (h : s.Shallower d e u) :
    (attempt c height t s).Follows d e (attempt (c.withGrammar g) height t u) := by
  induction height generalizing d e t s u with
  | zero => exact .stopped h
  | succ height ih =>
    rw [attempt_succ, attempt_succ]
    cases hn : c.grammar.node? t with
    | none =>
      have hn' : (c.withGrammar g).grammar.node? t = none := hg.node?_none hn
      rw [hn']
      exact follows_miss (h.say _) t
    | some n =>
      obtain ⟨m, hm, hf⟩ := hg.node t n hn
      have hn' : (c.withGrammar g).grammar.node? t = some m := hm
      rw [hn']
      show Attempt.Follows d e _ (occurring m.occurrence _ t (rounds c) u)
      rw [← hf.occurrence]
      exact follows_occurring (follows_atomic (follows_once hg ih t hf)) _ t _ h

end

end

end Matching

/-! ## parses -/

namespace Parser

def withGrammar (p : Parser) (g : Grammar) : Parser := { p with grammar := g }

/-- two parses over the same source and under the same limit, the one with groups in the place of some
concatenations of the other; what was said before them does not matter -/
theorem outcome_follows {p q : Parser} (hg : p.grammar.Flattens q.grammar)
    (hq : q.setting = p.setting.withGrammar q.grammar) (start : RuleId) :
    (p.outcome start).Follows ⟨0, p.begun start⟩ ⟨0, q.begun start⟩ (q.outcome start) := by
  have hheight : height q.setting = height p.setting := by
    rw [hq]
    show (_ + 1) * (_ + 1) * (q.grammar.size + 1) = _
    rw [← hg.size]
    rfl
  unfold outcome
  rw [run_eq, run_eq]
  unfold term
  rw [hheight, hq]
  exact follows_body hg (fun t s u h => follows_attempt hg _ _ _ t s u h) start start _ _
    (shallower_first start _ _)

theorem conclude_follows {c : Setting} {g : Grammar} {r r' : Attempt} {d e : Base}
    (h : r.Follows d e r') (hl : ¬ r'.Limited) : conclude c r = conclude (c.withGrammar g) r' := by
  cases h with
  | limited => exact absurd trivial hl
  | @matched s u hs =>
    obtain ⟨peak, log, rfl⟩ := hs.same
    by_cases hall : u.pos = c.source.size
    · rw [conclude_of_eq (c := c.withGrammar g) hall]
      exact conclude_of_eq hall
    · rw [conclude_of_ne (c := c.withGrammar g) hall]
      exact conclude_of_ne hall
  | @stopped why s u hs =>
    obtain ⟨peak, log, rfl⟩ := hs.same
    cases why with
    | mismatch => rfl
    | limit => exact absurd trivial hl
    | endless => rfl

theorem state_follows {r r' : Attempt} {d e : Base} (h : r.Follows d e r') (hl : ¬ r'.Limited) :
    r.state.Shallower d e r'.state := by
  cases h with
  | limited => exact absurd trivial hl
  | matched hs => exact hs
  | stopped hs => exact hs

/-- let a concatenation of a grammar be made a group that occurs once.  A parse that does not meet the
limit then has the same verdict with the concatenation, be it a root, an error or that it goes on
forever, and leaves the same tree, failure and log behind -/
theorem group_once_is_concatenation (p : Parser) (start : RuleId) {i : TermId} {ts : List TermId}
    (hn : p.grammar.node? i = some (.concatenation ts))
    (hl : ¬ ((p.withGrammar (p.grammar.grouped i ts)).parse start).2.Limited) :
    let q := p.withGrammar (p.grammar.grouped i ts)
    (p.parse start).2 = (q.parse start).2 ∧
    (p.parse start).1.tree = (q.parse start).1.tree ∧
    (p.parse start).1.failure = (q.parse start).1.failure ∧
    (p.parse start).1.log = (q.parse start).1.log := by
  intro q
  have hg : p.grammar.Flattens q.grammar := flattens_grouped hn
  have hr := outcome_follows (q := q) hg rfl start
  have hl : ¬ (q.outcome start).Limited := mt (q.limited_iff start).mpr hl
  have hc : conclude p.setting (p.outcome start) = conclude q.setting (q.outcome start) :=
    conclude_follows (c := p.setting) hr hl
  have hs := state_follows hr hl
  have hbegun : p.begun start = q.begun start := by
    unfold begun
    rw [hg.ruleName?_eq]
    rfl
  have hlog : (p.outcome start).state.log = (q.outcome start).state.log := by
    obtain ⟨es, hp, hq⟩ := hs.said
    exact Array.toList_inj.mp (hp.trans (hbegun ▸ hq.symm))
  rw [parse_eq, parse_eq, hc, hs.failure, hlog]
  exact ⟨rfl, rfl, rfl, rfl⟩

open Grammar in
/-- `s = "a" s ? "b"` and `s = ( "a" s ? "b" )` make the same tree of `aabb`, although the group is
met twice, once inside itself; the group takes five levels, and the concatenation two -/
theorem group_once_is_concatenation_recursive :
    let g := Grammar.build [.rule "s", .concatenation, .literal "a" .one, .reference 0 .optional,
      .literal "b" .one, .attach 1 2, .attach 1 3, .attach 1 4, .attach 0 1]
    let p : Parser := { source := .ofText "aabb" "input" 0 {}, grammar := g, config := ⟨5, .never⟩ }
    let q := p.withGrammar (p.grammar.grouped 1 [2, 3, 4])
    p.grammar.node? 1 = some (.concatenation [2, 3, 4]) ∧ ¬ (q.parse 0).2.Limited ∧
    (p.parse 0).2 = .accepted Tree.rootId ∧ (p.parse 0).1.tree = (q.parse 0).1.tree ∧
    (p.parse 0).1.failure = (q.parse 0).1.failure ∧ (p.parse 0).1.log = (q.parse 0).1.log := by
  intro g p q
  have hn : p.grammar.node? 1 = some (.concatenation [2, 3, 4]) := by decide +kernel
  have hv : (q.parse 0).2 = .accepted Tree.rootId := by decide +kernel
  have hl : ¬ (q.parse 0).2.Limited := by
    rintro ⟨_, _, _, he⟩
    rw [hv] at he
    cases he
  obtain ⟨hverdict, htree, hfailure, hlog⟩ := group_once_is_concatenation p 0 hn hl
  exact ⟨hn, hl, hverdict.trans hv, htree, hfailure, hlog⟩

end Parser

end Ebnf
