import Ebnf.Grammar.Build
import Ebnf.Proofs.Tree.Growth

/-!
# The layout of a tree

* `Layout`          the row holds a tree in preorder: every node is complete and lies in the subtree
                    of its parent, which is the innermost one around it, and the ranges of subtrees
                    are nested or disjoint;
* `Grown.layout`    a root with a forest below it is laid out so;
* `parse_layout`    and so is the tree of an accepted source.
-/

namespace Ebnf

namespace Tree

/-- the nodes of a tree for `start` lie in preorder -/
structure Layout (start : RuleId) (t : Tree) : Prop where
  root : ∃ n, t.node? rootId = some n ∧ n.kind = .rule start ∧ n.parent = none ∧ n.term = none ∧
    n.subtreeEnd = some t.size
  complete : ∀ (i : Nat) n, t.node? i = some n → n.subtreeEnd = some (t.stop i)
  terminal : ∀ (i : Nat) n, t.node? i = some n → n.isTerminal = true → t.stop i = i + 1
  /-- the parent is a rule's node, and the innermost one around -/
  parent : ∀ (i : Nat) n, t.node? i = some n → 0 < i → ∃ (p : Nat) (m : Node) (rule : RuleId),
    n.parent = some p ∧ t.node? p = some m ∧ m.kind = .rule rule ∧ p < i ∧ i < t.stop i ∧
    t.stop i ≤ t.stop p ∧ ∀ q : Nat, q < i → i < t.stop q → q ≤ p ∧ t.stop p ≤ t.stop q
  nested : ∀ i j : Nat, i < t.size → j < t.size → t.stop i ≤ j ∨ t.stop j ≤ i ∨
    (i ≤ j ∧ t.stop j ≤ t.stop i) ∨ (j ≤ i ∧ t.stop i ≤ t.stop j)
  ranges : ∀ (i : Nat) n, t.node? i = some n →
    n.tokens.start ≤ n.tokens.stop ∧ n.span.start ≤ n.span.stop

section
variable {x : Lexed} {t : Tree} {a b stop i k : Nat} {parent : Option Nat}

theorem lt_size_of_node? {n : Node} (h : t.node? a = some n) : a < t.size :=
  (Array.getElem?_eq_some_iff.mp h).1

theorem Node.kind_of_not_terminal {n : Node} (h : n.isTerminal = false) :
    ∃ rule, n.kind = .rule rule := by
  unfold isTerminal at h
  split at h
  · exact ⟨_, by assumption⟩
  · cases h

theorem Covers.ranges {n : Node} (hc : Covers x n parent i k stop) :
    n.tokens.start ≤ n.tokens.stop ∧ n.span.start ≤ n.span.stop := by
  have hb := x.boundary_mono hc.forth
  rw [hc.tokens, hc.span, x.rangeSpan_eq hc.forth hc.bound]
  exact ⟨hc.forth, hb⟩

theorem Subtree.stop_of_terminal (h : Subtree x t parent a stop i k) {n : Node}
    (hn : t.node? a = some n) (ht : n.isTerminal = true) : stop = a + 1 := by
  cases h with
  | leaf => rfl
  | @rule _ _ _ m hm hr _ _ =>
    obtain rfl : m = n := Option.some.inj (hm.symm.trans hn)
    rw [ht] at hr
    cases hr

theorem Subtree.inside (h : Subtree x t parent a stop i k) (hab : a < b) (hb : b < stop) :
    t.stop b ≤ stop ∧ ∃ q stop' i' k' : Nat, Subtree x t (some q) b stop' i' k' ∧ a ≤ q := by
  cases h with
  | leaf => omega
  | rule _ _ _ inner =>
    obtain ⟨q, stop', i', k', hs, hle, hq⟩ := inner.subtree hab hb
    rw [hs.stop_eq]
    refine ⟨hle, q, stop', i', k', hs, ?_⟩
    rcases hq with rfl | ⟨h1, _⟩
    · exact Nat.le_refl _
    · exact Nat.le_of_succ_le h1

end

section
variable {x : Lexed} {start : RuleId} {t : Tree} (h : t.Grown x start)
include h

theorem Grown.root_subtree : Subtree x t none 0 t.size 0 x.size := by
  obtain ⟨n, hn, hkind, _, hc⟩ := h.root
  have ht : n.isTerminal = false := by
    rw [Node.isTerminal, hkind]
  exact .rule hn ht hc h.forest

theorem Grown.subtree {a : Nat} (ha : a < t.size) :
    ∃ parent stop i k, Subtree x t parent a stop i k := by
  cases a with
  | zero => exact ⟨_, _, _, _, h.root_subtree⟩
  | succ a =>
    obtain ⟨q, stop, i, k, hs, _⟩ := h.forest.subtree (Nat.le_add_left 1 a) ha
    exact ⟨_, _, _, _, hs⟩

theorem Grown.enclosed {a : Nat} {n : Node} (hn : t.node? a = some n) (ha : 0 < a) :
    ∃ q : Nat, n.parent = some q ∧ q < a ∧ Encloses t q (t.stop a) := by
  obtain ⟨q, stop, i, k, hs, hle, hq⟩ := h.forest.subtree ha (lt_size_of_node? hn)
  rw [hs.stop_eq]
  refine ⟨q, (hs.covers hn).parent, ?_⟩
  rcases hq with rfl | ⟨_, h2⟩
  · obtain ⟨m, hm, hkind, _, hc⟩ := h.root
    refine ⟨ha, m, hm, ?_, ?_⟩
    · rw [Node.isTerminal, hkind]
    · rw [hc.stop_eq hm]
      exact hle
  · exact h2

/-- ranges of subtrees are nested or disjoint -/
theorem Grown.laminar {a b : Nat} (hab : a < b) (hb : b < t.size) :
    t.stop a ≤ b ∨ t.stop b ≤ t.stop a := by
  obtain ⟨parent, stop, i, k, hs⟩ := h.subtree (Nat.lt_trans hab hb)
  rw [hs.stop_eq]
  by_cases hlt : b < stop
  · exact .inr (hs.inside hab hlt).1
  · exact .inl (Nat.le_of_not_lt hlt)

/-- what lies around a node lies around its parent, or is the parent -/
theorem Grown.innermost {a q : Nat} {n : Node} (hn : t.node? a = some n)
    (hq : n.parent = some q) {b : Nat} (hba : b < a) (hab : a < t.stop b) : b ≤ q := by
  obtain ⟨parent, stop, i, k, hs⟩ := h.subtree (Nat.lt_trans hba (lt_size_of_node? hn))
  rw [hs.stop_eq] at hab
  obtain ⟨_, q', _, _, _, hs', hle⟩ := hs.inside hba hab
  have e := (hs'.covers hn).parent
  rw [hq] at e
  obtain rfl : q = q' := Option.some.inj e
  exact hle

theorem Grown.layout : t.Layout start where
  root := by
    obtain ⟨n, hn, hkind, hterm, hc⟩ := h.root
    exact ⟨n, hn, hkind, hc.parent, hterm, hc.subtreeEnd⟩
  complete := by
    intro a n hn
    obtain ⟨_, _, _, _, hs⟩ := h.subtree (lt_size_of_node? hn)
    rw [hs.stop_eq]
    exact (hs.covers hn).subtreeEnd
  terminal := by
    intro a n hn ht
    obtain ⟨_, _, _, _, hs⟩ := h.subtree (lt_size_of_node? hn)
    rw [hs.stop_eq]
    exact hs.stop_of_terminal hn ht
  parent := by
    intro a n hn ha
    obtain ⟨q, hq, hlt, m, hm, hrule, hle⟩ := h.enclosed hn ha
    obtain ⟨_, _, _, _, hs⟩ := h.subtree (lt_size_of_node? hn)
    have hstop := hs.lt_stop
    rw [← hs.stop_eq] at hstop
    obtain ⟨rule, hkind⟩ := Node.kind_of_not_terminal hrule
    refine ⟨q, m, rule, hq, hm, hkind, hlt, hstop, hle, fun b hba hab => ?_⟩
    have hbq := h.innermost hn hq hba hab
    refine ⟨hbq, ?_⟩
    rcases Nat.lt_or_eq_of_le hbq with hbq | rfl
    · rcases h.laminar hbq (lt_size_of_node? hm) with h1 | h1
      · omega
      · exact h1
    · exact Nat.le_refl _
  nested := by
    intro a b ha hb
    rcases Nat.lt_trichotomy a b with hab | rfl | hab
    · rcases h.laminar hab hb with h1 | h1
      · exact .inl h1
      · exact .inr (.inr (.inl ⟨Nat.le_of_lt hab, h1⟩))
    · exact .inr (.inr (.inl ⟨Nat.le_refl _, Nat.le_refl _⟩))
    · rcases h.laminar hab ha with h1 | h1
      · exact .inr (.inl h1)
      · exact .inr (.inr (.inr ⟨Nat.le_of_lt hab, h1⟩))
  ranges := by
    intro a n hn
    obtain ⟨_, _, _, _, hs⟩ := h.subtree (lt_size_of_node? hn)
    exact (hs.covers hn).ranges

end

/-! ## stretches of a row that is laid out -/

section
variable {start : RuleId} {t : Tree} (h : t.Layout start) {i j : Nat}
include h

theorem Layout.stop_root : t.stop 0 = t.size := by
  obtain ⟨n, hn, _, _, _, hend⟩ := h.root
  exact Option.some.inj ((h.complete 0 n hn).symm.trans hend)

theorem Layout.lt_stop (hi : i < t.size) : i < t.stop i := by
  cases i with
  | zero => rwa [h.stop_root]
  | succ i =>
    obtain ⟨_, _, _, _, _, _, _, hlt, _⟩ :=
      h.parent (i + 1) t.nodes[i + 1] (Array.getElem?_eq_getElem hi) (Nat.succ_pos i)
    exact hlt

theorem Layout.stop_le (hij : i ≤ j) (hj : j < t.stop i) (hsize : j < t.size) :
    t.stop j ≤ t.stop i := by
  have hlt := h.lt_stop hsize
  have hnest := h.nested i j (Nat.lt_of_le_of_lt hij hsize) hsize
  rcases Nat.lt_or_eq_of_le hij with hij | rfl
  · omega
  · exact Nat.le_refl _

theorem Layout.stop_le_size (hi : i < t.size) : t.stop i ≤ t.size := by
  have hroot := h.stop_root
  have hle := h.stop_le (Nat.zero_le i) (by omega) hi
  omega

end

end Tree

namespace Parser

/-- the tree of an accepted source lies in preorder -/
theorem parse_layout (p : Parser) (start : RuleId) {root : NodeId}
    (h : (p.parse start).2 = .accepted root) : (p.parse start).1.tree.Layout start :=
  (parse_grown p start h).layout

open Grammar in
/-- `s = t ? "b"` and `t = "a"` lay out `ab` as a root, the node of `t` with its literal, and a
literal -/
theorem parse_layout_reference :
    let g := Grammar.build [.rule "s", .rule "t", .concatenation, .reference 1 .optional,
      .literal "b" .one, .attach 2 3, .attach 2 4, .attach 0 2, .literal "a" .one, .attach 1 5]
    let p : Parser := { source := .ofText "ab" "input" 0 {}, grammar := g }
    (p.parse 0).2 = .accepted Tree.rootId ∧ (p.parse 0).1.tree.Layout 0 := by
  intro g p
  have hv : (p.parse 0).2 = .accepted Tree.rootId := by decide +kernel
  exact ⟨hv, parse_layout p 0 hv⟩

end Parser

end Ebnf
