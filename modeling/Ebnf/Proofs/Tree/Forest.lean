import Ebnf.Proofs.Source.Partition
import Ebnf.Tree.Walk

/-!
# Forests in a row of nodes

A stretch of the row may hold whole subtrees, one behind the other, with one parent.  That is what
a match leaves behind; the node of an unfinished rule lies before the stretch of what it matched so
far.

* `Covers`           what a complete node says of itself;
* `Forest`           the nodes from `lo` on and before `hi` are whole subtrees below `p`, and their
                     tokens are those from `i` on and before `j`;
* `Forest.append`    two forests side by side are one;
* `Forest.of_nodes`  a forest depends on its own nodes only;
* `Subtree`          a whole subtree;
* `Forest.subtree`   each node of a forest is the first one of its subtree.
-/

namespace Ebnf.Tree

/-- the node is complete: it covers the tokens from `i` on and before `k`, and its subtree ends
before `stop` -/
structure Covers (x : Lexed) (n : Node) (parent : Option Nat) (i k stop : Nat) : Prop where
  parent : n.parent = parent
  tokens : n.tokens = ⟨i, k⟩
  span : n.span = x.rangeSpan ⟨i, k⟩
  subtreeEnd : n.subtreeEnd = some stop
  forth : i ≤ k
  bound : k ≤ x.size

inductive Forest (x : Lexed) (t : Tree) : (p lo hi i j : Nat) → Prop where
  | nil {p lo i} : Forest x t p lo lo i i
  | leaf {p lo hi i k j n} (hn : t.node? lo = some n) (ht : n.isTerminal = true)
      (hc : Covers x n (some p) i k (lo + 1)) (rest : Forest x t p (lo + 1) hi k j) :
      Forest x t p lo hi i j
  | rule {p lo mid hi i k j n} (hn : t.node? lo = some n) (ht : n.isTerminal = false)
      (hc : Covers x n (some p) i k mid) (inner : Forest x t lo (lo + 1) mid i k)
      (rest : Forest x t p mid hi k j) : Forest x t p lo hi i j

/-- a complete node at `a`, and a forest below it if it is a rule's -/
inductive Subtree (x : Lexed) (t : Tree) (parent : Option Nat) (a : Nat) :
    (stop i k : Nat) → Prop where
  | leaf {i k n} (hn : t.node? a = some n) (ht : n.isTerminal = true)
      (hc : Covers x n parent i k (a + 1)) : Subtree x t parent a (a + 1) i k
  | rule {stop i k n} (hn : t.node? a = some n) (ht : n.isTerminal = false)
      (hc : Covers x n parent i k stop) (inner : Forest x t a (a + 1) stop i k) :
      Subtree x t parent a stop i k

variable {x : Lexed} {t u : Tree} {p a lo mid hi i j k stop : Nat}

theorem Forest.lo_le (h : Forest x t p lo hi i j) : lo ≤ hi := by
  induction h with
  | nil => exact Nat.le_refl _
  | leaf _ _ _ _ ih => omega
  | rule _ _ _ _ _ ihi ih => omega

theorem Forest.forth (h : Forest x t p lo hi i j) : i ≤ j := by
  induction h with
  | nil => exact Nat.le_refl _
  | leaf _ _ hc _ ih => exact Nat.le_trans hc.forth ih
  | rule _ _ hc _ _ _ ih => exact Nat.le_trans hc.forth ih

theorem Forest.bound (h : Forest x t p lo hi i j) (hi' : i ≤ x.size) : j ≤ x.size := by
  induction h with
  | nil => exact hi'
  | leaf _ _ hc _ ih => exact ih hc.bound
  | rule _ _ hc _ _ _ ih => exact ih hc.bound

theorem Forest.append (h : Forest x t p lo mid i k) (h' : Forest x t p mid hi k j) :
    Forest x t p lo hi i j := by
  induction h with
  | nil => exact h'
  | leaf hn ht hc _ ih => exact .leaf hn ht hc (ih h')
  | rule hn ht hc inner _ _ ih => exact .rule hn ht hc inner (ih h')

theorem Forest.of_nodes (h : Forest x t p lo hi i j)
    (hu : ∀ a, lo ≤ a → a < hi → u.node? a = t.node? a) : Forest x u p lo hi i j := by
  induction h with
  | nil => exact .nil
  | @leaf p lo hi i k j n hn ht hc rest ih =>
    have hle := rest.lo_le
    have hn' : u.node? lo = some n := (hu lo (Nat.le_refl _) (by omega)).trans hn
    exact .leaf hn' ht hc (ih fun a h1 h2 => hu a (by omega) h2)
  | @rule p lo mid hi i k j n hn ht hc inner rest ihi ih =>
    have hle := inner.lo_le
    have hle' := rest.lo_le
    have hn' : u.node? lo = some n := (hu lo (Nat.le_refl _) (by omega)).trans hn
    exact .rule hn' ht hc (ihi fun a h1 h2 => hu a (by omega) (by omega))
      (ih fun a h1 h2 => hu a (by omega) h2)

/-! ## subtrees -/

theorem Covers.stop_eq {n : Node} {parent : Option Nat} (hc : Covers x n parent i k stop)
    (hn : t.node? a = some n) : t.stop a = stop := by
  rw [Tree.stop, hn]
  show n.subtreeEnd.getD t.size = stop
  rw [hc.subtreeEnd]
  rfl

theorem Subtree.exists_covers {parent : Option Nat} (h : Subtree x t parent a stop i k) :
    ∃ n, t.node? a = some n ∧ Covers x n parent i k stop := by
  cases h with
  | leaf hn _ hc => exact ⟨_, hn, hc⟩
  | rule hn _ hc _ => exact ⟨_, hn, hc⟩

theorem Subtree.covers {parent : Option Nat} {n : Node} (h : Subtree x t parent a stop i k)
    (hn : t.node? a = some n) : Covers x n parent i k stop := by
  obtain ⟨m, hm, hc⟩ := h.exists_covers
  obtain rfl : m = n := Option.some.inj (hm.symm.trans hn)
  exact hc

theorem Subtree.stop_eq {parent : Option Nat} (h : Subtree x t parent a stop i k) :
    t.stop a = stop := by
  obtain ⟨n, hn, hc⟩ := h.exists_covers
  exact hc.stop_eq hn

theorem Subtree.lt_stop {parent : Option Nat} (h : Subtree x t parent a stop i k) :
    a < stop := by
  cases h with
  | leaf => exact Nat.lt_succ_self a
  | rule _ _ _ inner => exact inner.lo_le

/-- `q` is the node of a rule, and its subtree goes on up to `stop` at least -/
def Encloses (t : Tree) (q stop : Nat) : Prop :=
  ∃ n, t.node? q = some n ∧ n.isTerminal = false ∧ stop ≤ t.stop q

/-- each node of a forest is the first one of its subtree; its parent is the forest's or lies
before it in the forest -/
theorem Forest.subtree (h : Forest x t p lo hi i j) (ha : lo ≤ a) (ha' : a < hi) :
    ∃ q stop i' k' : Nat, Subtree x t (some q) a stop i' k' ∧ stop ≤ hi ∧
      (q = p ∨ lo ≤ q ∧ q < a ∧ Encloses t q stop) := by
  induction h with
  | nil => omega
  | @leaf p lo hi i k j n hn ht hc rest ih =>
    by_cases hlo : a = lo
    · subst hlo
      exact ⟨p, _, i, k, .leaf hn ht hc, rest.lo_le, .inl rfl⟩
    · obtain ⟨q, stop, i', k', hs, hle, hq⟩ := ih (by omega) ha'
      exact ⟨q, stop, i', k', hs, hle, hq.imp_right fun ⟨h1, h2⟩ => ⟨by omega, h2⟩⟩
  | @rule p lo mid hi i k j n hn ht hc inner rest ihi ih =>
    have hrest := rest.lo_le
    by_cases hlo : a = lo
    · subst hlo
      exact ⟨p, mid, i, k, .rule hn ht hc inner, hrest, .inl rfl⟩
    · by_cases hmid : a < mid
      · obtain ⟨q, stop, i', k', hs, hle, hq⟩ := ihi (by omega) hmid
        refine ⟨q, stop, i', k', hs, by omega, .inr ?_⟩
        rcases hq with rfl | ⟨h1, h2⟩
        · refine ⟨Nat.le_refl _, by omega, n, hn, ht, ?_⟩
          rw [hc.stop_eq hn]
          exact hle
        · exact ⟨by omega, h2⟩
      · have hinner := inner.lo_le
        obtain ⟨q, stop, i', k', hs, hle, hq⟩ := ih (by omega) ha'
        exact ⟨q, stop, i', k', hs, hle, hq.imp_right fun ⟨h1, h2⟩ => ⟨by omega, h2⟩⟩

end Ebnf.Tree
