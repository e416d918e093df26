import Mathlib.Logic.Relation
import Ebnf.Proofs.Tree.Reading

/-!
# Walks along the row and parents

Where a node belongs is written down twice: the node names its parent, and it lies in the stretch of
the row that its parent's subtree takes up.  The walks look at the stretches only; in a row that is
laid out they find what the parents say.

* `HasParent`, `Descends`   a node names its parent; a node is reached from another by parents;
* `Stretch`                 nodes side by side whose subtrees do not go past the last one;
* `Layout.mem_outermostOf`  a walk keeps those nodes that lie below no other one to keep;
* `Layout.descends_iff`     a subtree has the nodes that its first node is reached from;
* `Layout.mem_children`     and the children of a node are those that name it;
* `FollowsParents`          all walks find what the parents say;
* `parse_follows_parents`   and so they do in the tree of an accepted source.
-/

namespace Ebnf

namespace Tree

def HasParent (t : Tree) (n p : NodeId) : Prop := ∃ m, t.node? n = some m ∧ m.parent = some p

/-- going from nodes to their parents one comes from `n` to `a`, in no step or more -/
def Descends (t : Tree) : (n a : NodeId) → Prop := Relation.ReflTransGen t.HasParent

/-- the subtrees of the nodes from `lo` on and before `hi` do not go past `hi` -/
structure Stretch (t : Tree) (lo hi : Nat) : Prop where
  size : hi ≤ t.size
  stop_le : ∀ i, lo ≤ i → i < hi → t.stop i ≤ hi

/-! ## walks along a stretch -/

theorem Stretch.mono {t : Tree} {lo lo' hi : Nat} (h : t.Stretch lo hi) (hlo : lo ≤ lo') :
    t.Stretch lo' hi :=
  ⟨h.size, fun i hi => h.stop_le i (Nat.le_trans hlo hi)⟩

section
variable {start : RuleId} {t : Tree} (h : t.Layout start) {lo hi : Nat}
include h

theorem Layout.stretch {p : Nat} (hp : p < t.size) : t.Stretch p (t.stop p) where
  size := h.stop_le_size hp
  stop_le _ hle hlt := h.stop_le hle hlt (Nat.lt_of_lt_of_le hlt (h.stop_le_size hp))

/-- what is to be said of the rest of a stretch, from each place on, is said at a node once it is said
behind the node and behind its subtree -/
theorem Layout.stretch_induction {hi : Nat} {motive : ∀ lo, t.Stretch lo hi → Prop}
    (done : ∀ (lo : Nat) hs, hi ≤ lo → motive lo hs)
    (step : ∀ (lo : Nat) hs (hlo : lo < t.stop lo), t.stop lo ≤ hi →
      motive (lo + 1) (hs.mono (Nat.le_succ lo)) →
      motive (t.stop lo) (hs.mono (Nat.le_of_lt hlo)) → motive lo hs)
    (lo : Nat) (hs : t.Stretch lo hi) : motive lo hs := by
  induction hk : hi - lo using Nat.strongRecOn generalizing lo with
  | _ k ih =>
    by_cases hlt : lo < hi
    · have hlo := h.lt_stop (Nat.lt_of_lt_of_le hlt hs.size)
      have hnext := ih (hi - (lo + 1)) (by omega) _ (hs.mono (Nat.le_succ lo)) rfl
      have hjump := ih (hi - t.stop lo) (by omega) _ (hs.mono (Nat.le_of_lt hlo)) rfl
      exact step lo hs hlo (hs.stop_le lo (Nat.le_refl _) hlt) hnext hjump
    · exact done lo hs (Nat.le_of_not_lt hlt)

/-- a walk along a stretch keeps the nodes that lie below no other one to keep -/
theorem Layout.mem_outermostOf {keep : NodeId → Prop} [DecidablePred keep] (hs : t.Stretch lo hi)
    {n : Nat} : n ∈ t.outermostOf keep 0 (List.range' lo (hi - lo)) ↔
      lo ≤ n ∧ n < hi ∧ keep n ∧ ∀ a, lo ≤ a → a < n → n < t.stop a → ¬ keep a := by
  induction lo, hs using h.stretch_induction with
  | done lo hs hle =>
    rw [Nat.sub_eq_zero_of_le hle]
    simp only [List.range'_zero, outermostOf, List.not_mem_nil, false_iff]
    omega
  | step lo hs hlo hle hnext hjump =>
    rw [outermostOf_range' hlo hle]
    by_cases hk : keep lo
    · rw [if_pos hk, List.mem_cons, hjump]
      constructor
      · rintro (rfl | ⟨h1, h2, hn, hmax⟩)
        · exact ⟨Nat.le_refl _, by omega, hk, by omega⟩
        · refine ⟨by omega, h2, hn, fun a h3 h4 h5 => ?_⟩
          -- nothing before the jump reaches behind it
          by_cases ha : a < t.stop lo
          · have hstop := h.stop_le h3 ha (Nat.lt_of_lt_of_le h4 (by have := hs.size; omega))
            omega
          · exact hmax a (by omega) h4 h5
      · rintro ⟨h1, h2, hn, hmax⟩
        rcases Nat.eq_or_lt_of_le h1 with rfl | hlt
        · exact .inl rfl
        · have hout : t.stop lo ≤ n := Nat.le_of_not_lt fun hin => hmax lo (Nat.le_refl _) hlt hin hk
          exact .inr ⟨hout, h2, hn, fun a h3 => hmax a (by omega)⟩
    · rw [if_neg hk, hnext]
      constructor
      · rintro ⟨h1, h2, hn, hmax⟩
        refine ⟨by omega, h2, hn, fun a h3 h4 h5 => ?_⟩
        rcases Nat.eq_or_lt_of_le h3 with rfl | hlt
        · exact hk
        · exact hmax a hlt h4 h5
      · rintro ⟨h1, h2, hn, hmax⟩
        have hne : lo ≠ n := fun e => hk (e ▸ hn)
        exact ⟨by omega, h2, hn, fun a h3 => hmax a (by omega)⟩

/-- the subtrees of the topmost nodes of a stretch make up the stretch -/
theorem Layout.flatMap_tops (hs : t.Stretch lo hi) :
    (t.tops lo hi).flatMap t.subtree = List.range' lo (hi - lo) := by
  induction lo, hs using h.stretch_induction with
  | done lo hs hle =>
    rw [tops, Nat.sub_eq_zero_of_le hle]
    rfl
  | step lo _ hlo hle _ hjump =>
    have e1 : hi - lo = (t.stop lo - lo) + (hi - t.stop lo) := by omega
    have e2 : lo + (t.stop lo - lo) = t.stop lo := by omega
    rw [tops_cons hlo hle rfl, List.flatMap_cons, hjump, subtree, e1, ← List.range'_append_1, e2]

/-! ## what the parents say -/

theorem Layout.lt_of_hasParent {n p : Nat} (hp : t.HasParent n p) :
    p < n ∧ n < t.stop p ∧ t.stop n ≤ t.stop p ∧ p < t.size ∧ n < t.size ∧
      ∀ q : Nat, q < n → n < t.stop q → q ≤ p := by
  obtain ⟨m, hm, hmp⟩ := hp
  have hn := lt_size_of_node? hm
  cases n with
  | zero =>
    obtain ⟨m', hm', _, hnone, _⟩ := h.root
    obtain rfl := Option.some.inj (hm'.symm.trans hm)
    rw [hnone] at hmp
    cases hmp
  | succ n =>
    obtain ⟨q, m', rule, hq, hm', hrule, hlt, hstop, hle, hinner⟩ := h.parent _ m hm (Nat.succ_pos n)
    obtain rfl : p = q := Option.some.inj (hmp.symm.trans hq)
    exact ⟨hlt, by omega, hle, lt_size_of_node? hm', hn, fun q h1 h2 => (hinner q h1 h2).1⟩

theorem Layout.exists_parent {n : Nat} (hn : n < t.size) (hpos : 0 < n) : ∃ p, t.HasParent n p := by
  obtain ⟨p, _, _, hp, _⟩ := h.parent n _ (Array.getElem?_eq_getElem hn) hpos
  exact ⟨p, _, Array.getElem?_eq_getElem hn, hp⟩

/-- a subtree has the nodes from which one comes to its first node -/
theorem Layout.descends_iff {p n : Nat} (hp : p < t.size) :
    t.Descends n p ↔ p ≤ n ∧ n < t.stop p := by
  constructor
  · intro hd
    induction hd using Relation.ReflTransGen.head_induction_on with
    | refl => exact ⟨Nat.le_refl p, h.lt_stop hp⟩
    | head hq _ ih =>
      obtain ⟨h1, h2, h3, h4, h5, _⟩ := h.lt_of_hasParent hq
      have hle := h.stop_le ih.1 ih.2 h4
      exact ⟨by omega, by omega⟩
  · induction n using Nat.strongRecOn with
    | _ n ih =>
      rintro ⟨hle, hlt⟩
      rcases Nat.eq_or_lt_of_le hle with rfl | hpn
      · exact .refl
      · have hsize := h.stop_le_size hp
        obtain ⟨q, hq⟩ := h.exists_parent (Nat.lt_of_lt_of_le hlt hsize) (by omega)
        obtain ⟨h1, _, _, _, _, hinner⟩ := h.lt_of_hasParent hq
        exact .head hq (ih q h1 ⟨hinner p hpn hlt, by omega⟩)

theorem Layout.mem_subtree {p n : Nat} (hp : p < t.size) : n ∈ t.subtree p ↔ t.Descends n p :=
  Tree.mem_subtree.trans (h.descends_iff hp).symm

theorem Layout.mem_children {p n : Nat} (hp : p < t.size) :
    n ∈ t.children p ↔ t.HasParent n p := by
  rw [children, descendants, siblings_eq_outermostOf,
    h.mem_outermostOf ((h.stretch hp).mono (Nat.le_succ p))]
  constructor
  · rintro ⟨h1, h2, _, hmax⟩
    have hsize := h.stop_le_size hp
    obtain ⟨q, hq⟩ := h.exists_parent (Nat.lt_of_lt_of_le h2 hsize) (by omega)
    obtain ⟨h3, h4, _, _, _, hinner⟩ := h.lt_of_hasParent hq
    -- a parent other than `p` would be a node of the stretch around `n`
    have hpq := hinner p h1 h2
    rcases Nat.eq_or_lt_of_le hpq with rfl | hlt
    · exact hq
    · exact absurd trivial (hmax q hlt h3 h4)
  · intro hq
    obtain ⟨h1, h2, _, _, _, hinner⟩ := h.lt_of_hasParent hq
    refine ⟨h1, h2, trivial, fun a h3 h4 h5 => ?_⟩
    have hle := hinner a h4 h5
    omega

theorem Layout.subtree_eq {p : Nat} (hp : p < t.size) :
    t.subtree p = p :: (t.children p).flatMap t.subtree := by
  have hlt := h.lt_stop hp
  have hrest := h.flatMap_tops ((h.stretch hp).mono (Nat.le_succ p))
  have e : t.stop p - p = t.stop p - (p + 1) + 1 := by omega
  rw [children_eq_tops, hrest, subtree, e, List.range'_succ]

end

/-! ## tokens and literals -/

theorem isTerminal_iff {t : Tree} {id : NodeId} : t.isTerminal id = true ↔
    ∃ m, t.node? id = some m ∧ ((∃ mask, m.kind = .token mask) ∨ m.kind = .literal) := by
  unfold isTerminal
  cases t.node? id with
  | none => simp
  | some m =>
    unfold Node.isTerminal
    cases hkind : m.kind <;> simp [hkind]

/-! ## all walks -/

/-- the walks find what the parents of the nodes say, each node once and in the order of the row -/
structure FollowsParents (t : Tree) : Prop where
  children : ∀ p n, p < t.size → (n ∈ t.children p ↔ t.HasParent n p)
  subtree : ∀ p n, p < t.size → (n ∈ t.subtree p ↔ t.Descends n p)
  terminals : ∀ p n, p < t.size → (n ∈ t.terminals p ↔ t.Descends n p ∧
    ∃ m, t.node? n = some m ∧ ((∃ mask, m.kind = .token mask) ∨ m.kind = .literal))
  increasing : ∀ p, (t.children p).Pairwise (· < ·) ∧ (t.subtree p).Pairwise (· < ·) ∧
    (t.terminals p).Pairwise (· < ·)
  /-- tokens and literals lie side by side, from where the node's tokens begin to where they end -/
  adjoin : ∀ p m, t.node? p = some m → t.Adjoin m.tokens.start (t.terminals p) m.tokens.stop
  split : ∀ p, p < t.size → t.subtree p = p :: (t.children p).flatMap t.subtree
  outside : ∀ p, t.size ≤ p → t.children p = [] ∧ t.subtree p = [] ∧ t.terminals p = []

theorem Grown.followsParents {x : Lexed} {start : RuleId} {t : Tree} (h : t.Grown x start) :
    t.FollowsParents where
  children _ _ hp := h.layout.mem_children hp
  subtree _ _ hp := h.layout.mem_subtree hp
  terminals p n hp := by
    rw [terminals, List.mem_filter, h.layout.mem_subtree hp, isTerminal_iff]
  increasing p := by
    have hsubtree : (t.subtree p).Pairwise (· < ·) := List.pairwise_lt_range' 1
    refine ⟨?_, hsubtree, hsubtree.filter _⟩
    rw [children, siblings_eq_outermostOf]
    exact pairwise_outermostOf _ _
  adjoin _ _ hm := h.adjoin_terminals hm
  split _ hp := h.layout.subtree_eq hp
  outside p hp := by
    have hnone : t.node? p = none := Array.getElem?_eq_none hp
    have hsubtree := subtree_of_none hnone
    exact ⟨children_of_none hnone, hsubtree, by rw [terminals, hsubtree, List.filter_nil]⟩

end Tree

namespace Parser

/-- in the tree of an accepted source, children, subtrees, tokens and literals are what the parents
say -/
theorem parse_follows_parents (p : Parser) (start : RuleId) {root : NodeId}
    (h : (p.parse start).2 = .accepted root) : (p.parse start).1.tree.FollowsParents :=
  (parse_grown p start h).followsParents

open Grammar in
/-- `s = t u`, `t = "a" t ?` and `u = ""` over `aa`: one match of `t` lies below another, and the
node of `u` covers nothing -/
theorem parse_follows_parents_nested :
    let g := Grammar.build [.rule "s", .rule "t", .rule "u", .concatenation, .reference 1 .one,
      .reference 2 .one, .attach 3 4, .attach 3 5, .attach 0 3, .concatenation, .literal "a" .one,
      .reference 1 .optional, .attach 6 7, .attach 6 8, .attach 1 6, .literal "" .one, .attach 2 9]
    let p : Parser := { source := .ofText "aa" "input" 0 {}, grammar := g }
    let t := (p.parse 0).1.tree
    (p.parse 0).2 = .accepted Tree.rootId ∧ t.FollowsParents ∧
      t.children 0 = [1, 5] ∧ t.subtree 1 = [1, 2, 3, 4] ∧ t.terminals 0 = [2, 4, 6] := by
  intro g p t
  have hv : (p.parse 0).2 = .accepted Tree.rootId := by decide +kernel
  exact ⟨hv, parse_follows_parents p 0 hv, by decide +kernel⟩

end Parser

end Ebnf
