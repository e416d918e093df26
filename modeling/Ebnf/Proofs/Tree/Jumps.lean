import Ebnf.Tree.Walk

/-!
# Walks that jump over subtrees

The walk over the nodes right below a node and the search for the matches of a rule are one walk, and
only the nodes that it keeps differ.

* `outermostOf`          the walk that jumps over the subtrees of the nodes it keeps;
* `siblings_eq_outermostOf`, `outermost_eq_outermostOf`   both walks are such walks;
* `outermostOf_range'`   the next step of a walk along a stretch of the row.
-/

namespace Ebnf.Tree

/-- of `ids`, once the first `skip` are passed over, the nodes to keep that no earlier one of them
has below it -/
def outermostOf (t : Tree) (keep : NodeId → Prop) [DecidablePred keep] :
    (skip : Nat) → (ids : List NodeId) → List NodeId
  | _, [] => []
  | skip + 1, _ :: ids => t.outermostOf keep skip ids
  | 0, id :: ids =>
    if keep id then id :: t.outermostOf keep (t.descendants id) ids else t.outermostOf keep 0 ids

theorem siblings_eq_outermostOf (t : Tree) (skip : Nat) (ids : List NodeId) :
    t.siblings skip ids = t.outermostOf (fun _ => True) skip ids := by
  induction ids generalizing skip with
  | nil => cases skip <;> rfl
  | cons id ids ih =>
    cases skip with
    | zero =>
      rw [siblings, outermostOf, if_pos trivial, ih]
    | succ skip => exact ih skip

theorem outermost_eq_outermostOf (t : Tree) (rule : RuleId) (skip : Nat) (ids : List NodeId) :
    t.outermost rule skip ids = t.outermostOf (fun n => t.ruleOf n = some rule) skip ids := by
  induction ids generalizing skip with
  | nil => cases skip <;> rfl
  | cons id ids ih =>
    cases skip with
    | zero => rw [outermost, outermostOf, ih, ih]
    | succ skip => exact ih skip

section
variable {t : Tree} {keep : NodeId → Prop} [DecidablePred keep]

theorem outermostOf_sublist (skip : Nat) (ids : List NodeId) :
    List.Sublist (t.outermostOf keep skip ids) ids := by
  induction ids generalizing skip with
  | nil => cases skip <;> exact List.Sublist.refl _
  | cons id ids ih =>
    cases skip with
    | zero =>
      rw [outermostOf]
      split
      · exact (ih _).cons_cons id
      · exact (ih 0).cons id
    | succ skip => exact (ih skip).cons id

theorem pairwise_outermostOf (lo n : Nat) :
    (t.outermostOf keep 0 (List.range' lo n)).Pairwise (· < ·) :=
  (List.pairwise_lt_range' 1).sublist (outermostOf_sublist 0 _)

theorem outermostOf_eq_drop (skip : Nat) (ids : List NodeId) :
    t.outermostOf keep skip ids = t.outermostOf keep 0 (ids.drop skip) := by
  induction ids generalizing skip with
  | nil => cases skip <;> rfl
  | cons id ids ih =>
    cases skip with
    | zero => rfl
    | succ skip => exact ih skip

end

/-! ## steps along a stretch of the row -/

section
variable {t : Tree} {lo mid hi : Nat}

/-- the nodes behind `lo` are those of the subtree of `lo`, and those behind it -/
theorem range'_split (h : lo < mid) (h' : mid ≤ hi) :
    List.range' lo (hi - lo) =
      lo :: (List.range' (lo + 1) (mid - (lo + 1)) ++ List.range' mid (hi - mid)) := by
  have e1 : hi - lo = (mid - (lo + 1)) + (hi - mid) + 1 := by omega
  have e2 : lo + 1 + (mid - (lo + 1)) = mid := by omega
  rw [e1, List.range'_succ, ← List.range'_append_1, e2]

/-- a walk jumps to the end of the first node's subtree if it keeps that node, else it goes one
step -/
theorem outermostOf_range' {keep : NodeId → Prop} [DecidablePred keep] (h : lo < t.stop lo)
    (h' : t.stop lo ≤ hi) :
    t.outermostOf keep 0 (List.range' lo (hi - lo)) =
      if keep lo then lo :: t.outermostOf keep 0 (List.range' (t.stop lo) (hi - t.stop lo))
      else t.outermostOf keep 0 (List.range' (lo + 1) (hi - (lo + 1))) := by
  have hnext : hi - lo = hi - (lo + 1) + 1 := by omega
  have hsplit := range'_split h h'
  rw [hnext, List.range'_succ] at hsplit
  rw [hnext, List.range'_succ, outermostOf, outermostOf_eq_drop, (List.cons.inj hsplit).2, descendants,
    List.drop_left' List.length_range']

theorem siblings_range' (h : lo < mid) (h' : mid ≤ hi) (hstop : t.stop lo = mid) :
    t.siblings 0 (List.range' lo (hi - lo)) =
      lo :: t.siblings 0 (List.range' mid (hi - mid)) := by
  subst hstop
  rw [siblings_eq_outermostOf, outermostOf_range' h h', if_pos trivial, siblings_eq_outermostOf]

theorem outermost_range' {rule : RuleId} (h : lo < mid) (h' : mid ≤ hi) (hstop : t.stop lo = mid) :
    t.outermost rule 0 (List.range' lo (hi - lo)) =
      if t.ruleOf lo = some rule then
        lo :: t.outermost rule 0 (List.range' mid (hi - mid))
      else t.outermost rule 0 (List.range' (lo + 1) (hi - (lo + 1))) := by
  subst hstop
  rw [outermost_eq_outermostOf, outermostOf_range' h h', ← outermost_eq_outermostOf,
    ← outermost_eq_outermostOf]

end

end Ebnf.Tree
