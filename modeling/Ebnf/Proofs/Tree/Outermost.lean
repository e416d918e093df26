import Mathlib.Logic.ExistsUnique
import Ebnf.Proofs.Tree.Descent

/-!
# Outermost matches of a rule

A search for the matches of a rule below a node passes over what lies below a match.  In a row that is
laid out it loses none for that: each match that is passed over lies below just one that is found.

* `IsMatch`                 a node is the node of a rule;
* `Layout.mem_rules_iff`    found are the matches below a node that lie below no other one of these;
* `Layout.exists_mem_rules` every match lies below one that is found;
* `Layout.eq_of_mem_rules`  and not below two;
* `rule?_eq_head?`          the first match is the first one that is found;
* `FindsOutermost`          all of that for a tree;
* `parse_finds_outermost`   it holds of the tree of an accepted source.
-/

namespace Ebnf

namespace Tree

def IsMatch (t : Tree) (rule : RuleId) (n : NodeId) : Prop :=
  ∃ m, t.node? n = some m ∧ m.kind = .rule rule

/-- what the searches for the matches of a rule below a node find -/
structure FindsOutermost (t : Tree) : Prop where
  increasing : ∀ p rule, (t.rules p rule).Pairwise (· < ·)
  /-- the matches below the node that have no other match above them, up to the node -/
  mem : ∀ p rule n, n ∈ t.rules p rule ↔ t.Descends n p ∧ t.IsMatch rule n ∧
    ∀ a, a ≠ n → t.Descends n a → t.Descends a p → ¬ t.IsMatch rule a
  /-- every match lies below just one that is found -/
  unique : ∀ p rule n, t.Descends n p → t.IsMatch rule n →
    ∃! m, m ∈ t.rules p rule ∧ n ∈ t.subtree m
  first : ∀ p rule, t.rule? p rule = (t.rules p rule).head?
  outside : ∀ p rule, t.size ≤ p → t.rules p rule = [] ∧ t.rule? p rule = none

section
variable {t : Tree} {rule : RuleId} {n : NodeId}

theorem ruleOf_eq_some_iff : t.ruleOf n = some rule ↔ t.IsMatch rule n := by
  unfold ruleOf IsMatch
  cases t.node? n with
  | none => simp
  | some m =>
    unfold Node.rule?
    cases hkind : m.kind <;> simp [hkind]

theorem IsMatch.lt_size (h : t.IsMatch rule n) : n < t.size := by
  obtain ⟨m, hm, _⟩ := h
  exact lt_size_of_node? hm

theorem head?_outermostOf (keep : NodeId → Prop) [DecidablePred keep] (ids : List NodeId) :
    (t.outermostOf keep 0 ids).head? = ids.find? keep := by
  induction ids with
  | nil => rfl
  | cons id ids ih =>
    rw [outermostOf, List.find?_cons]
    by_cases hk : keep id
    · simp [hk]
    · simp [hk, ih]

theorem rules_eq_outermostOf (t : Tree) (p : NodeId) (rule : RuleId) : t.rules p rule =
    t.outermostOf (fun n => t.ruleOf n = some rule) 0 (List.range' p (t.stop p - p)) :=
  outermost_eq_outermostOf t rule 0 _

theorem rule?_eq_head? (t : Tree) (p : NodeId) (rule : RuleId) :
    t.rule? p rule = (t.rules p rule).head? := by
  rw [rules_eq_outermostOf, head?_outermostOf]
  rfl

end

section
variable {start : RuleId} {t : Tree} (h : t.Layout start) {p n : Nat} {rule : RuleId}
include h

theorem Layout.le_of_descends {a : Nat} (hd : t.Descends n a) : a ≤ n := by
  induction hd with
  | refl => exact Nat.le_refl n
  | tail _ hp ih =>
    have hlt := (h.lt_of_hasParent hp).1
    omega

/-- found are the matches below the node that have no other match above them, up to the node -/
theorem Layout.mem_rules_iff : n ∈ t.rules p rule ↔ t.Descends n p ∧ t.IsMatch rule n ∧
    ∀ a, a ≠ n → t.Descends n a → t.Descends a p → ¬ t.IsMatch rule a := by
  by_cases hp : p < t.size
  · rw [rules_eq_outermostOf, h.mem_outermostOf (h.stretch hp), ← and_assoc, ← h.descends_iff hp]
    simp only [ruleOf_eq_some_iff]
    refine and_congr_right fun hd => and_congr_right fun _ => ⟨fun hmax a hne hna hap hm => ?_,
      fun hmax a h1 h2 h3 hm => ?_⟩
    · obtain ⟨h1, h2⟩ := (h.descends_iff hm.lt_size).mp hna
      exact hmax a (h.le_of_descends hap) (Nat.lt_of_le_of_ne h1 hne) h2 hm
    · have hlt := ((h.descends_iff hp).mp hd).2
      refine hmax a (Nat.ne_of_lt h2) ((h.descends_iff hm.lt_size).mpr ⟨Nat.le_of_lt h2, h3⟩)
        ((h.descends_iff hp).mpr ⟨h1, by omega⟩) hm
  · -- nothing comes up to a node that is not there
    rw [rules, subtree_of_none (Array.getElem?_eq_none (Nat.le_of_not_lt hp))]
    refine iff_of_false List.not_mem_nil fun ⟨hd, hm, _⟩ => hp ?_
    exact Nat.lt_of_le_of_lt (h.le_of_descends hd) hm.lt_size

/-- every match lies below one that is found: the topmost match above it -/
theorem Layout.exists_mem_rules (hd : t.Descends n p) (hm : t.IsMatch rule n) :
    ∃ m, m ∈ t.rules p rule ∧ t.Descends n m := by
  induction n using Nat.strongRecOn with
  | _ n ih =>
    by_cases hmem : n ∈ t.rules p rule
    · exact ⟨n, hmem, .refl⟩
    · obtain ⟨a, hne, hna, hap, ha⟩ : ∃ a, a ≠ n ∧ t.Descends n a ∧ t.Descends a p ∧
          t.IsMatch rule a := by
        rw [h.mem_rules_iff] at hmem
        push Not at hmem
        exact hmem hd hm
      have hlt : a < n := Nat.lt_of_le_of_ne (h.le_of_descends hna) hne
      obtain ⟨m, hmr, ham⟩ := ih a hlt hap ha
      exact ⟨m, hmr, hna.trans ham⟩

theorem Layout.eq_of_mem_rules {m m' : Nat} (hm : m ∈ t.rules p rule) (hm' : m' ∈ t.rules p rule)
    (hn : t.Descends n m) (hn' : t.Descends n m') : m = m' := by
  wlog hle : m ≤ m' generalizing m m'
  · exact (this hm' hm hn' hn (by omega)).symm
  obtain ⟨hmp, hmatch, _⟩ := h.mem_rules_iff.mp hm
  obtain ⟨_, hmatch', hmax⟩ := h.mem_rules_iff.mp hm'
  -- the later one begins before the subtree of the earlier one ends
  have hlt := ((h.descends_iff hmatch.lt_size).mp hn).2
  have hle' := h.le_of_descends hn'
  have hbelow : t.Descends m' m := (h.descends_iff hmatch.lt_size).mpr ⟨hle, by omega⟩
  by_contra hne
  exact hmax m hne hbelow hmp hmatch

theorem Layout.findsOutermost : t.FindsOutermost where
  increasing p rule := by
    rw [rules_eq_outermostOf]
    exact pairwise_outermostOf _ _
  mem _ _ _ := h.mem_rules_iff
  unique p rule n hd hm := by
    have hsubtree : ∀ m, m ∈ t.rules p rule → (n ∈ t.subtree m ↔ t.Descends n m) :=
      fun m hmr => h.mem_subtree (h.mem_rules_iff.mp hmr).2.1.lt_size
    obtain ⟨m, hmr, hnm⟩ := h.exists_mem_rules hd hm
    refine ⟨m, ⟨hmr, (hsubtree m hmr).mpr hnm⟩, fun m' ⟨hmr', hnm'⟩ => ?_⟩
    exact h.eq_of_mem_rules hmr' hmr ((hsubtree m' hmr').mp hnm') hnm
  first := rule?_eq_head? t
  outside p rule hp := by
    have hnone := subtree_of_none (Array.getElem?_eq_none hp : t.node? p = none)
    exact ⟨by rw [rules, hnone]; rfl, by rw [rule?, hnone]; rfl⟩

end

end Tree

namespace Parser

/-- in the tree of an accepted source the search for the matches of a rule finds the outermost ones,
and the search for the first match the first of these -/
theorem parse_finds_outermost (p : Parser) (start : RuleId) {root : NodeId}
    (h : (p.parse start).2 = .accepted root) : (p.parse start).1.tree.FindsOutermost :=
  (parse_grown p start h).layout.findsOutermost

open Grammar in
/-- `s = t *` and `t = "(" t * ")"` over `(())()`: of three matches of `t` the inner one is passed
over -/
theorem parse_finds_outermost_nested :
    let g := Grammar.build [.rule "s", .rule "t", .reference 1 .star, .attach 0 2,
      .concatenation, .literal "(" .one, .literal ")" .one, .attach 3 4, .attach 3 2, .attach 3 5,
      .attach 1 3]
    let p : Parser := { source := .ofText "(())()" "input" 0 {}, grammar := g }
    let t := (p.parse 0).1.tree
    (p.parse 0).2 = .accepted Tree.rootId ∧ t.FindsOutermost ∧ t.rules 0 1 = [1, 7] ∧
      t.rules 2 1 = [] ∧ t.rule? 3 1 = some 3 := by
  intro g p t
  have hv : (p.parse 0).2 = .accepted Tree.rootId := by decide +kernel
  exact ⟨hv, parse_finds_outermost p 0 hv, by decide +kernel⟩

end Parser

end Ebnf
