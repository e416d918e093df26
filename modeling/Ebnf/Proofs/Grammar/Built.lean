import Mathlib.Logic.Relation
import Ebnf.Grammar.Build

/-!
# Grammars that are built by calls

Only a node that is there and is no rule is ever hung below another one, and nodes stay what they
are.

* `IsTerm`          an id of a node that is no rule;
* `Node.hung`       what hangs below a node: the production of a rule, the children of a term;
* `WellFormed`      all that hangs below a node is a term;
* `attach_cases`, `below_cases`   what hanging a node below another one does;
* `build_wellFormed`   every grammar that is built by calls is well-formed;
* `InProduction`    the terms that a production is made of, down to its leaves.
-/

namespace Ebnf.Grammar

def IsTerm (g : Grammar) (t : TermId) : Prop := ∃ n, g.node? t = some n ∧ n.isRule = false

def Node.hung : Node → List TermId
  | .rule _ production => production.toList
  | n => n.children

/-- all that hangs below a node is there and is no rule -/
def WellFormed (g : Grammar) : Prop :=
  ∀ t n, g.node? t = some n → ∀ u ∈ n.hung, g.IsTerm u

variable {g g' : Grammar} {parent child t u : TermId} {n n' : Node}

theorem WellFormed.isTerm_production (h : g.WellFormed) {rule : RuleId}
    (hp : g.production? rule = some u) : g.IsTerm u := by
  obtain ⟨name, hn⟩ := production?_eq_some_iff.mp hp
  exact h rule _ hn u (List.mem_singleton.mpr rfl)

theorem Node.mem_hung (hu : u ∈ n.children) : u ∈ n.hung := by
  cases n with
  | rule => cases hu
  | _ => exact hu

theorem WellFormed.isTerm_child (h : g.WellFormed) (hu : u ∈ g.children t) : g.IsTerm u := by
  unfold children at hu
  split at hu
  · rename_i n hn
    exact h t n hn u (Node.mem_hung hu)
  · cases hu

/-! ## appending nodes -/

theorem IsTerm.add (h : g.IsTerm t) (n : Node) : (g.add n).1.IsTerm t := by
  obtain ⟨m, hm, hr⟩ := h
  have hlt : t < g.size := lt_size_of_node? hm
  refine ⟨m, ?_, hr⟩
  rw [node?_add, if_neg (Nat.ne_of_lt hlt)]
  exact hm

theorem WellFormed.add (h : g.WellFormed) (hn : n.hung = []) : (g.add n).1.WellFormed := by
  intro t m hm u hu
  rw [node?_add] at hm
  split at hm
  · obtain rfl := Option.some.inj hm
    rw [hn] at hu
    cases hu
  · exact (h t m hm u hu).add n

theorem WellFormed.intern (h : g.WellFormed) (s : String) : (g.intern s).1.WellFormed := h

/-! ## hanging nodes below others -/

theorem node?_set {i : TermId} (hn : g.node? parent = some n) (m : Node) :
    ({ g with nodes := g.nodes.setIfInBounds parent m } : Grammar).node? i =
      if parent = i then some m else g.node? i := by
  have hlt : parent < g.nodes.size := lt_size_of_node? hn
  show (g.nodes.setIfInBounds parent m)[i]? = _
  rw [Array.getElem?_setIfInBounds]
  by_cases he : parent = i
  · rw [if_pos he, if_pos he, if_pos hlt]
  · rw [if_neg he, if_neg he]
    rfl

/-- a node stays what it is and gets one more node below it -/
theorem below_cases (h : g.below parent child n = .ok n') :
    n'.isRule = n.isRule ∧ n'.hung = n.hung ++ [child] := by
  cases n with
  | rule name production =>
    cases production with
    | none =>
      cases h
      exact ⟨rfl, rfl⟩
    | some p => cases h
  | reference => cases h
  | token => cases h
  | literal => cases h
  | alternation ts =>
    cases h
    exact ⟨rfl, rfl⟩
  | concatenation ts =>
    cases h
    exact ⟨rfl, rfl⟩
  | group ts o =>
    cases h
    exact ⟨rfl, rfl⟩

/-- only a term is hung below a node, and only that node changes -/
theorem attach_cases (h : g.attach parent child = .ok g') :
    g.IsTerm child ∧ ∃ n n', g.node? parent = some n ∧ g.below parent child n = .ok n' ∧
      g' = { g with nodes := g.nodes.setIfInBounds parent n' } := by
  unfold attach at h
  split at h
  · cases h
  · cases h
  · rename_i m hrule hm
    have hterm : g.IsTerm child := by
      refine ⟨m, hm, ?_⟩
      cases m with
      | rule name production => exact absurd rfl (hrule name production)
      | _ => rfl
    split at h
    · cases h
    · rename_i n hn
      cases hb : g.below parent child n with
      | error why =>
        rw [hb] at h
        cases h
      | ok n' =>
        rw [hb] at h
        exact ⟨hterm, n, n', hn, hb, (Except.ok.inj h).symm⟩

theorem IsTerm.attach (ht : g.IsTerm t) (ha : g.attach parent child = .ok g') : g'.IsTerm t := by
  obtain ⟨_, n, n', hn, hb, rfl⟩ := attach_cases ha
  obtain ⟨m, hm, hr⟩ := ht
  by_cases he : parent = t
  · obtain rfl : n = m := Option.some.inj (hn.symm.trans (he ▸ hm))
    exact ⟨n', by rw [node?_set hn, if_pos he], (below_cases hb).1.trans hr⟩
  · exact ⟨m, by rw [node?_set hn, if_neg he]; exact hm, hr⟩

theorem WellFormed.attach (h : g.WellFormed) (ha : g.attach parent child = .ok g') :
    g'.WellFormed := by
  have hterm : ∀ u, g.IsTerm u → g'.IsTerm u := fun u hu => hu.attach ha
  obtain ⟨hchild, n, n', hn, hb, rfl⟩ := attach_cases ha
  intro t m hm u hu
  rw [node?_set hn] at hm
  split at hm
  · obtain rfl := Option.some.inj hm
    rw [(below_cases hb).2] at hu
    rcases List.mem_append.mp hu with hu | hu
    · exact hterm u (h parent n hn u hu)
    · obtain rfl := List.mem_singleton.mp hu
      exact hterm u hchild
  · exact hterm u (h t m hm u hu)

/-! ## runs of calls -/

theorem WellFormed.step (h : g.WellFormed) (s : Step) : (g.step s).1.WellFormed := by
  cases s with
  | rule name => exact (h.intern name).add rfl
  | reference target o => exact h.add rfl
  | token m o => exact h.add rfl
  | literal text o => exact (h.intern text).add rfl
  | alternation => exact h.add rfl
  | concatenation => exact h.add rfl
  | group o => exact h.add rfl
  | attach parent child =>
    simp only [Grammar.step]
    cases ha : g.attach parent child with
    | ok g' => exact h.attach ha
    | error why => exact h

theorem IsTerm.step (h : g.IsTerm t) (s : Step) : (g.step s).1.IsTerm t := by
  cases s with
  | attach parent child =>
    simp only [Grammar.step]
    cases ha : g.attach parent child with
    | ok g' => exact h.attach ha
    | error why => exact h
  | rule name => exact IsTerm.add (g := (g.intern name).1) h _
  | literal text o => exact IsTerm.add (g := (g.intern text).1) h _
  | _ => exact h.add _

theorem IsTerm.run (h : g.IsTerm t) (steps : List Step) : (g.run steps).1.IsTerm t := by
  induction steps generalizing g with
  | nil => exact h
  | cons s rest ih =>
    rw [run_cons]
    exact ih (h.step s)

theorem IsTerm.build_append {steps : List Step} (h : (build steps).IsTerm t) (later : List Step) :
    (build (steps ++ later)).IsTerm t := by
  rw [build, run_append]
  exact h.run later

theorem WellFormed.run (h : g.WellFormed) (steps : List Step) : (g.run steps).1.WellFormed := by
  induction steps generalizing g with
  | nil => exact h
  | cons s rest ih =>
    rw [run_cons]
    exact ih (h.step s)

theorem build_wellFormed (steps : List Step) : (build steps).WellFormed := by
  refine WellFormed.run (fun t n hn => ?_) steps
  exact absurd (lt_size_of_node? hn) (Nat.not_lt_zero t)

/-! ## what a production is made of -/

/-- the term lies in the production of the rule: it is the production, or a child, or a child of a
child, and so on; references are not followed -/
def InProduction (g : Grammar) (rule : RuleId) (t : TermId) : Prop :=
  ∃ p, g.production? rule = some p ∧ Relation.ReflTransGen (fun a b => b ∈ g.children a) p t

theorem inProduction_of_production {rule : RuleId} (hp : g.production? rule = some t) :
    g.InProduction rule t := ⟨t, hp, .refl⟩

theorem InProduction.of_mem {rule : RuleId} (h : g.InProduction rule t) (hu : u ∈ g.children t) :
    g.InProduction rule u := by
  obtain ⟨p, hp, hpath⟩ := h
  exact ⟨p, hp, hpath.tail hu⟩

theorem InProduction.of_node {rule : RuleId} (h : g.InProduction rule t)
    (hn : g.node? t = some n) (hu : u ∈ n.children) : g.InProduction rule u := by
  refine h.of_mem ?_
  unfold children
  rw [hn]
  exact hu

theorem WellFormed.isTerm (h : g.WellFormed) {rule : RuleId} (ht : g.InProduction rule t) :
    g.IsTerm t := by
  obtain ⟨p, hp, hpath⟩ := ht
  cases hpath with
  | refl => exact h.isTerm_production hp
  | tail _ hu => exact h.isTerm_child hu

end Ebnf.Grammar
