import Ebnf.Matching.Run
import Ebnf.Proofs.Matching.Bound

/-!
# Two runs side by side

Two runs over the same source may begin at different depths, with different things said before, and
match different grammars.  They do the same as long as what they try does, until the one that lies
deeper meets the limit.

* `Base`               the depth of a run and what was said before it;
* `State.Shallower`     the same state, but for a level that may be less deep;
* `Attempt.Follows`     an attempt ends as another one does, unless that one meets the limit;
* `follows_inOrder`, `follows_atomic`, ...   so do the combinators, if what they try does;
* `follows_nested_right`   also where just the one goes a level deeper.

The attempt on the left is always the one that lies less deep.  None of this asks whether the runs come
to an end.
-/

namespace Ebnf.Matching

def Setting.withGrammar (c : Setting) (g : Grammar) : Setting := { c with grammar := g }

/-- where a run stands: how deep, and what had been said before it began -/
structure Base where
  depth : Nat
  before : Array Event

def Base.deeper (d : Base) : Base := { d with depth := d.depth + 1 }

/-- `s` is at the level `d` and `u` at the level `e`, which is no higher.  Since the two runs began they
have said the same, and they stand at the same place with the same tree, rule and failure -/
structure State.Shallower (d e : Base) (s u : State) : Prop where
  le : d.depth ≤ e.depth
  depth : u.depth = e.depth
  same : ∃ peak log, s = { u with depth := d.depth, peak, log }
  said : ∃ es, s.log.toList = d.before.toList ++ es ∧ u.log.toList = e.before.toList ++ es

/-- the attempt `r` ends as `r'` does, unless that one meets the limit -/
inductive Attempt.Follows (d e : Base) : (r r' : Attempt) → Prop where
  | matched {s u} (h : s.Shallower d e u) : Follows d e (.matched s) (.matched u)
  | stopped {why s u} (h : s.Shallower d e u) : Follows d e (.stopped why s) (.stopped why u)
  | limited {r u} : Follows d e r (.stopped .limit u)

section
variable {d e d' e' : Base} {s u : State} {r r' : Attempt}

/-! ## states -/

theorem shallower_first (start : RuleId) (log log' : Array Event) :
    (State.first start log).Shallower ⟨0, log⟩ ⟨0, log'⟩ (.first start log') where
  le := Nat.le_refl _
  depth := rfl
  same := ⟨_, log, rfl⟩
  said := ⟨[], (List.append_nil _).symm, (List.append_nil _).symm⟩

theorem State.Shallower.mark (h : s.Shallower d e u) : s.mark = u.mark := by
  obtain ⟨peak, log, rfl⟩ := h.same
  rfl

theorem State.Shallower.pos (h : s.Shallower d e u) : s.pos = u.pos := congrArg Mark.pos h.mark

theorem State.Shallower.parent (h : s.Shallower d e u) : s.parent = u.parent := by
  obtain ⟨peak, log, rfl⟩ := h.same
  rfl

theorem State.Shallower.rule (h : s.Shallower d e u) : s.rule = u.rule := by
  obtain ⟨peak, log, rfl⟩ := h.same
  rfl

theorem State.Shallower.failure (h : s.Shallower d e u) : s.failure = u.failure := by
  obtain ⟨peak, log, rfl⟩ := h.same
  rfl

theorem State.Shallower.depth_left (h : s.Shallower d e u) : s.depth = d.depth := by
  obtain ⟨peak, log, rfl⟩ := h.same
  rfl

theorem State.Shallower.change (h : s.Shallower d e u) (f : State → State)
    (hf : ∀ u peak log, ∃ peak', f { u with depth := d.depth, peak, log } =
      { f u with depth := d.depth, peak := peak', log := log })
    (hu : (f u).depth = u.depth ∧ (f u).log = u.log) : (f s).Shallower d e (f u) := by
  obtain ⟨hle, hdepth, ⟨peak, log, rfl⟩, es, hs, hes⟩ := h
  obtain ⟨peak', hf⟩ := hf u peak log
  exact ⟨hle, hu.1.trans hdepth, ⟨peak', log, hf⟩, es, by rw [hf]; exact hs, by rw [hu.2]; exact hes⟩

theorem State.Shallower.say (h : s.Shallower d e u) (event : Event) :
    (s.say event).Shallower d e (u.say event) := by
  obtain ⟨hle, hdepth, ⟨peak, log, rfl⟩, es, hs, hu⟩ := h
  refine ⟨hle, hdepth, ⟨peak, log.push event, rfl⟩, es ++ [event], ?_, ?_⟩
  · show (log.push event).toList = _
    rw [Array.toList_push, ← List.append_assoc, ← hs]
  · show (u.log.push event).toList = _
    rw [Array.toList_push, ← List.append_assoc, ← hu]

theorem State.Shallower.withRule (h : s.Shallower d e u) (rule : RuleId) :
    (s.withRule rule).Shallower d e (u.withRule rule) :=
  h.change (fun s => s.withRule rule) (fun _ _ _ => ⟨_, rfl⟩) ⟨rfl, rfl⟩

theorem State.Shallower.withParent (h : s.Shallower d e u) (parent : NodeId) :
    (s.withParent parent).Shallower d e (u.withParent parent) :=
  h.change (fun s => s.withParent parent) (fun _ _ _ => ⟨_, rfl⟩) ⟨rfl, rfl⟩

theorem State.Shallower.reset (h : s.Shallower d e u) (m : Mark) :
    (s.reset m).Shallower d e (u.reset m) :=
  h.change (fun s => s.reset m) (fun _ _ _ => ⟨_, rfl⟩) ⟨rfl, rfl⟩

theorem State.Shallower.opened (h : s.Shallower d e u) (rule : RuleId) (term : Option TermId)
    (parent : Option NodeId) :
    (s.opened rule term parent).Shallower d e (u.opened rule term parent) :=
  h.change (fun s => s.opened rule term parent) (fun _ _ _ => ⟨_, rfl⟩) ⟨rfl, rfl⟩

theorem State.Shallower.closed (h : s.Shallower d e u) (c : Setting) (id : NodeId) (start : Nat) :
    (s.closed c id start).Shallower d e (u.closed c id start) :=
  h.change (fun s => s.closed c id start) (fun _ _ _ => ⟨_, rfl⟩) ⟨rfl, rfl⟩

theorem State.Shallower.leaf (h : s.Shallower d e u) (kind : Tree.Kind) (term : TermId) (stop : Nat)
    (span : Span) : (s.leaf kind term stop span).Shallower d e (u.leaf kind term stop span) :=
  h.change (fun s => s.leaf kind term stop span) (fun _ _ _ => ⟨_, rfl⟩) ⟨rfl, rfl⟩

theorem State.Shallower.deeper (h : s.Shallower d e u) :
    s.deeper.Shallower d.deeper e.deeper u.deeper := by
  obtain ⟨hle, hdepth, ⟨peak, log, rfl⟩, hsaid⟩ := h
  exact ⟨Nat.succ_le_succ hle, congrArg Nat.succ hdepth, ⟨_, log, rfl⟩, hsaid⟩

/-- only the deeper one of two states goes deeper -/
theorem State.Shallower.deeper_right (h : s.Shallower d e u) : s.Shallower d e.deeper u.deeper := by
  obtain ⟨hle, hdepth, ⟨peak, log, rfl⟩, hsaid⟩ := h
  exact ⟨Nat.le_succ_of_le hle, congrArg Nat.succ hdepth, ⟨peak, log, rfl⟩, hsaid⟩

theorem State.Shallower.back (h : s.Shallower d.deeper e.deeper u) :
    (s.withDepth d.depth).Shallower d e (u.withDepth e.depth) := by
  obtain ⟨hle, _, ⟨peak, log, rfl⟩, hsaid⟩ := h
  exact ⟨Nat.le_of_succ_le_succ hle, rfl, ⟨peak, log, rfl⟩, hsaid⟩

theorem State.Shallower.back_right (h : s.Shallower d e.deeper u) (hle : d.depth ≤ e.depth) :
    s.Shallower d e (u.withDepth e.depth) := by
  obtain ⟨_, _, ⟨peak, log, rfl⟩, hsaid⟩ := h
  exact ⟨hle, rfl, ⟨peak, log, rfl⟩, hsaid⟩

theorem Attempt.Follows.map (h : r.Follows d e r') {f g : State → State}
    (hfg : ∀ s u, s.Shallower d e u → (f s).Shallower d' e' (g u)) :
    (r.map f).Follows d' e' (r'.map g) := by
  cases h with
  | matched h => exact .matched (hfg _ _ h)
  | stopped h => exact .stopped (hfg _ _ h)
  | limited => exact .limited

theorem follows_miss (h : s.Shallower d e u) (t : TermId) : (miss s t).Follows d e (miss u t) :=
  .stopped (h.change (fun s => s.offer t) (fun _ _ _ => ⟨_, rfl⟩) ⟨rfl, rfl⟩)

end

/-! ## combinators -/

section
variable {d e : Base} {run run' : State → Attempt} {again again' : TermId → State → Attempt}
  {s u : State}

theorem follows_inOrder
    (H : ∀ t s u, s.Shallower d e u → (again t s).Follows d e (again' t u)) (ts : List TermId)
    (h : s.Shallower d e u) : (inOrder again ts s).Follows d e (inOrder again' ts u) := by
  induction ts generalizing s u with
  | nil => exact .matched h
  | cons t ts ih =>
    have ht := H t s u h
    rw [inOrder, inOrder]
    generalize again t s = r at ht ⊢
    generalize again' t u = r' at ht ⊢
    cases ht with
    | matched hs => exact ih hs
    | stopped hs => exact .stopped hs
    | limited => exact .limited

theorem follows_firstOf
    (H : ∀ t s u, s.Shallower d e u → (again t s).Follows d e (again' t u)) (ts : List TermId)
    (h : s.Shallower d e u) : (firstOf again ts s).Follows d e (firstOf again' ts u) := by
  induction ts generalizing s u with
  | nil => exact .stopped h
  | cons t ts ih =>
    have ht := H t s u h
    rw [firstOf, firstOf]
    generalize again t s = r at ht ⊢
    generalize again' t u = r' at ht ⊢
    cases ht with
    | matched hs => exact .matched hs
    | limited => exact .limited
    | @stopped why _ _ hs =>
      cases why with
      | mismatch => exact ih hs
      | limit => exact .limited
      | endless => exact .stopped hs

variable (H : ∀ s u, s.Shallower d e u → (run s).Follows d e (run' u))
include H

theorem follows_atomic (s u : State) (h : s.Shallower d e u) :
    (atomic run s).Follows d e (atomic run' u) := by
  have hr := H s u h
  unfold atomic
  rw [h.mark]
  generalize run s = r at hr ⊢
  generalize run' u = r' at hr ⊢
  cases hr with
  | matched hs => exact .matched hs
  | stopped hs => exact .stopped (hs.reset _)
  | limited => exact .limited

theorem follows_optional (s u : State) (h : s.Shallower d e u) :
    (optional run s).Follows d e (optional run' u) := by
  have hr := H s u h
  unfold optional
  generalize run s = r at hr ⊢
  generalize run' u = r' at hr ⊢
  cases hr with
  | matched hs => exact .matched hs
  | limited => exact .limited
  | @stopped why _ _ hs =>
    cases why with
    | mismatch => exact .matched hs
    | limit => exact .limited
    | endless => exact .stopped hs

theorem follows_more (term : TermId) (rounds start : Nat) (h : s.Shallower d e u) :
    (more run term rounds start s).Follows d e (more run' term rounds start u) := by
  induction rounds generalizing start s u with
  | zero => exact .stopped h
  | succ rounds ih =>
    have hr := H s u h
    rw [more, more, h.pos]
    by_cases hlt : start < u.pos
    · rw [if_pos hlt, if_pos hlt]
      generalize run s = r at hr ⊢
      generalize run' u = r' at hr ⊢
      cases hr with
      | matched hs => exact ih u.pos hs
      | limited => exact .limited
      | @stopped why _ _ hs =>
        cases why with
        | mismatch => exact .matched hs
        | limit => exact .limited
        | endless => exact .stopped hs
    · rw [if_neg hlt, if_neg hlt]
      exact .matched (h.say _)

theorem follows_oneOrMore (term : TermId) (rounds : Nat) (s u : State) (h : s.Shallower d e u) :
    (oneOrMore run term rounds s).Follows d e (oneOrMore run' term rounds u) := by
  have hr := H s u h
  unfold oneOrMore
  rw [h.pos]
  generalize run s = r at hr ⊢
  generalize run' u = r' at hr ⊢
  cases hr with
  | matched hs => exact follows_more H term rounds u.pos hs
  | stopped hs => exact .stopped hs
  | limited => exact .limited

theorem follows_occurring (o : Occurrence) (term : TermId) (rounds : Nat) (h : s.Shallower d e u) :
    (occurring o run term rounds s).Follows d e (occurring o run' term rounds u) := by
  have hall : ∀ s u, s.Shallower d e u →
      ((if o.isRepeated then oneOrMore run term rounds else run) s).Follows d e
        ((if o.isRepeated then oneOrMore run' term rounds else run') u) := by
    cases o.isRepeated with
    | false => exact H
    | true => exact follows_oneOrMore H term rounds
  unfold occurring
  cases o.isOptional with
  | false => exact hall s u h
  | true => exact follows_optional hall s u h

end

section
variable {c : Setting} {g : Grammar} {d e : Base} {run run' : State → Attempt} {s u : State}

theorem follows_nested
    (H : ∀ s u, s.Shallower d.deeper e.deeper u → (run s).Follows d.deeper e.deeper (run' u))
    (h : s.Shallower d e u) : (nested c run s).Follows d e (nested (c.withGrammar g) run' u) := by
  by_cases hd : c.maxDepth ≤ u.depth
  · rw [nested_of_le (c := c.withGrammar g) hd]
    exact .limited
  · have hlt := Nat.lt_of_not_le hd
    have hlt' : s.depth < c.maxDepth := by
      rw [h.depth_left]
      exact Nat.lt_of_le_of_lt h.le (h.depth ▸ hlt)
    rw [nested_of_lt (c := c.withGrammar g) hlt, nested_of_lt hlt', h.depth_left, h.depth]
    exact (H _ _ h.deeper).map fun _ _ hs => hs.back

/-- the one attempt stays at its own level where the other one goes one deeper -/
theorem follows_nested_right (H : ∀ s u, s.Shallower d e.deeper u → (run s).Follows d e.deeper (run' u))
    (h : s.Shallower d e u) : (run s).Follows d e (nested (c.withGrammar g) run' u) := by
  by_cases hd : c.maxDepth ≤ u.depth
  · rw [nested_of_le (c := c.withGrammar g) hd]
    exact .limited
  · rw [nested_of_lt (c := c.withGrammar g) (Nat.lt_of_not_le hd), h.depth]
    have hr := H _ _ h.deeper_right
    generalize run s = r at hr ⊢
    generalize run' u.deeper = r' at hr ⊢
    cases hr with
    | limited => exact .limited
    | matched hs => exact .matched (hs.back_right h.le)
    | stopped hs => exact .stopped (hs.back_right h.le)

theorem follows_token (t : TermId) (m : Mask) (h : s.Shallower d e u) :
    (token c t m s).Follows d e (token (c.withGrammar g) t m u) := by
  show (token c t m s).Follows d e (token c t m u)
  unfold token
  dsimp only
  rw [h.pos]
  split
  · split
    · exact .matched h
    · exact follows_miss h t
  · split
    · exact .matched (h.leaf _ _ _ _)
    · exact follows_miss h t

theorem follows_literal (t : TermId) (text : String) (h : s.Shallower d e u) :
    (literal c t text s).Follows d e (literal (c.withGrammar g) t text u) := by
  show (literal c t text s).Follows d e (literal c t text u)
  unfold literal
  rw [h.pos]
  split
  · exact .matched (h.leaf _ _ _ _)
  · exact follows_miss h t

theorem follows_leave {r r' : Attempt} (h : r.Follows d e r') (m : Mark) (outer : NodeId) :
    (leave c m outer r).Follows d e (leave (c.withGrammar g) m outer r') := by
  cases h with
  | limited => exact .limited
  | stopped hs => exact .stopped (hs.withParent outer)
  | matched hs =>
    exact .matched ((hs.withParent outer).closed c m.nodes m.pos)

end

end Ebnf.Matching
