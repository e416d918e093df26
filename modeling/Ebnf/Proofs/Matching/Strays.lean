import Ebnf.Proofs.Failure.Origin

/-!
# Ids that are no term's

An id may be used where a term should be although it is a rule's, or no node's at all.  A run that
meets such a stray says so and goes on as if nothing matched.  In a grammar that is built by calls
none is met, since only terms are hung below anything.

* `Event.IsStray`       the events that say that a stray was met;
* `Tidy`                an attempt that says nothing of strays;
* `tidy_inOrder`, `Tidy.nested`, ...   so do the combinators, if what they try does;
* `tidy_attempt`        and terms of a well-formed grammar, whether or not they come to an end;
* `Begins.isTerm`       whatever a run begins as a term is one;
* `parse_tries_terms`   what that says of a parse of a grammar that is built by calls.
-/

namespace Ebnf

open Grammar Matching

/-- an id was used as a term's, and is none -/
def Event.IsStray : Event → Prop
  | .missingTerm _ => True
  | .ruleAsTerm _ => True
  | _ => False

namespace Matching

def Tidy (s : State) (r : Attempt) : Prop := Said (fun e => ¬ e.IsStray) s r.state

/-! ## combinators -/

section
variable {run : State → Attempt} {again : TermId → State → Attempt} {ts : List TermId} {s : State}
  {r : Attempt}

theorem tidy_matched (s : State) : Tidy s (.matched s) := Said.refl s

theorem Tidy.then {s' : State} (h : Tidy s (.matched s')) (h' : Tidy s' r) : Tidy s r :=
  Said.trans h h'

theorem tidy_atomic (H : ∀ s, Tidy s (run s)) (s : State) : Tidy s (atomic run s) := by
  have h := H s
  unfold atomic
  cases e : run s with
  | matched s' =>
    rw [e] at h
    exact h
  | stopped why s' =>
    rw [e] at h
    exact h

theorem tidy_inOrder (H : ∀ t ∈ ts, ∀ s, Tidy s (again t s)) (s : State) :
    Tidy s (inOrder again ts s) := by
  induction ts generalizing s with
  | nil => exact tidy_matched s
  | cons t ts ih =>
    have h := H t List.mem_cons_self s
    rw [inOrder]
    cases e : again t s with
    | matched s' =>
      rw [e] at h
      exact h.then (ih (fun u hu => H u (List.mem_cons_of_mem t hu)) s')
    | stopped why s' =>
      rw [e] at h
      exact h

theorem tidy_firstOf (H : ∀ t ∈ ts, ∀ s, Tidy s (again t s)) (s : State) :
    Tidy s (firstOf again ts s) := by
  induction ts generalizing s with
  | nil => exact Said.refl s
  | cons t ts ih =>
    have h := H t List.mem_cons_self s
    rw [firstOf]
    cases e : again t s with
    | matched s' =>
      rw [e] at h
      exact h
    | stopped why s' =>
      rw [e] at h
      cases why with
      | mismatch => exact Said.trans h (ih (fun u hu => H u (List.mem_cons_of_mem t hu)) s')
      | limit => exact h
      | endless => exact h

theorem tidy_optional (H : ∀ s, Tidy s (run s)) (s : State) : Tidy s (optional run s) := by
  have h := H s
  unfold optional
  cases e : run s with
  | matched s' =>
    rw [e] at h
    exact h
  | stopped why s' =>
    rw [e] at h
    cases why <;> exact h

theorem tidy_more (H : ∀ s, Tidy s (run s)) (term : TermId) (rounds start : Nat) (s : State) :
    Tidy s (more run term rounds start s) := by
  induction rounds generalizing start s with
  | zero => exact Said.refl s
  | succ rounds ih =>
    have h := H s
    rw [more]
    by_cases hlt : start < s.pos
    · rw [if_pos hlt]
      cases e : run s with
      | matched s' =>
        rw [e] at h
        exact h.then (ih s.pos s')
      | stopped why s' =>
        rw [e] at h
        cases why <;> exact h
    · rw [if_neg hlt]
      exact said_say id

theorem tidy_oneOrMore (H : ∀ s, Tidy s (run s)) (term : TermId) (rounds : Nat) (s : State) :
    Tidy s (oneOrMore run term rounds s) := by
  have h := H s
  unfold oneOrMore
  cases e : run s with
  | matched s' =>
    rw [e] at h
    exact h.then (tidy_more H term rounds s.pos s')
  | stopped why s' =>
    rw [e] at h
    exact h

theorem tidy_occurring (H : ∀ s, Tidy s (run s)) (o : Occurrence) (term : TermId) (rounds : Nat)
    (s : State) : Tidy s (occurring o run term rounds s) := by
  have hall : ∀ s, Tidy s ((if o.isRepeated then oneOrMore run term rounds else run) s) := by
    cases o.isRepeated with
    | false => exact H
    | true => exact tidy_oneOrMore H term rounds
  unfold occurring
  cases o.isOptional with
  | false => exact hall s
  | true => exact tidy_optional hall s

theorem Tidy.map {f : State → State} (h : Tidy s r) (hf : ∀ u, (f u).log = u.log) :
    Tidy s (r.map f) := by
  have hlog : (r.map f).state.log = r.state.log := by rw [Attempt.state_map, hf]
  exact Said.trans h (.of_log hlog)

theorem tidy_nested (c : Setting) (H : ∀ s, Tidy s (run s)) (s : State) :
    Tidy s (nested c run s) := by
  by_cases hd : c.maxDepth ≤ s.depth
  · rw [nested_of_le hd]
    exact said_say id
  · rw [nested_of_lt (Nat.lt_of_not_le hd)]
    exact Tidy.map (H s.deeper) fun _ => rfl

theorem tidy_miss {e : Event} (he : ¬ e.IsStray) (s : State) (t : TermId) :
    Tidy s (miss (s.say e) t) := said_say he

theorem tidy_token (c : Setting) (t : TermId) (m : Mask) (s : State) : Tidy s (token c t m s) := by
  rcases token_cases c t m s with ⟨_, _, e⟩ | ⟨_, _, e⟩ | ⟨_, _, e⟩ <;> rw [e] <;>
    exact Said.of_log rfl

theorem tidy_literal (c : Setting) (t : TermId) (x : String) (s : State) :
    Tidy s (literal c t x s) := by
  rcases literal_cases c t x s with ⟨_, _, e⟩ | ⟨_, e⟩ <;> rw [e] <;> exact Said.of_log rfl

end

/-! ## terms of a well-formed grammar -/

section
variable {c : Setting} {again : TermId → State → Attempt} {t : TermId} {n : Grammar.Node}

theorem tidy_body (hg : c.grammar.WellFormed)
    (H : ∀ u, c.grammar.IsTerm u → ∀ s, Tidy s (again u s)) (t : TermId) (rule : RuleId)
    (s : State) : Tidy s (body c again t rule s) := by
  unfold body
  split
  · rename_i name p hn
    have hp := H p (hg.isTerm_production (production?_of_node? hn))
    have henter : Said (fun e => ¬ e.IsStray) s
        ((s.say (.enterRule (c.grammar.text name) s.pos)).withRule rule) := said_say id
    exact Tidy.map (Said.trans henter (hp _)) fun _ => rfl
  · exact tidy_miss id s t
  · exact tidy_miss id s t

theorem tidy_underRule (hg : c.grammar.WellFormed)
    (H : ∀ u, c.grammar.IsTerm u → ∀ s, Tidy s (again u s)) (t : TermId) (rule : RuleId)
    (s : State) : Tidy s (underRule c again t rule s) := by
  have h := tidy_body hg H t rule (s.opened rule (some t) (some s.parent))
  unfold underRule
  cases e : body c again t rule (s.opened rule (some t) (some s.parent)) with
  | matched s' =>
    rw [e] at h
    exact h
  | stopped why s' =>
    rw [e] at h
    exact h

theorem tidy_once (hg : c.grammar.WellFormed)
    (H : ∀ u, c.grammar.IsTerm u → ∀ s, Tidy s (again u s)) (hn : c.grammar.node? t = some n)
    (hterm : n.isRule = false) (s : State) : Tidy s (once c again t n s) := by
  have hchild : ∀ u ∈ n.children, ∀ s, Tidy s (again u s) :=
    fun u hu => H u (hg t n hn u (Node.mem_hung hu))
  cases n with
  | rule => cases hterm
  | reference target => exact tidy_nested c (tidy_underRule hg H t target) s
  | token m => exact tidy_token c t m s
  | literal x => exact tidy_literal c t (c.grammar.text x) s
  | alternation ts => exact tidy_firstOf hchild s
  | concatenation ts => exact tidy_inOrder hchild s
  | group ts => exact tidy_nested c (tidy_inOrder hchild) s

theorem tidy_attempt (hg : c.grammar.WellFormed) (h : Nat) {t : TermId} (ht : c.grammar.IsTerm t)
    (s : State) : Tidy s (attempt c h t s) := by
  induction h generalizing t s with
  | zero => exact Said.refl s
  | succ h ih =>
    obtain ⟨n, hn, hterm⟩ := ht
    rw [attempt_succ, hn]
    have honce := tidy_once hg (fun u hu => ih hu) hn hterm
    exact tidy_occurring (tidy_atomic honce) n.occurrence t (rounds c) s

end

/-- whatever is begun as a term in the course of a rule is one -/
theorem Begins.isTerm {c : Setting} (hg : c.grammar.WellFormed) {rule : RuleId} {s u : State}
    {t : TermId} (hb : Begins c (.body rule rule) s (.term t) u) (hs : s.rule = rule) :
    c.grammar.IsTerm t :=
  hg.isTerm (hb.fits (.inr ⟨hs, rfl, rfl⟩))

end Matching

namespace Parser

/-- in a grammar that is built by calls, nothing but a term is tried as one, in whatever parse, from
whatever start rule, under whatever limit, and whether or not the parse comes to an end; so it never
says that it met a stray.  For all that hangs below a node is a term, and stays one whatever calls
follow -/
theorem parse_tries_terms (p : Parser) (start : RuleId) {steps : List Step}
    (hg : p.grammar = build steps) :
    (∀ t u, Begins p.setting (.body start start) (p.first start) (.term t) u →
      p.grammar.IsTerm t) ∧
    (∃ events, (p.parse start).1.log.toList = p.log.toList ++ events ∧
      ∀ e ∈ events, ¬ e.IsStray) ∧
    ∀ t n, p.grammar.node? t = some n → ∀ u ∈ n.hung,
      p.grammar.IsTerm u ∧ ∀ later, (build (steps ++ later)).IsTerm u := by
  have hwf : p.setting.grammar.WellFormed := by
    show p.grammar.WellFormed
    rw [hg]
    exact build_wellFormed steps
  refine ⟨fun t u hb => hb.isTerm hwf rfl, ?_, fun t n hn u hu => ?_⟩
  · have htidy : Tidy (p.first start) (p.outcome start) :=
      tidy_body hwf (fun u hu => tidy_attempt hwf _ hu) start start (p.first start)
    exact said_by_parse (fun _ _ _ => id) (fun _ => id) htidy
  · have hterm : p.grammar.IsTerm u := hwf t n hn u hu
    refine ⟨hterm, fun later => ?_⟩
    rw [hg] at hterm
    exact hterm.build_append later

/-- neither a rule nor an id that is no node's can be hung below the choice of `s`; a reference that
leads nowhere can, and is met as what it is -/
theorem parse_tries_terms_dangling_reference :
    let steps : List Step := [.rule "s", .alternation, .reference 9 .one, .attach 1 0,
      .attach 1 9, .attach 2 1, .attach 1 2, .attach 0 1, .attach 0 2]
    let p : Parser := { source := .ofText "a" "input" 0 {}, grammar := build steps }
    (Grammar.run {} steps).2.drop 3 = [.refused (.childIsRule "s"), .refused (.unknownNode 9),
      .refused (.leafParent 2 "rule reference"), .attached, .attached,
      .refused (.productionExists "s")] ∧
    .notARule 9 ∈ (p.parse 0).1.log ∧
    ∃ events, (p.parse 0).1.log.toList = p.log.toList ++ events ∧ ∀ e ∈ events, ¬ e.IsStray := by
  intro steps p
  have hreplies : (Grammar.run {} steps).2.drop 3 = [.refused (.childIsRule "s"),
      .refused (.unknownNode 9), .refused (.leafParent 2 "rule reference"), .attached, .attached,
      .refused (.productionExists "s")] := by decide +kernel
  have hsaid : .notARule 9 ∈ (p.parse 0).1.log := by decide +kernel
  have hg : p.grammar = build steps := rfl
  exact ⟨hreplies, hsaid, (parse_tries_terms p 0 hg).2.1⟩

end Parser

end Ebnf
