import Ebnf.Grammar.Build
import Ebnf.Proofs.Outcome
import Ebnf.Proofs.Reference.LeftCall
import Ebnf.Proofs.Reference.Soundness

/-!
# Without left recursion some limit is enough

* `Settles`          a job comes to an end without meeting the limit;
* `callsLeft`        how many calls may still lie in each other below a term at a place: a call moves
                     on, or goes down in the rank of its term;
* `settles_once`     a single match settles, if the limit leaves room for its calls and these settle;
* `settles_term`     so every term settles that the limit leaves room for;
* `parse_within_limit`   no parse meets a limit that has room for each term at each place.
-/

namespace Ebnf

namespace Matching

open Reference Grammar

/-! ## jobs that come to an end below the limit -/

/-- `j`, begun in `s`, comes to an end without meeting the limit -/
def Settles (c : Setting) (j : Job) (s : State) : Prop := ∃ h r, Yields c h j s r ∧ ¬ r.Limited

section
variable {c : Setting} {h : Nat} {j k l : Job} {s s' : State} {r : Attempt} {t : TermId}
  {n : Grammar.Node} {ts : List TermId}

theorem Attempt.not_limited_of_outcome? {o : Outcome} (ho : r.outcome? = some o) :
    ¬ r.Limited := by
  cases r with
  | matched s => exact id
  | stopped why s =>
    obtain ⟨rfl, _⟩ := Attempt.outcome?_stopped ho
    exact id

theorem Settles.pass (hs : Settles c j s)
    (hk : ∀ {h r}, Yields c h j s r → Yields c h k s' r) : Settles c k s' := by
  obtain ⟨h, r, hy, hr⟩ := hs
  exact ⟨h, r, hk hy, hr⟩

theorem Settles.after (hs : Settles c k s') (hy : Yields c h j s r)
    (hl : ∀ {h r'}, Yields c h j s r → Yields c h k s' r' → Yields c h l s r') :
    Settles c l s := by
  obtain ⟨_, r', hy', hr⟩ := hs
  obtain ⟨m, hy, hy'⟩ := hy.within_one hy'
  exact ⟨m, r', hl hy hy', hr⟩

theorem Settles.nested (hd : s.depth < c.maxDepth) (hs : Settles c j s.deeper) :
    Settles c (.nested j) s := by
  obtain ⟨h, r, hy, hr⟩ := hs
  exact ⟨h, _, .deeper hd hy, mt Attempt.limited_map.mp hr⟩

theorem Settles.under {rule : RuleId}
    (hs : Settles c (.body t rule) (s.opened rule (some t) (some s.parent))) :
    Settles c (.under t rule) s := by
  obtain ⟨h, r, hy, hr⟩ := hs
  exact ⟨h, _, .under hy, mt Attempt.limited_leave.mp hr⟩

theorem settles_body {rule : RuleId}
    (H : ∀ name p, c.grammar.node? rule = some (.rule name (some p)) →
      Settles c (.term p) ((s.say (.enterRule (c.grammar.text name) s.pos)).withRule rule)) :
    Settles c (.body t rule) s := by
  cases hn : c.grammar.node? rule with
  | none => exact ⟨0, _, .notARule (fun _ _ e => by rw [hn] at e; cases e), id⟩
  | some n =>
    cases n with
    | rule name production =>
      cases production with
      | none => exact ⟨0, _, .noProduction hn, id⟩
      | some p =>
        obtain ⟨h, r, hy, hr⟩ := H name p hn
        exact ⟨h, _, .production hn hy, mt Attempt.limited_map.mp hr⟩
    | _ => exact ⟨0, _, .notARule (fun _ _ e => by rw [hn] at e; cases e), id⟩

theorem Settles.single (hs : Settles c (.once t n) s) : Settles c (.single t n) s := by
  obtain ⟨h, r, hy, hr⟩ := hs
  cases r with
  | matched s' => exact ⟨h, _, .kept hy, id⟩
  | stopped why s' =>
    refine ⟨h, _, .undone hy, ?_⟩
    cases why <;> exact hr

theorem Settles.term (hn : c.grammar.node? t = some n) (hs : Settles c (.rounds t n) s) :
    Settles c (.term t) s := by
  obtain ⟨h, r, hy, hr⟩ := hs
  cases r with
  | matched s' => exact ⟨h + 1, _, .taken hn hy (fun _ _ e => by cases e), id⟩
  | stopped why s' =>
    cases why with
    | mismatch =>
      cases ho : n.occurrence.isOptional with
      | true => exact ⟨h + 1, _, .skipped hn ho hy, id⟩
      | false => exact ⟨h + 1, _, .taken hn hy (fun e => by rw [ho] at e; cases e), id⟩
    | limit => exact absurd trivial hr
    | endless => exact hy.finished.elim

/-- the rounds of a node come to an end, since each but the last moves on -/
theorem settles_more {start : Nat} (hs : s.pos ≤ c.source.size)
    (H : ∀ s', Frame c s s' → start < s'.pos → Settles c (.single t n) s') :
    Settles c (.more t n start) s := by
  induction hm : c.source.size - s.pos using Nat.strongRecOn generalizing s start with
  | _ m ih =>
    by_cases hlt : start < s.pos
    · obtain ⟨h, r, hy, hr⟩ := H s (Frame.refl c s) hlt
      cases r with
      | matched s' =>
        by_cases hmoved : s.pos < s'.pos
        · have hf : Frame c s s' := hy.frame
          have hle : s'.pos ≤ c.source.size := hf.pos_le hs
          have hrest : Settles c (.more t n s.pos) s' :=
            ih _ (by omega) hle (fun u hu hu' => H u (hf.trans hu) (Nat.lt_trans hlt hu')) rfl
          exact hrest.after hy (.another hlt)
        · have hrest : Settles c (.more t n s.pos) s' :=
            ⟨0, _, .idle (Nat.le_of_not_lt hmoved), id⟩
          exact hrest.after hy (.another hlt)
      | stopped why s' =>
        cases why with
        | mismatch => exact ⟨h, _, .enough hlt hy, id⟩
        | limit => exact absurd trivial hr
        | endless => exact hy.finished.elim
    · exact ⟨0, _, .idle (Nat.le_of_not_lt hlt), id⟩

theorem settles_rounds (hs : s.pos ≤ c.source.size)
    (H : ∀ s', Frame c s s' → s' = s ∨ s.pos < s'.pos → Settles c (.single t n) s') :
    Settles c (.rounds t n) s := by
  have hfirst := H s (Frame.refl c s) (.inl rfl)
  cases hrep : n.occurrence.isRepeated with
  | false => exact hfirst.pass (.justOne hrep)
  | true =>
    obtain ⟨h, r, hy, hr⟩ := hfirst
    cases r with
    | matched s' =>
      have hf : Frame c s s' := hy.frame
      have hrest : Settles c (.more t n s.pos) s' :=
        settles_more (hf.pos_le hs) fun u hu hu' => H u (hf.trans hu) (.inr hu')
      exact hrest.after hy (.oneAndMore hrep)
    | stopped why s' => exact ⟨h, _, .noneAtAll hrep hy, hr⟩

theorem Yields.nullable (hy : Yields c h (.term t) s (.matched s')) (hs : s.pos ≤ c.source.size)
    (he : s'.pos = s.pos) : c.grammar.Nullable t := by
  have hm : Means c.source c.grammar (.term t) s.pos (.ends s'.pos) := hy.meant hs rfl
  rw [he] at hm
  exact hm.nullable rfl

theorem settles_inOrder (hs : s.pos ≤ c.source.size)
    (H : ∀ before u after, ts = before ++ u :: after → ∀ s', Frame c s s' →
      (s'.pos = s.pos → ∀ v ∈ before, c.grammar.Nullable v) → Settles c (.term u) s')
    (rest before : List TermId) (hts : ts = before ++ rest) (hf : Frame c s s')
    (hnull : s'.pos = s.pos → ∀ v ∈ before, c.grammar.Nullable v) :
    Settles c (.inOrder rest) s' := by
  induction rest generalizing before s' with
  | nil => exact ⟨0, _, .allDone, id⟩
  | cons u rest ih =>
    obtain ⟨h, r, hy, hr⟩ := H before u rest hts s' hf hnull
    cases r with
    | matched s'' =>
      have hf' : Frame c s' s'' := hy.frame
      have h1 : s.pos ≤ s'.pos := hf.forth
      have h2 : s'.pos ≤ s''.pos := hf'.forth
      have hnull' : s''.pos = s.pos → ∀ v ∈ before ++ [u], c.grammar.Nullable v := by
        intro e v hv
        rcases List.mem_append.mp hv with hv | hv
        · exact hnull (by omega) v hv
        · obtain rfl := List.mem_singleton.mp hv
          exact hy.nullable (hf.pos_le hs) (by omega)
      have hts' : ts = (before ++ [u]) ++ rest := by
        rw [hts, List.append_assoc, List.singleton_append]
      exact (ih (before ++ [u]) hts' (hf.trans hf') hnull').after hy .nextOne
    | stopped why s'' => exact ⟨h, _, .broken hy, hr⟩

theorem settles_firstOf (ts : List TermId)
    (H : ∀ u ∈ ts, ∀ s', s'.pos = s.pos → s'.depth = s.depth → Settles c (.term u) s')
    (hp : s'.pos = s.pos) (hd : s'.depth = s.depth) : Settles c (.firstOf ts) s' := by
  induction ts generalizing s' with
  | nil => exact ⟨0, _, .noneLeft, id⟩
  | cons u ts ih =>
    obtain ⟨h, r, hy, hr⟩ := H u List.mem_cons_self s' hp hd
    cases r with
    | matched s'' => exact ⟨h, _, .chosen hy, id⟩
    | stopped why s'' =>
      cases why with
      | mismatch =>
        have hp' : s''.pos = s.pos := hy.restored_of_mismatch.1.trans hp
        have hd' : s''.depth = s.depth := hy.frame.depth.trans hd
        have hrest := ih (fun v hv => H v (List.mem_cons_of_mem u hv)) hp' hd'
        exact hrest.after hy .otherwise
      | limit => exact absurd trivial hr
      | endless => exact hy.finished.elim

end

/-! ## how many calls may lie in each other -/

/-- a bound on the calls below the term `t` at the place `i`: each one moves on, or goes down in the
rank of its term -/
noncomputable def callsLeft (x : Lexed) (g : Grammar) (t : TermId) (i : Nat) : Nat :=
  (x.size - i) * g.size + g.leftRank t

section
variable {x : Lexed} {g : Grammar} {t u : TermId} {i j : Nat}

theorem callsLeft_lt_of_call (hg : g.NoLeftRecursion) (h : LeftCall g t u) (hu : u < g.size) :
    callsLeft x g u i < callsLeft x g t i :=
  Nat.add_lt_add_left (leftRank_lt hg h hu) _

theorem callsLeft_lt_of_lt (hg : g.NoLeftRecursion) (hu : u < g.size) (hij : i < j)
    (hj : j ≤ x.size) : callsLeft x g u j < callsLeft x g t i := by
  have hrank := leftRank_lt_size hg hu
  have hmul : (x.size - j + 1) * g.size ≤ (x.size - i) * g.size :=
    Nat.mul_le_mul_right _ (by omega)
  rw [Nat.succ_mul] at hmul
  unfold callsLeft
  omega

theorem callsLeft_lt (hg : g.NoLeftRecursion) (ht : t < g.size) (i : Nat) :
    callsLeft x g t i < (x.size + 1) * g.size := by
  have hrank := leftRank_lt_size hg ht
  have hmul : (x.size - i) * g.size ≤ x.size * g.size :=
    Nat.mul_le_mul_right _ (Nat.sub_le _ _)
  rw [Nat.succ_mul]
  unfold callsLeft
  omega

end

section
variable {c : Setting} {t : TermId} {n : Grammar.Node} {s : State}

/-- a single match settles, if all terms do from which fewer calls may follow -/
theorem settles_once (hg : c.grammar.NoLeftRecursion) (hn : c.grammar.node? t = some n)
    (hs : s.pos ≤ c.source.size)
    (hroom : s.depth + callsLeft c.source c.grammar t s.pos < c.maxDepth)
    (H : ∀ u s', s'.pos ≤ c.source.size → s'.depth ≤ s.depth + 1 →
      callsLeft c.source c.grammar u s'.pos < callsLeft c.source c.grammar t s.pos →
      Settles c (.term u) s') : Settles c (.once t n) s := by
  -- a term that is tried in the course of the match is called on the left, or lies further on
  have hchild : ∀ u s', s.pos ≤ s'.pos → s'.pos ≤ c.source.size → s'.depth ≤ s.depth + 1 →
      (s'.pos = s.pos → LeftCall c.grammar t u) → Settles c (.term u) s' := by
    intro u s' hforth hle hdepth hcall
    cases hu : c.grammar.node? u with
    | none => exact ⟨1, _, .missing hu, id⟩
    | some m =>
      have hlt := lt_size_of_node? hu
      refine H u s' hle hdepth ?_
      by_cases he : s'.pos = s.pos
      · rw [he]
        exact callsLeft_lt_of_call hg (hcall he) hlt
      · exact callsLeft_lt_of_lt hg hlt (by omega) hle
  have hdeep : s.depth < c.maxDepth := by omega
  cases n with
  | rule name production => exact ⟨0, _, .ruleAsTerm, id⟩
  | token m o => exact ⟨0, _, .token, Attempt.not_limited_of_outcome? (outcome?_token _ _)⟩
  | literal x o => exact ⟨0, _, .literal, Attempt.not_limited_of_outcome? (outcome?_literal _ _ hs)⟩
  | reference target o =>
    have hbody : Settles c (.body t target) (s.deeper.opened target (some t) (some s.parent)) := by
      refine settles_body fun name p hrule => ?_
      exact hchild p _ (Nat.le_refl _) hs (Nat.le_refl _)
        fun _ => .reference hn (production?_of_node? hrule)
    exact (hbody.under.nested hdeep).pass .reference
  | alternation ts =>
    have hfirst : Settles c (.firstOf ts) s := by
      refine settles_firstOf ts (fun u hu s' hp hd => ?_) rfl rfl
      exact hchild u s' (Nat.le_of_eq hp.symm) (hp ▸ hs) (hd ▸ Nat.le_succ _)
        fun _ => .alternation hn hu
    exact hfirst.pass .alternation
  | concatenation ts =>
    have hall : Settles c (.inOrder ts) s := by
      refine settles_inOrder hs (fun before u after hts s' hf hnull => ?_) ts [] rfl
        (Frame.refl c s) (fun _ _ hv => by cases hv)
      subst hts
      exact hchild u s' hf.forth (hf.pos_le hs) (hf.depth ▸ Nat.le_succ _)
        fun he => .concatenation hn (hnull he)
    exact hall.pass .concatenation
  | group ts o =>
    have hall : Settles c (.inOrder ts) s.deeper := by
      refine settles_inOrder (s := s.deeper) hs (fun before u after hts s' hf hnull => ?_) ts []
        rfl (Frame.refl c _) (fun _ _ hv => by cases hv)
      subst hts
      have hd : s'.depth = s.depth + 1 := hf.depth
      exact hchild u s' hf.forth (hf.pos_le hs) (Nat.le_of_eq hd)
        fun he => .group hn (hnull he)
    exact (hall.nested hdeep).pass .group

/-- a term that the limit leaves room for settles -/
theorem settles_term (hg : c.grammar.NoLeftRecursion) (hs : s.pos ≤ c.source.size)
    (hroom : s.depth + callsLeft c.source c.grammar t s.pos < c.maxDepth) :
    Settles c (.term t) s := by
  induction hm : callsLeft c.source c.grammar t s.pos using Nat.strongRecOn generalizing t s with
  | _ m ih =>
    cases hn : c.grammar.node? t with
    | none => exact ⟨1, _, .missing hn, id⟩
    | some n =>
      refine .term hn (settles_rounds hs fun s' hf hor => .single ?_)
      have hle : s'.pos ≤ c.source.size := hf.pos_le hs
      have hd : s'.depth = s.depth := hf.depth
      -- later rounds have no less room
      have hm' : callsLeft c.source c.grammar t s'.pos ≤ m := by
        rcases hor with rfl | hlt
        · exact Nat.le_of_eq hm
        · have := callsLeft_lt_of_lt (t := t) hg (lt_size_of_node? hn) hlt hle
          omega
      refine settles_once hg hn hle (by omega) fun u s'' hle' hd' hlt => ?_
      exact ih _ (by omega) hle' (by omega) rfl

end

end Matching

namespace Parser

open Matching Grammar

/-- in a grammar without left recursion, no parse meets a limit of all terms at all places, the end
of the input included -/
theorem parse_within_limit (p : Parser) (start : RuleId) (hg : p.grammar.NoLeftRecursion)
    (hd : (p.source.size + 1) * p.grammar.size ≤ p.config.maxDepth) :
    (p.parse start).2 = .accepted Tree.rootId ∨
    (∃ offset failure, (p.parse start).2 = .rejected ⟨.noMatch, offset, failure⟩) ∨
    ∃ consumed total offset failure,
      (p.parse start).2 = .rejected ⟨.trailingInput consumed total, offset, failure⟩ := by
  have hbody : Settles p.setting (.body start start) (p.first start) := by
    refine settles_body fun name u hrule => ?_
    cases hu : p.setting.grammar.node? u with
    | none => exact ⟨1, _, .missing hu, id⟩
    | some m =>
      refine settles_term hg (Nat.zero_le _) ?_
      have hcalls := callsLeft_lt (x := p.source) hg (lt_size_of_node? hu) 0
      show 0 + callsLeft p.source p.grammar u 0 < p.config.maxDepth
      omega
  obtain ⟨h, r, hy, hr⟩ := hbody
  have hout : p.outcome start = r := p.outcome_of_yields start hy
  refine p.verdict_of_ends start (fun he => ?_) (fun hl => ?_)
  · exact (p.ends_iff start).mpr (hout ▸ hy.finished) he
  · rw [limited_iff, hout] at hl
    exact hr hl

open Grammar in
/-- `s = "a" s ?` calls itself only behind `a`, so `aa` is parsed within the limit 12 -/
theorem parse_within_limit_right_recursion :
    let g := Grammar.build [.rule "s", .concatenation, .literal "a" .one, .reference 0 .optional,
      .attach 0 1, .attach 1 2, .attach 1 3]
    let p : Parser := { source := .ofText "aa" "input" 0 {}, grammar := g, config := ⟨12, .never⟩ }
    p.grammar.NoLeftRecursion ∧ (p.source.size + 1) * p.grammar.size ≤ p.config.maxDepth ∧
    ((p.parse 0).2 = .accepted Tree.rootId ∨
      (∃ offset failure, (p.parse 0).2 = .rejected ⟨.noMatch, offset, failure⟩) ∨
      ∃ consumed total offset failure,
        (p.parse 0).2 = .rejected ⟨.trailingInput consumed total, offset, failure⟩) := by
  intro g p
  have h0 : g.node? 0 = some (.rule ⟨0, 1⟩ (some 1)) := by decide +kernel
  have h1 : g.node? 1 = some (.concatenation [2, 3]) := by decide +kernel
  have h2 : g.node? 2 = some (.literal ⟨1, 1⟩ .one) := by decide +kernel
  have h3 : g.node? 3 = some (.reference 0 .optional) := by decide +kernel
  have hp : g.production? 0 = some 1 := by decide +kernel
  have hsize : g.size = 4 := by decide +kernel
  have htext : g.text ⟨1, 1⟩ ≠ "" := by decide +kernel
  have hlit : ¬ g.Nullable 2 := by
    intro h
    cases h with
    | optional hn ho =>
      obtain rfl := Option.some.inj (h2.symm.trans hn)
      cases ho
    | literal hn he =>
      cases h2.symm.trans hn
      exact htext he
    | token hn => cases h2.symm.trans hn
    | alternation hn => cases h2.symm.trans hn
    | concatenation hn => cases h2.symm.trans hn
    | group hn => cases h2.symm.trans hn
    | reference hn => cases h2.symm.trans hn
  have hcall : ∀ t u, LeftCall g t u → (t = 1 ∧ u = 2) ∨ (t = 3 ∧ u = 1) := by
    intro t u h
    have hfour : ∀ k : Nat, k < 4 → k = 0 ∨ k = 1 ∨ k = 2 ∨ k = 3 := by omega
    have ht := hfour t (hsize ▸ h.lt_size)
    cases h with
    | alternation hn => rcases ht with rfl | rfl | rfl | rfl <;> simp [h0, h1, h2, h3] at hn
    | @concatenation before after hn hnull =>
      rcases ht with rfl | rfl | rfl | rfl
      · cases h0.symm.trans hn
      · have hts : [2, 3] = before ++ u :: after :=
          Node.concatenation.inj (Option.some.inj (h1.symm.trans hn))
        cases before with
        | nil => exact .inl ⟨rfl, (List.cons.inj hts).1.symm⟩
        | cons v before =>
          obtain rfl : 2 = v := (List.cons.inj hts).1
          exact absurd (hnull 2 List.mem_cons_self) hlit
      · cases h2.symm.trans hn
      · cases h3.symm.trans hn
    | group hn => rcases ht with rfl | rfl | rfl | rfl <;> simp [h0, h1, h2, h3] at hn
    | reference hn hp' =>
      rcases ht with rfl | rfl | rfl | rfl
      · cases h0.symm.trans hn
      · cases h1.symm.trans hn
      · cases h2.symm.trans hn
      · cases h3.symm.trans hn
        exact .inr ⟨rfl, Option.some.inj (hp'.symm.trans hp)⟩
  have hg : g.NoLeftRecursion := by
    refine noLeftRecursion_of_rank (fun t => if t = 3 then 2 else if t = 1 then 1 else 0) ?_
    intro t u h
    rcases hcall t u h with ⟨rfl, rfl⟩ | ⟨rfl, rfl⟩ <;> decide
  have hd : (p.source.size + 1) * p.grammar.size ≤ p.config.maxDepth := by decide +kernel
  exact ⟨hg, hd, parse_within_limit p 0 hg hd⟩

end Parser

end Ebnf
