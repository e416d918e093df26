import Mathlib.Data.List.Induction
import Ebnf.Proofs.Grammar.Built

/-!
# What the calls say about the grammar

Everything that a grammar answers can be read off the calls that built it: the calls that append a
node, in order, and for each node the children of the `attach` calls to it that succeeded.  The
buffer and the nodes that change in place do not show.

* `creations`       the calls that append a node; the position of one is the id of its node;
* `hungBelow`       what was hung below a node, in the order of the calls;
* `Reads`           the text at a place of the buffer, which later texts leave as it is;
* `Depicts`         the node that stands for a call, with what hangs below it;
* `Appends`         what a call that appends a node does;
* `Describes`       the calls account for all nodes of the grammar that they build;
* `Describes.step`, `describes_build`   one more call keeps that, so all calls do;
* `Refuses`         when `attach` is refused, as the calls before it tell;
* `FollowsCalls`, `build_follows_calls`   all that a grammar answers, from whatever calls built it.
-/

namespace Ebnf.Grammar

/-! ## calls -/

namespace Step

def creates : Step → Bool
  | .attach _ _ => false
  | _ => true

/-- the call appends a term below which nothing can be hung -/
def isLeaf : Step → Bool
  | .reference _ _ => true
  | .token _ _ => true
  | .literal _ _ => true
  | _ => false

def isCompound : Step → Bool
  | .alternation => true
  | .concatenation => true
  | .group _ => true
  | _ => false

end Step

def creations (steps : List Step) : List Step := steps.filter Step.creates

/-- the child, if the call succeeded and hung it below `t` -/
def hungBy (t : TermId) : Step × Reply → Option TermId
  | (.attach parent child, .attached) => if parent = t then some child else none
  | _ => none

/-- the children of the successful `attach` calls to a node -/
def hungBelow (steps : List Step) (t : TermId) : List TermId :=
  (steps.zip (run {} steps).2).filterMap (hungBy t)

section
variable {steps : List Step} {s : Step} {t parent child : TermId}

theorem creations_concat_of_creates (h : s.creates = true) :
    creations (steps ++ [s]) = creations steps ++ [s] := by
  rw [creations, List.filter_append, List.filter_cons_of_pos h]
  rfl

theorem creations_concat_attach :
    creations (steps ++ [.attach parent child]) = creations steps := by
  rw [creations, List.filter_append]
  exact List.append_nil _

theorem build_concat : build (steps ++ [s]) = ((build steps).step s).1 := by
  rw [build, run_append]
  rfl

theorem hungBelow_concat :
    hungBelow (steps ++ [s]) t =
      hungBelow steps t ++ (hungBy t (s, ((build steps).step s).2)).toList := by
  have hreplies : (run {} (steps ++ [s])).2 = (run {} steps).2 ++ [((build steps).step s).2] := by
    rw [run_append]
    rfl
  rw [hungBelow, hreplies, List.zip_append (length_run {} steps).symm, List.filterMap_append]
  congr 1

theorem hungBy_of_creates (h : s.creates = true) (r : Reply) : hungBy t (s, r) = none := by
  cases s with
  | attach parent child => cases h
  | _ => rfl

end

/-! ## texts -/

/-- the place lies inside the buffer, and this is the text there -/
structure Reads (g : Grammar) (t : Text) (s : String) : Prop where
  inside : t.offset + t.size ≤ g.buffer.size
  text : g.text t = s

section
variable {g g' : Grammar} {t : Text} {s : String}

theorem buffer_intern (g : Grammar) (s : String) :
    (g.intern s).1.buffer.toList = g.buffer.toList ++ Utf8.encode s := Array.toList_appendList

theorem size_buffer_intern (g : Grammar) (s : String) :
    (g.intern s).1.buffer.size = g.buffer.size + (Utf8.encode s).length := by
  rw [← Array.length_toList, buffer_intern, List.length_append, Array.length_toList]

theorem text_eq (h : t.offset + t.size ≤ g.buffer.size) :
    g.text t = (Utf8.decode? ((g.buffer.toList.drop t.offset).take t.size)).getD "" := by
  rw [Grammar.text, if_pos h, Array.toList_extract, List.extract_eq_take_drop,
    Nat.add_sub_cancel_left]

/-- texts lie behind those before, which stay as they are -/
theorem Reads.intern (h : g.Reads t s) (s' : String) : (g.intern s').1.Reads t s := by
  obtain ⟨hinside, htext⟩ := h
  have hinside' : t.offset + t.size ≤ (g.intern s').1.buffer.size := by
    rw [size_buffer_intern]
    exact Nat.le_add_right_of_le hinside
  refine ⟨hinside', ?_⟩
  have hdrop : t.size ≤ (g.buffer.toList.drop t.offset).length := by
    rw [List.length_drop, Array.length_toList]
    omega
  rw [text_eq hinside', buffer_intern, List.drop_append_of_le_length (by simp; omega),
    List.take_append_of_le_length hdrop, ← text_eq hinside, htext]

theorem Reads.congr (h : g.Reads t s) (hb : g'.buffer = g.buffer) : g'.Reads t s := by
  refine ⟨hb ▸ h.inside, ?_⟩
  rw [← h.text, Grammar.text, Grammar.text, hb]

theorem reads_intern (g : Grammar) (s : String) : (g.intern s).1.Reads (g.intern s).2 s := by
  have hinside : (g.intern s).2.offset + (g.intern s).2.size ≤ (g.intern s).1.buffer.size :=
    Nat.le_of_eq (size_buffer_intern g s).symm
  refine ⟨hinside, ?_⟩
  have hoffset : (g.intern s).2.offset = g.buffer.toList.length := Array.length_toList.symm
  have hsize : (g.intern s).2.size = (Utf8.encode s).length := rfl
  rw [text_eq hinside, buffer_intern, hoffset, List.drop_left, hsize, List.take_length,
    Utf8.decode?_encode, Option.getD_some]

end

/-! ## nodes -/

/-- the node stands for the call that created it, with `below` hung below it -/
inductive Depicts (g : Grammar) (below : List TermId) : Step → Node → Prop
  | rule {name : String} {t : Text} (h : g.Reads t name) :
      Depicts g below (.rule name) (.rule t below.head?)
  | reference {target : RuleId} {o : Occurrence} :
      Depicts g below (.reference target o) (.reference target o)
  | token {m : Mask} {o : Occurrence} : Depicts g below (.token m o) (.token m o)
  | literal {s : String} {t : Text} {o : Occurrence} (h : g.Reads t s) :
      Depicts g below (.literal s o) (.literal t o)
  | alternation : Depicts g below .alternation (.alternation below)
  | concatenation : Depicts g below .concatenation (.concatenation below)
  | group {o : Occurrence} : Depicts g below (.group o) (.group below o)

section
variable {g g' : Grammar} {below : List TermId} {s : Step} {n n' : Node} {parent child : TermId}

theorem Depicts.mono (h : g.Depicts below s n) (hs : ∀ t str, g.Reads t str → g'.Reads t str) :
    g'.Depicts below s n := by
  cases h with
  | rule h => exact .rule (hs _ _ h)
  | literal h => exact .literal (hs _ _ h)
  | reference => exact .reference
  | token => exact .token
  | alternation => exact .alternation
  | concatenation => exact .concatenation
  | group => exact .group

theorem Depicts.isRule (h : g.Depicts below s n) :
    n.isRule = true ↔ ∃ name, s = .rule name := by
  cases h <;> simp [Node.isRule]

/-- a node takes one more child, unless it is a leaf or a rule that has its production -/
theorem Depicts.below_error (h : g.Depicts below s n) :
    (∃ why, g.below parent child n = .error why) ↔
      s.isLeaf = true ∨ (∃ name, s = .rule name) ∧ below ≠ [] := by
  cases h with
  | rule =>
    cases below <;> simp [Grammar.below, Step.isLeaf]
  | _ => simp [Grammar.below, Step.isLeaf]

theorem Depicts.below_ok (h : g.Depicts below s n) (hb : g.below parent child n = .ok n') :
    g.Depicts (below ++ [child]) s n' := by
  cases h with
  | rule h =>
    cases below with
    | nil =>
      cases hb
      exact .rule h
    | cons t ts => cases hb
  | reference => cases hb
  | token => cases hb
  | literal => cases hb
  | alternation =>
    cases hb
    exact .alternation
  | concatenation =>
    cases hb
    exact .concatenation
  | group =>
    cases hb
    exact .group

end

/-! ## one more call -/

/-- the call appends a node that stands for it, and changes nothing else -/
structure Appends (g : Grammar) (s : Step) (n : Node) : Prop where
  reply : (g.step s).2 = .added g.size
  size : (g.step s).1.size = g.size + 1
  node? : ∀ i, (g.step s).1.node? i = if i = g.size then some n else g.node? i
  keeps : ∀ t str, g.Reads t str → (g.step s).1.Reads t str
  depicts : (g.step s).1.Depicts [] s n

section
variable {g g' : Grammar} {s : Step} {n : Node} {parent child : TermId}

theorem appends_add (h : g.step s = added (g.add n)) (hd : ∀ g' : Grammar, g'.Depicts [] s n) :
    g.Appends s n where
  reply := by rw [h]; rfl
  size := by rw [h]; exact size_add g n
  node? i := by rw [h]; exact node?_add g n i
  keeps t str ht := by rw [h]; exact ht.congr rfl
  depicts := hd _

theorem appends_intern {str : String} (h : g.step s = added ((g.intern str).1.add n))
    (hd : ∀ g' : Grammar, g'.Reads (g.intern str).2 str → g'.Depicts [] s n) : g.Appends s n where
  reply := by rw [h]; rfl
  size := by rw [h]; exact size_add _ n
  node? i := by rw [h]; exact node?_add (g.intern str).1 n i
  keeps t str' ht := by rw [h]; exact (ht.intern str).congr rfl
  depicts := by
    refine hd _ ?_
    rw [h]
    exact (reads_intern g str).congr rfl

theorem exists_appends (g : Grammar) (hs : s.creates = true) : ∃ n, g.Appends s n := by
  cases s with
  | attach => cases hs
  | rule name => exact ⟨_, appends_intern rfl fun _ => .rule⟩
  | literal str o => exact ⟨_, appends_intern rfl fun _ => .literal⟩
  | reference target o => exact ⟨_, appends_add rfl fun _ => .reference⟩
  | token m o => exact ⟨_, appends_add rfl fun _ => .token⟩
  | alternation => exact ⟨_, appends_add rfl fun _ => .alternation⟩
  | concatenation => exact ⟨_, appends_add rfl fun _ => .concatenation⟩
  | group o => exact ⟨_, appends_add rfl fun _ => .group⟩

theorem step_attach_ok (h : g.attach parent child = .ok g') :
    g.step (.attach parent child) = (g', .attached) := by
  rw [step, h]

theorem step_attach_error {why : Refusal} (h : g.attach parent child = .error why) :
    g.step (.attach parent child) = (g, .refused why) := by
  rw [step, h]

theorem step_attach_refused_iff :
    (∃ why, (g.step (.attach parent child)).2 = .refused why) ↔
      ∃ why, g.attach parent child = .error why := by
  cases h : g.attach parent child with
  | ok g' => simp [step_attach_ok h]
  | error why => simp [step_attach_error h]

theorem step_attach_attached_iff :
    (g.step (.attach parent child)).2 = .attached ↔
      ¬ ∃ why, g.attach parent child = .error why := by
  cases h : g.attach parent child with
  | ok g' => simp [step_attach_ok h]
  | error why => simp [step_attach_error h]

end

/-- the calls account for all nodes of the grammar that they build -/
structure Describes (steps : List Step) : Prop where
  size : (build steps).size = (creations steps).length
  node : ∀ i s, (creations steps)[i]? = some s →
    ∃ n, (build steps).node? i = some n ∧ (build steps).Depicts (hungBelow steps i) s n
  /-- nothing was hung below a node before it was there -/
  fresh : ∀ i, (creations steps).length ≤ i → hungBelow steps i = []

section
variable {steps : List Step} {s : Step} {parent child : TermId}

theorem Describes.creates (h : Describes steps) (hs : s.creates = true) :
    Describes (steps ++ [s]) := by
  obtain ⟨n, happ⟩ := (build steps).exists_appends hs
  have hhung : ∀ i, hungBelow (steps ++ [s]) i = hungBelow steps i := by
    intro i
    rw [hungBelow_concat, hungBy_of_creates hs]
    exact List.append_nil _
  have hmade : creations (steps ++ [s]) = creations steps ++ [s] := creations_concat_of_creates hs
  refine ⟨?_, fun i s' hi => ?_, fun i hi => ?_⟩
  · rw [build_concat, happ.size, h.size, hmade, List.length_append]
    rfl
  · rw [hhung, build_concat, happ.node?, h.size]
    rw [hmade] at hi
    by_cases hlast : i = (creations steps).length
    · subst hlast
      rw [List.getElem?_concat_length] at hi
      obtain rfl := Option.some.inj hi
      rw [h.fresh _ (Nat.le_refl _), if_pos rfl]
      exact ⟨n, rfl, happ.depicts⟩
    · rw [if_neg hlast]
      have hlt : i < (creations steps).length := by
        have := (List.getElem?_eq_some_iff.mp hi).1
        rw [List.length_append, List.length_singleton] at this
        omega
      rw [List.getElem?_append_left hlt] at hi
      obtain ⟨m, hm, hdepicts⟩ := h.node i s' hi
      exact ⟨m, hm, hdepicts.mono happ.keeps⟩
  · rw [hhung]
    rw [hmade, List.length_append] at hi
    exact h.fresh i (Nat.le_trans (Nat.le_add_right _ _) hi)

theorem Describes.refused (h : Describes steps) {why : Refusal}
    (ha : (build steps).attach parent child = .error why) :
    Describes (steps ++ [.attach parent child]) := by
  have hsame : build (steps ++ [.attach parent child]) = build steps := by
    rw [build_concat, step_attach_error ha]
  have hhung : ∀ i, hungBelow (steps ++ [.attach parent child]) i = hungBelow steps i := by
    intro i
    rw [hungBelow_concat, step_attach_error ha]
    exact List.append_nil _
  refine ⟨?_, fun i s hi => ?_, fun i hi => ?_⟩
  · rw [hsame, creations_concat_attach]
    exact h.size
  · rw [creations_concat_attach] at hi
    rw [hsame, hhung]
    exact h.node i s hi
  · rw [creations_concat_attach] at hi
    rw [hhung]
    exact h.fresh i hi

theorem Describes.attached (h : Describes steps) {g' : Grammar}
    (ha : (build steps).attach parent child = .ok g') :
    Describes (steps ++ [.attach parent child]) := by
  have hnew : build (steps ++ [.attach parent child]) = g' := by
    rw [build_concat, step_attach_ok ha]
  have hhung : ∀ i, hungBelow (steps ++ [.attach parent child]) i =
      hungBelow steps i ++ (if parent = i then some child else none).toList := by
    intro i
    rw [hungBelow_concat, step_attach_ok ha]
    rfl
  obtain ⟨_, n, n', hn, hb, rfl⟩ := attach_cases ha
  have hlt : parent < (creations steps).length := h.size ▸ lt_size_of_node? hn
  refine ⟨?_, fun i s hi => ?_, fun i hi => ?_⟩
  · rw [hnew, creations_concat_attach, ← h.size]
    exact Array.size_setIfInBounds
  · rw [creations_concat_attach] at hi
    rw [hnew, hhung, node?_set hn]
    obtain ⟨m, hm, hdepicts⟩ := h.node i s hi
    by_cases he : parent = i
    · subst he
      obtain rfl := Option.some.inj (hn.symm.trans hm)
      rw [if_pos rfl, if_pos rfl]
      exact ⟨n', rfl, (hdepicts.below_ok hb).mono fun _ _ ht => ht.congr rfl⟩
    · rw [if_neg he, if_neg he, Option.toList_none, List.append_nil]
      exact ⟨m, hm, hdepicts.mono fun _ _ ht => ht.congr rfl⟩
  · rw [creations_concat_attach] at hi
    have he : parent ≠ i := Nat.ne_of_lt (Nat.lt_of_lt_of_le hlt hi)
    rw [hhung, h.fresh i hi, if_neg he]
    rfl

theorem Describes.step (h : Describes steps) (s : Step) : Describes (steps ++ [s]) := by
  cases s with
  | attach parent child =>
    cases ha : (build steps).attach parent child with
    | ok g' => exact h.attached ha
    | error why => exact h.refused ha
  | _ => exact h.creates rfl

theorem describes_build (steps : List Step) : Describes steps := by
  -- from the end of the list, as an answer depends on all calls before it
  induction steps using List.reverseRecOn with
  | nil => exact ⟨rfl, (fun i s hi => by cases hi), fun _ _ => rfl⟩
  | append_singleton steps s ih => exact ih.step s

end

/-! ## refused calls -/

/-- why a child cannot be hung below a node, as the calls before tell -/
inductive Refuses (before : List Step) (parent child : TermId) : Prop
  | unknownChild (h : (creations before)[child]? = none)
  | childIsRule {name : String} (h : (creations before)[child]? = some (.rule name))
  | unknownParent (h : (creations before)[parent]? = none)
  | leafParent {s : Step} (h : (creations before)[parent]? = some s) (hs : s.isLeaf = true)
  | secondProduction {name : String} (h : (creations before)[parent]? = some (.rule name))
      (hp : hungBelow before parent ≠ [])

section
variable {g : Grammar} {steps : List Step} {s : Step} {k : Nat} {n : Node} {parent child : TermId}

theorem attach_of_isTerm (hc : g.IsTerm child) (hn : g.node? parent = some n) :
    g.attach parent child = (g.below parent child n).map fun n =>
      { g with nodes := g.nodes.setIfInBounds parent n } := by
  obtain ⟨m, hm, hr⟩ := hc
  cases m with
  | rule => cases hr
  | _ => simp only [attach, hm, hn]

theorem attach_unknown_parent (hc : g.IsTerm child) (hn : g.node? parent = none) :
    g.attach parent child = .error (.unknownNode parent) := by
  obtain ⟨m, hm, hr⟩ := hc
  cases m with
  | rule => cases hr
  | _ => simp only [attach, hm, hn]

theorem exists_map_error {α β : Type} {e : Except Refusal α} {f : α → β} :
    (∃ why, e.map f = .error why) ↔ ∃ why, e = .error why := by
  cases e with
  | ok a => simp [Except.map]
  | error why => simp [Except.map]

theorem Describes.node?_eq_none (h : Describes steps) {i : TermId}
    (hi : (creations steps)[i]? = none) : (build steps).node? i = none := by
  refine node?_of_size_le ?_
  rw [h.size]
  exact List.getElem?_eq_none_iff.mp hi

/-- if the child is a term and the parent is there, the parent decides -/
theorem refuses_iff {c p : Step} (hc : (creations steps)[child]? = some c)
    (hrule : ¬ ∃ name, c = .rule name) (hp : (creations steps)[parent]? = some p) :
    Refuses steps parent child ↔
      p.isLeaf = true ∨ (∃ name, p = .rule name) ∧ hungBelow steps parent ≠ [] := by
  constructor
  · intro h
    cases h with
    | unknownChild h' => cases hc.symm.trans h'
    | childIsRule h' => exact absurd ⟨_, Option.some.inj (hc.symm.trans h')⟩ hrule
    | unknownParent h' => cases hp.symm.trans h'
    | leafParent h' hs =>
      obtain rfl := Option.some.inj (hp.symm.trans h')
      exact .inl hs
    | secondProduction h' hne => exact .inr ⟨⟨_, Option.some.inj (hp.symm.trans h')⟩, hne⟩
  · rintro (hleaf | ⟨⟨name, rfl⟩, hne⟩)
    · exact .leafParent hp hleaf
    · exact .secondProduction hp hne

theorem Describes.attach_error (h : Describes steps) :
    (∃ why, (build steps).attach parent child = .error why) ↔ Refuses steps parent child := by
  -- the child is looked at first, then the parent, then what the parent has already
  cases hc : (creations steps)[child]? with
  | none =>
    refine iff_of_true ⟨.unknownNode child, ?_⟩ (.unknownChild hc)
    rw [Grammar.attach, h.node?_eq_none hc]
  | some c =>
    obtain ⟨m, hm, hdepicts⟩ := h.node child c hc
    by_cases hrule : ∃ name, c = .rule name
    · obtain ⟨name, rfl⟩ := hrule
      refine iff_of_true ?_ (.childIsRule hc)
      cases hdepicts
      exact ⟨_, by rw [Grammar.attach, hm]⟩
    have hterm : (build steps).IsTerm child :=
      ⟨m, hm, Bool.eq_false_iff.mpr (mt hdepicts.isRule.mp hrule)⟩
    cases hp : (creations steps)[parent]? with
    | none =>
      exact iff_of_true ⟨_, attach_unknown_parent hterm (h.node?_eq_none hp)⟩ (.unknownParent hp)
    | some p =>
      obtain ⟨n, hn, hdepicts'⟩ := h.node parent p hp
      rw [attach_of_isTerm hterm hn, exists_map_error, hdepicts'.below_error,
        refuses_iff hc hrule hp]

theorem run_reply_of_getElem? (h : steps[k]? = some s) :
    (g.run steps).2[k]? = some ((g.run (steps.take k)).1.step s).2 := by
  induction steps generalizing g k with
  | nil => cases h
  | cons s' rest ih =>
    cases k with
    | zero =>
      obtain rfl := Option.some.inj h
      rfl
    | succ k => exact ih (g := (g.step s').1) h

/-- a call is answered by the grammar that the calls before it built -/
theorem reply_of_getElem? (h : steps[k]? = some s) :
    (run {} steps).2[k]? = some ((build (steps.take k)).step s).2 := run_reply_of_getElem? h

theorem build_take_succ (h : steps[k]? = some s) :
    build (steps.take (k + 1)) = ((build (steps.take k)).step s).1 := by
  rw [List.take_add_one, h]
  exact build_concat

end

/-! ## answers -/

section
variable {steps : List Step} {s : Step} {name : String} {i : TermId}

theorem Describes.literal (h : Describes steps) {str : String} {o : Occurrence}
    (hi : (creations steps)[i]? = some (.literal str o)) :
    ∃ t, (build steps).node? i = some (.literal t o) ∧ (build steps).text t = str := by
  obtain ⟨n, hn, hdepicts⟩ := h.node i _ hi
  cases hdepicts with
  | literal htext => exact ⟨_, hn, htext.text⟩

theorem Describes.production? (h : Describes steps)
    (hi : (creations steps)[i]? = some (.rule name)) :
    (build steps).production? i = (hungBelow steps i).head? := by
  obtain ⟨n, hn, hdepicts⟩ := h.node i _ hi
  cases hdepicts with
  | rule => exact production?_of_node? hn

theorem Describes.children (h : Describes steps) (hi : (creations steps)[i]? = some s)
    (hs : s.isCompound = true) : (build steps).children i = hungBelow steps i := by
  obtain ⟨n, hn, hdepicts⟩ := h.node i s hi
  rw [Grammar.children, hn]
  cases hdepicts with
  | rule => cases hs
  | reference => cases hs
  | token => cases hs
  | literal => cases hs
  | _ => rfl

theorem Describes.ruleName?_eq_some_iff (h : Describes steps) :
    (build steps).ruleName? i = some name ↔ (creations steps)[i]? = some (.rule name) := by
  cases hi : (creations steps)[i]? with
  | none => simp [ruleName?, h.node?_eq_none hi]
  | some s =>
    obtain ⟨n, hn, hdepicts⟩ := h.node i s hi
    cases hdepicts with
    | rule htext => simp [ruleName?, hn, htext.text]
    | _ => simp [ruleName?, hn]

theorem asRule?_of_ruleName? {g : Grammar} (h : g.ruleName? i = some name) :
    (g.asRule? i).isSome = true := by
  unfold ruleName? at h
  split at h
  · rename_i hn
    rw [asRule?, hn]
    rfl
  · cases h

theorem find?_range_getElem? (l : List Step) (s : Step) :
    (List.range l.length).find? (fun i => l[i]? = some s) = l.findIdx? (· = s) := by
  refine Option.ext fun i => ?_
  rw [List.find?_range_eq_some, List.findIdx?_eq_some_iff_getElem]
  constructor
  · rintro ⟨hi, _, hbefore⟩
    obtain ⟨hlt, he⟩ := List.getElem?_eq_some_iff.mp (of_decide_eq_true hi)
    refine ⟨hlt, decide_eq_true he, fun j hj hs => ?_⟩
    have hno := hbefore j hj
    rw [List.getElem?_eq_getElem (Nat.lt_trans hj hlt), of_decide_eq_true hs] at hno
    simp at hno
  · rintro ⟨hlt, he, hbefore⟩
    refine ⟨?_, List.mem_range.mpr hlt, fun j hj => ?_⟩
    · rw [List.getElem?_eq_getElem hlt, of_decide_eq_true he]
      simp
    · rw [List.getElem?_eq_getElem (Nat.lt_trans hj hlt)]
      simpa using hbefore j hj

theorem Describes.findRule? (h : Describes steps) (name : String) :
    (build steps).findRule? name = (creations steps).findIdx? (· = .rule name) := by
  rw [Grammar.findRule?, rules, List.find?_filter, h.size, ← find?_range_getElem?]
  congr 1
  funext i
  refine decide_eq_decide.mpr ?_
  rw [beq_iff_eq, ← h.ruleName?_eq_some_iff]
  exact ⟨And.right, fun hn => ⟨asRule?_of_ruleName? hn, hn⟩⟩

end

/-! ## all of it -/

/-- what a grammar answers is what the calls that built it say -/
structure FollowsCalls (steps : List Step) : Prop where
  /-- a call that appends a node answers with the number of nodes before -/
  added : ∀ (k : Nat) (s : Step), steps[k]? = some s → s.creates = true →
    (run {} steps).2[k]? = some (.added (creations (steps.take k)).length)
  /-- there are no other nodes -/
  size : (build steps).size = (creations steps).length
  /-- a node is what its call asked for -/
  node : ∀ (i : TermId) (s : Step), (creations steps)[i]? = some s →
    ∃ n, (build steps).node? i = some n ∧ (build steps).Depicts (hungBelow steps i) s n
  ruleName : ∀ (i : RuleId) (name : String), (creations steps)[i]? = some (.rule name) →
    (build steps).ruleName? i = some name
  literal : ∀ (i : TermId) (s : String) (o : Occurrence),
    (creations steps)[i]? = some (.literal s o) →
      ∃ t, (build steps).node? i = some (.literal t o) ∧ (build steps).text t = s
  /-- the production of a rule is what was hung below it first -/
  production : ∀ (i : RuleId) (name : String), (creations steps)[i]? = some (.rule name) →
    (build steps).production? i = (hungBelow steps i).head?
  /-- the children of a compound term are what was hung below it, in order -/
  children : ∀ (i : TermId) (s : Step), (creations steps)[i]? = some s → s.isCompound = true →
    (build steps).children i = hungBelow steps i
  attached : ∀ (k : Nat) (parent child : TermId), steps[k]? = some (.attach parent child) →
    ((run {} steps).2[k]? = some .attached ↔ ¬ Refuses (steps.take k) parent child)
  refused : ∀ (k : Nat) (parent child : TermId), steps[k]? = some (.attach parent child) →
    ((∃ why, (run {} steps).2[k]? = some (.refused why)) ↔ Refuses (steps.take k) parent child)
  unchanged : ∀ (k : Nat) (why : Refusal), (run {} steps).2[k]? = some (.refused why) →
    build (steps.take (k + 1)) = build (steps.take k)
  /-- the first rule of a name is the one that is found -/
  findRule : ∀ name : String,
    (build steps).findRule? name = (creations steps).findIdx? (· = .rule name)

section
variable {steps : List Step} {k : Nat} {s : Step} {parent child : TermId}

theorem added_of_creates (h : steps[k]? = some s) (hs : s.creates = true) :
    (run {} steps).2[k]? = some (.added (creations (steps.take k)).length) := by
  obtain ⟨n, happ⟩ := (build (steps.take k)).exists_appends hs
  rw [reply_of_getElem? h, happ.reply, (describes_build _).size]

theorem refused_iff (h : steps[k]? = some (.attach parent child)) :
    (∃ why, (run {} steps).2[k]? = some (.refused why)) ↔ Refuses (steps.take k) parent child := by
  rw [reply_of_getElem? h, ← (describes_build (steps.take k)).attach_error,
    ← step_attach_refused_iff]
  simp only [Option.some.injEq]

theorem attached_iff (h : steps[k]? = some (.attach parent child)) :
    (run {} steps).2[k]? = some .attached ↔ ¬ Refuses (steps.take k) parent child := by
  rw [reply_of_getElem? h, ← (describes_build (steps.take k)).attach_error,
    ← step_attach_attached_iff, Option.some.injEq]

theorem unchanged_of_refused {why : Refusal} (h : (run {} steps).2[k]? = some (.refused why)) :
    build (steps.take (k + 1)) = build (steps.take k) := by
  have hlt : k < steps.length := length_run {} steps ▸ (List.getElem?_eq_some_iff.mp h).1
  have hs : steps[k]? = some steps[k] := List.getElem?_eq_getElem hlt
  rw [reply_of_getElem? hs] at h
  rw [build_take_succ hs]
  have hreply := Option.some.inj h
  cases hcall : steps[k] with
  | attach parent child =>
    rw [hcall] at hreply
    exact step_attach_refused hreply
  | _ =>
    rw [hcall] at hreply
    cases hreply

/-- whatever calls are made, the grammar is what they say -/
theorem build_follows_calls (steps : List Step) : FollowsCalls steps := by
  have h := describes_build steps
  exact
    { added := fun k s => added_of_creates
      size := h.size
      node := h.node
      ruleName := fun i name hi => h.ruleName?_eq_some_iff.mpr hi
      literal := fun i s o hi => h.literal hi
      production := fun i name hi => h.production? hi
      children := fun i s hi hs => h.children hi hs
      attached := fun k parent child => attached_iff
      refused := fun k parent child => refused_iff
      unchanged := fun k why => unchanged_of_refused
      findRule := h.findRule? }

/-- the second production is refused, and so is the rule as a child; the reference stays -/
example :
    let steps : List Step :=
      [.rule "ä", .rule "", .reference 7 .one, .attach 0 2, .attach 0 2, .attach 2 1]
    hungBelow steps 0 = [2] ∧ hungBelow steps 2 = [] ∧ (build steps).ruleName? 0 = some "ä" := by
  decide +kernel

end

end Ebnf.Grammar
