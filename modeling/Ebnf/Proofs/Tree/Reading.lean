import Ebnf.Proofs.Tree.Coverage

/-!
# Grammars read as EBNF, over the nodes of a tree

A term of a grammar says which rows of sibling nodes it stands for, and at which tokens.  Here an
alternation means any of its children and a repetition any number of matches: nothing is ordered,
greedy or undone.

* `Occurrence.Allows`   how many matches an occurrence asks for;
* `Shows`               a node comes from a term, with a kind and a range of tokens;
* `Generates`           a term, or what terms are made of, stands for a row of nodes;
* `tops`                the topmost nodes of a stretch of the row of all nodes;
* `FromTerm`            the term of a node is of the kind of the node;
* `Expands`             the nodes right below a rule's node are a row that its production stands for;
* `Derivation`          so it is with all nodes of a tree.
-/

namespace Ebnf

/-- so many matches in a row are what the occurrence asks for -/
def Occurrence.Allows (o : Occurrence) (k : Nat) : Prop :=
  match o.isOptional, o.isRepeated with
  | false, false => k = 1
  | true, false => k ≤ 1
  | false, true => 1 ≤ k
  | true, true => True

theorem Occurrence.allows_zero {o : Occurrence} (h : o.isOptional = true) : o.Allows 0 := by
  unfold Allows
  rw [h]
  cases o.isRepeated <;> simp

theorem Occurrence.allows_one (o : Occurrence) : o.Allows 1 := by
  unfold Allows
  cases o.isOptional <;> cases o.isRepeated <;> simp

theorem Occurrence.allows_of_pos {o : Occurrence} {k : Nat} (h : o.isRepeated = true)
    (hk : 0 < k) : o.Allows k := by
  unfold Allows
  rw [h]
  cases o.isOptional with
  | false => exact hk
  | true => trivial

namespace Tree

/-- the node comes from the term `u` and has the tokens from `i` on and before `j` -/
def Shows (t : Tree) (id : NodeId) (kind : Kind) (u : TermId) (i j : Nat) : Prop :=
  ∃ n, t.node? id = some n ∧ n.kind = kind ∧ n.term = some u ∧ n.tokens = ⟨i, j⟩

inductive Part where
  /-- a term, as often as it may occur -/
  | term (u : TermId)
  /-- so many matches of a term, one behind the other -/
  | times (k : Nat) (u : TermId)
  /-- a single match of a term -/
  | once (u : TermId)
  | inOrder (us : List TermId)

/-- the part stands for the nodes `ids`, over the tokens from `i` on and before `j` -/
inductive Generates (x : Lexed) (g : Grammar) (t : Tree) :
    Part → (i : Nat) → (ids : List NodeId) → (j : Nat) → Prop where
  | term {u n k i ids j} (hu : g.node? u = some n) (hk : n.occurrence.Allows k)
      (h : Generates x g t (.times k u) i ids j) : Generates x g t (.term u) i ids j
  | noTimes {u i} : Generates x g t (.times 0 u) i [] i
  | oneTime {k u i ids j ids' l} (h : Generates x g t (.once u) i ids j)
      (hr : Generates x g t (.times k u) j ids' l) :
      Generates x g t (.times (k + 1) u) i (ids ++ ids') l
  | token {u m o i id mask} (hu : g.node? u = some (.token m o)) (hm : mask.intersects m = true)
      (hs : t.Shows id (.token mask) u i (i + 1)) : Generates x g t (.once u) i [id] (i + 1)
  /-- the end of the input leaves no node -/
  | atEnd {u m o} (hu : g.node? u = some (.token m o)) (hm : m.isEof = true) :
      Generates x g t (.once u) x.size [] x.size
  | literal {u text o i id j} (hu : g.node? u = some (.literal text o))
      (hb : x.covered i j = Utf8.encode (g.text text)) (hs : t.Shows id .literal u i j) :
      Generates x g t (.once u) i [id] j
  | reference {u target o i id j} (hu : g.node? u = some (.reference target o))
      (hs : t.Shows id (.rule target) u i j) : Generates x g t (.once u) i [id] j
  | alternation {u us v i ids j} (hu : g.node? u = some (.alternation us)) (hv : v ∈ us)
      (h : Generates x g t (.term v) i ids j) : Generates x g t (.once u) i ids j
  | concatenation {u us i ids j} (hu : g.node? u = some (.concatenation us))
      (h : Generates x g t (.inOrder us) i ids j) : Generates x g t (.once u) i ids j
  | group {u us o i ids j} (hu : g.node? u = some (.group us o))
      (h : Generates x g t (.inOrder us) i ids j) : Generates x g t (.once u) i ids j
  | allDone {i} : Generates x g t (.inOrder []) i [] i
  | nextOne {v us i ids j ids' l} (h : Generates x g t (.term v) i ids j)
      (hr : Generates x g t (.inOrder us) j ids' l) :
      Generates x g t (.inOrder (v :: us)) i (ids ++ ids') l

/-- the term of a node is of the node's kind, and the node is one that the term can match -/
def FromTerm (x : Lexed) (g : Grammar) (n : Node) : Prop :=
  match n.kind with
  | .token mask => mask = (x.token n.tokens.start).mask ∧
      ∃ u m o, n.term = some u ∧ g.node? u = some (.token m o) ∧ mask.intersects m = true
  | .literal => ∃ u text o, n.term = some u ∧ g.node? u = some (.literal text o) ∧
      x.spanBytes n.span = Utf8.encode (g.text text)
  | .rule r => ∃ u o, n.term = some u ∧ g.node? u = some (.reference r o)

/-- the nodes right below the node of a rule are a row that the rule's production stands for -/
def Expands (x : Lexed) (g : Grammar) (t : Tree) (id : NodeId) (n : Node) : Prop :=
  ∀ r, n.kind = .rule r → ∃ p, g.production? r = some p ∧
    Generates x g t (.term p) n.tokens.start (t.children id) n.tokens.stop

/-- the tree is a derivation of the source from the start rule: that is the rule of the root, each
other node comes from a term of its kind, and what lies right below a rule's node is a row that the
rule's production stands for -/
structure Derivation (x : Lexed) (g : Grammar) (start : RuleId) (t : Tree) : Prop where
  root : ∃ n, t.node? rootId = some n ∧ n.kind = .rule start ∧ n.tokens = ⟨0, x.size⟩
  terms : ∀ id n, t.node? id = some n → id ≠ rootId → FromTerm x g n
  productions : ∀ id n, t.node? id = some n → Expands x g t id n

section
variable {x : Lexed} {g : Grammar} {t u : Tree} {p lo mid hi i j k a : Nat} {ids : List NodeId}
  {q : Part}

/-! ## rows of nodes in trees that agree on them -/

theorem Shows.of_node {id : NodeId} {kind : Kind} {v : TermId} (h : t.Shows id kind v i j)
    (hu : u.node? id = t.node? id) : u.Shows id kind v i j := by
  obtain ⟨n, hn, hrest⟩ := h
  exact ⟨n, hu.trans hn, hrest⟩

theorem Generates.of_nodes (h : Generates x g t q i ids j)
    (hu : ∀ id ∈ ids, u.node? id = t.node? id) : Generates x g u q i ids j := by
  induction h with
  | term hn hk _ ih => exact .term hn hk (ih hu)
  | noTimes => exact .noTimes
  | oneTime _ _ ih ihr =>
    exact .oneTime (ih fun id hid => hu id (List.mem_append_left _ hid))
      (ihr fun id hid => hu id (List.mem_append_right _ hid))
  | token hn hm hs => exact .token hn hm (hs.of_node (hu _ List.mem_cons_self))
  | atEnd hn hm => exact .atEnd hn hm
  | literal hn hb hs => exact .literal hn hb (hs.of_node (hu _ List.mem_cons_self))
  | reference hn hs => exact .reference hn (hs.of_node (hu _ List.mem_cons_self))
  | alternation hn hv _ ih => exact .alternation hn hv (ih hu)
  | concatenation hn _ ih => exact .concatenation hn (ih hu)
  | group hn _ ih => exact .group hn (ih hu)
  | allDone => exact .allDone
  | nextOne _ _ ih ihr =>
    exact .nextOne (ih fun id hid => hu id (List.mem_append_left _ hid))
      (ihr fun id hid => hu id (List.mem_append_right _ hid))

theorem Generates.times_one {v : TermId} (h : Generates x g t (.once v) i ids j) :
    Generates x g t (.times 1 v) i ids j := by
  have hrow : Generates x g t (.times 1 v) i (ids ++ []) j := .oneTime h .noTimes
  rwa [List.append_nil] at hrow

/-! ## the topmost nodes of a stretch -/

/-- the topmost nodes of the stretch from `lo` on and before `hi` -/
def tops (t : Tree) (lo hi : Nat) : List NodeId := t.siblings 0 (List.range' lo (hi - lo))

theorem children_eq_tops (t : Tree) (id : NodeId) :
    t.children id = t.tops (id + 1) (t.stop id) := rfl

@[simp] theorem tops_self (t : Tree) (lo : Nat) : t.tops lo lo = [] := by
  rw [tops, Nat.sub_self]
  rfl

theorem tops_cons (h : lo < mid) (h' : mid ≤ hi) (hstop : t.stop lo = mid) :
    t.tops lo hi = lo :: t.tops mid hi := siblings_range' h h' hstop

theorem Forest.tops_append (h : Forest x t p lo mid i k) (hmid : mid ≤ hi) :
    t.tops lo hi = t.tops lo mid ++ t.tops mid hi := by
  induction h with
  | nil => rw [tops_self, List.nil_append]
  | leaf hn _ hc rest ih =>
    have hle := rest.lo_le
    have hstop := hc.stop_eq hn
    rw [tops_cons (Nat.lt_succ_self _) (by omega) hstop, tops_cons (Nat.lt_succ_self _) hle hstop,
      ih hmid]
    rfl
  | rule hn _ hc inner rest _ ih =>
    have hlt := inner.lo_le
    have hle := rest.lo_le
    have hstop := hc.stop_eq hn
    rw [tops_cons hlt (by omega) hstop, tops_cons hlt hle hstop, ih hmid]
    rfl

theorem Forest.tops_congr (h : Forest x t p lo hi i j)
    (hu : ∀ a, lo ≤ a → a < hi → u.node? a = t.node? a) : u.tops lo hi = t.tops lo hi := by
  induction h with
  | nil => simp
  | @leaf p lo hi i k j n hn _ hc rest ih =>
    have hle := rest.lo_le
    have hn' : u.node? lo = some n := (hu lo (Nat.le_refl _) (by omega)).trans hn
    rw [tops_cons (Nat.lt_succ_self _) hle (hc.stop_eq hn),
      tops_cons (Nat.lt_succ_self _) hle (hc.stop_eq hn'), ih fun a h1 h2 => hu a (by omega) h2]
  | @rule p lo mid hi i k j n hn _ hc inner rest _ ih =>
    have hlt := inner.lo_le
    have hle := rest.lo_le
    have hn' : u.node? lo = some n := (hu lo (Nat.le_refl _) (by omega)).trans hn
    rw [tops_cons hlt hle (hc.stop_eq hn), tops_cons hlt hle (hc.stop_eq hn'),
      ih fun a h1 h2 => hu a (by omega) h2]

theorem mem_of_mem_siblings {skip : Nat} {all : List NodeId} {id : NodeId}
    (h : id ∈ t.siblings skip all) : id ∈ all := by
  induction all generalizing skip with
  | nil => cases skip <;> cases h
  | cons b all ih =>
    cases skip with
    | zero =>
      rcases List.mem_cons.mp h with rfl | h
      · exact List.mem_cons_self
      · exact List.mem_cons_of_mem _ (ih h)
    | succ skip => exact List.mem_cons_of_mem _ (ih h)

theorem bounds_of_mem_tops {id : Nat} (h : id ∈ t.tops lo hi) : lo ≤ id ∧ id < hi := by
  have hid : lo ≤ id ∧ id < lo + (hi - lo) := List.mem_range'_1.mp (mem_of_mem_siblings h)
  omega

/-! ## nodes that stay what they are -/

/-- the nodes of the stretch are such as a derivation has -/
def Derived (x : Lexed) (g : Grammar) (t : Tree) (lo hi : Nat) : Prop :=
  ∀ a n, lo ≤ a → a < hi → t.node? a = some n → FromTerm x g n ∧ Expands x g t a n

/-- a row that a part stands for is one in every tree that agrees on the stretch of the row -/
theorem Generates.of_stretch (h : Generates x g t q i (t.tops lo hi) j)
    (hf : Forest x t p lo hi i j) (hu : ∀ a, lo ≤ a → a < hi → u.node? a = t.node? a) :
    Generates x g u q i (u.tops lo hi) j := by
  rw [hf.tops_congr hu]
  refine h.of_nodes fun id hid => ?_
  obtain ⟨h1, h2⟩ := bounds_of_mem_tops hid
  exact hu id h1 h2

theorem Forest.children_congr (h : Forest x t p lo hi i j)
    (hu : ∀ a, lo ≤ a → a < hi → u.node? a = t.node? a) (ha : lo ≤ a) (ha' : a < hi) :
    u.children a = t.children a ∧ ∀ b : Nat, b ∈ t.children a → lo ≤ b ∧ b < hi := by
  obtain ⟨q, stop, i', k', hs, hle, _⟩ := h.subtree ha ha'
  have hstop := hs.stop_eq
  have hstop' : u.stop a = stop := by
    obtain ⟨n, hn, hc⟩ := hs.exists_covers
    exact hc.stop_eq ((hu a ha ha').trans hn)
  rw [children_eq_tops, children_eq_tops, hstop, hstop']
  constructor
  · cases hs with
    | leaf => simp
    | rule _ _ _ inner => exact inner.tops_congr fun b h1 h2 => hu b (by omega) (by omega)
  · intro b hb
    obtain ⟨h1, h2⟩ := bounds_of_mem_tops hb
    omega

theorem Derived.of_nodes (h : Derived x g t lo hi) (hf : Forest x t p lo hi i j)
    (hu : ∀ a, lo ≤ a → a < hi → u.node? a = t.node? a) : Derived x g u lo hi := by
  intro a n ha ha' hn
  obtain ⟨hterm, hexp⟩ := h a n ha ha' ((hu a ha ha').symm.trans hn)
  refine ⟨hterm, fun r hr => ?_⟩
  obtain ⟨p, hp, hgen⟩ := hexp r hr
  obtain ⟨hch, hin⟩ := hf.children_congr hu ha ha'
  refine ⟨p, hp, ?_⟩
  rw [hch]
  exact hgen.of_nodes fun b hb => hu b (hin b hb).1 (hin b hb).2

theorem Derived.append (h : Derived x g t lo mid) (h' : Derived x g t mid hi) :
    Derived x g t lo hi := by
  intro a n ha ha' hn
  rcases Nat.lt_or_ge a mid with hlt | hge
  · exact h a n ha hlt hn
  · exact h' a n hge ha' hn

theorem Derived.nil (x : Lexed) (g : Grammar) (t : Tree) (lo : Nat) : Derived x g t lo lo := by
  intro a n ha ha' _
  omega

end

end Tree

end Ebnf
