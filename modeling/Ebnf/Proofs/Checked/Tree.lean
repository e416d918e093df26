import Ebnf.Proofs.Checked.Source
import Ebnf.Proofs.Tree.Coverage

/-!
# A tree is walked without overflow

The walks over a tree, with the sums of node numbers checked, and each look-up of a node that is
taken to be there.  The row of an accepted source is laid out so that no walk leaves it.

* `subtreeStop`          where the subtree of a node ends, as a word;
* `children`, `subtree`, `rule?`, `rules`, `terminals`, `text`   the walks;
* `Walks`                the walks give what they give without the checks, and so do the lengths of
                         the ranges of each node;
* `walks`                so it is in each tree that is laid out and smaller than the largest word.
-/

namespace Ebnf

namespace Checked

/-! ## walks -/

/-- the index after the subtree of a node; the largest word as long as it is not known -/
def subtreeStop (n : Tree.Node) : Nat := n.subtreeEnd.getD Word.maxWord

def node (t : Tree) (id : NodeId) : Checked Tree.Node := get t.nodes.toList id

/-- the nodes before `stop` that lie side by side, from `next` on, at most so many -/
def siblings (t : Tree) (stop : Nat) : (rounds next : Nat) → List NodeId
  | 0, _ => []
  | rounds + 1, next =>
    if next < stop then
      match t.node? next with
      | some n => next :: siblings t stop rounds (subtreeStop n)
      | none => []
    else []

def children (t : Tree) (id : NodeId) : Checked (List NodeId) :=
  match t.node? id with
  | some n => do
    let next ← Word.add id 1
    return siblings t (subtreeStop n) t.size next
  | none => return []

def subtree (t : Tree) (id : NodeId) : List NodeId :=
  match t.node? id with
  | some n => List.range' id (subtreeStop n - id)
  | none => []

def firstMatch (t : Tree) (rule : RuleId) : List NodeId → Checked (Option NodeId)
  | [] => return none
  | id :: ids => do
    let n ← node t id
    if n.rule? = some rule then return some id else firstMatch t rule ids

def rule? (t : Tree) (id : NodeId) (rule : RuleId) : Checked (Option NodeId) :=
  firstMatch t rule (subtree t id)

/-- the matches of `rule` before `stop`, from `next` on, that lie in no other one; at most so many
nodes are looked at -/
def outermost (t : Tree) (rule : RuleId) (stop : Nat) :
    (rounds next : Nat) → Checked (List NodeId)
  | 0, _ => return []
  | rounds + 1, next => do
    if next < stop then
      match t.node? next with
      | some n =>
        if n.rule? = some rule then
          let rest ← outermost t rule stop rounds (subtreeStop n)
          return next :: rest
        else
          let next ← Word.add next 1
          outermost t rule stop rounds next
      | none => return []
    else return []

def rules (t : Tree) (id : NodeId) (rule : RuleId) : Checked (List NodeId) :=
  match t.node? id with
  | some n => outermost t rule (subtreeStop n) t.size id
  | none => return []

def terminalsOf (t : Tree) : List NodeId → Checked (List NodeId)
  | [] => return []
  | id :: ids => do
    let n ← node t id
    let rest ← terminalsOf t ids
    return if n.isTerminal then id :: rest else rest

def terminals (t : Tree) (id : NodeId) : Checked (List NodeId) := terminalsOf t (subtree t id)

def bytesOf (x : Lexed) (t : Tree) : List NodeId → Checked (List UInt8)
  | [] => return []
  | id :: ids => do
    let n ← node t id
    let bytes ← spanBytes x n.span
    let rest ← bytesOf x t ids
    return bytes ++ rest

def text (x : Lexed) (t : Tree) (id : NodeId) : Checked String := do
  let ids ← terminals t id
  let bytes ← bytesOf x t ids
  return Utf8.decodeLossy bytes

/-- no walk over `t` fails, whatever node it begins at -/
structure Walks (x : Lexed) (t : Tree) : Prop where
  tokens : ∀ id n, t.node? id = some n → n.tokens.sizeChecked = .ok n.tokens.size
  span : ∀ id n, t.node? id = some n → n.span.sizeChecked = .ok n.span.size
  children : ∀ id, Checked.children t id = .ok (t.children id)
  subtree : ∀ id, Checked.subtree t id = t.subtree id
  rule? : ∀ id rule, Checked.rule? t id rule = .ok (t.rule? id rule)
  rules : ∀ id rule, Checked.rules t id rule = .ok (t.rules id rule)
  terminals : ∀ id, Checked.terminals t id = .ok (t.terminals id)
  text : ∀ id, Checked.text x t id = .ok (t.text x id)

section
variable {t : Tree} {id : NodeId} {ids : List NodeId}

theorem node_eq {n : Tree.Node} (hn : t.node? id = some n) : node t id = .ok n :=
  get_eq_ok (by rw [Array.getElem?_toList]; exact hn)

theorem exists_node (hid : id < t.size) : ∃ n, t.node? id = some n :=
  ⟨_, Array.getElem?_eq_getElem hid⟩

theorem firstMatch_eq (h : ∀ id ∈ ids, id < t.size) (rule : RuleId) :
    firstMatch t rule ids = .ok (ids.find? fun n => t.ruleOf n = some rule) := by
  induction ids with
  | nil => rfl
  | cons id ids ih =>
    obtain ⟨n, hn⟩ := exists_node (h id List.mem_cons_self)
    have e : t.ruleOf id = n.rule? := by rw [Tree.ruleOf, hn]; rfl
    rw [firstMatch, node_eq hn, ok_bind, ih fun k hk => h k (List.mem_cons_of_mem id hk),
      List.find?_cons, e]
    by_cases hr : n.rule? = some rule
    · rw [if_pos hr, decide_eq_true hr]
      rfl
    · rw [if_neg hr, decide_eq_false hr]

theorem terminalsOf_eq (h : ∀ id ∈ ids, id < t.size) :
    terminalsOf t ids = .ok (ids.filter t.isTerminal) := by
  induction ids with
  | nil => rfl
  | cons id ids ih =>
    obtain ⟨n, hn⟩ := exists_node (h id List.mem_cons_self)
    rw [terminalsOf, node_eq hn, ok_bind, ih fun k hk => h k (List.mem_cons_of_mem id hk), ok_bind,
      List.filter_cons, Tree.isTerminal_eq hn]
    rfl

theorem bytesOf_eq (x : Lexed) (h : ∀ id ∈ ids, id < t.size) :
    bytesOf x t ids = .ok (ids.flatMap (t.bytes x)) := by
  induction ids with
  | nil => rfl
  | cons id ids ih =>
    obtain ⟨n, hn⟩ := exists_node (h id List.mem_cons_self)
    have e : t.bytes x id = x.spanBytes n.span := by rw [Tree.bytes, hn]
    rw [bytesOf, node_eq hn, ok_bind, spanBytes_eq, ok_bind,
      ih fun k hk => h k (List.mem_cons_of_mem id hk), ok_bind, List.flatMap_cons, e]
    rfl

end

section
variable {start : RuleId} {t : Tree} (h : t.Layout start)
include h

theorem subtreeStop_eq {id : NodeId} {n : Tree.Node} (hn : t.node? id = some n) :
    subtreeStop n = t.stop id := by
  rw [subtreeStop, h.complete id n hn]
  rfl

theorem subtree_eq (id : NodeId) : subtree t id = t.subtree id := by
  rw [subtree]
  cases hn : t.node? id with
  | none => exact (Tree.subtree_of_none hn).symm
  | some n =>
    dsimp only
    rw [subtreeStop_eq h hn]
    rfl

theorem lt_size_of_mem_subtree {id k : NodeId} (hk : k ∈ t.subtree id) : k < t.size := by
  obtain ⟨hle, hlt⟩ := Tree.mem_subtree.mp hk
  cases hn : t.node? id with
  | none =>
    rw [Tree.stop_of_none hn] at hlt
    exact absurd hlt (Nat.not_lt_of_le hle)
  | some n => exact Nat.lt_of_lt_of_le hlt (h.stop_le_size (Tree.lt_size_of_node? hn))

theorem siblings_eq {rounds lo hi : Nat} (hr : hi ≤ lo + rounds) (hsize : hi ≤ t.size)
    (hin : ∀ i, lo ≤ i → i < hi → t.stop i ≤ hi) :
    siblings t hi rounds lo = t.siblings 0 (List.range' lo (hi - lo)) := by
  induction rounds generalizing lo with
  | zero =>
    rw [show hi - lo = 0 by omega]
    rfl
  | succ rounds ih =>
    rw [siblings]
    by_cases hlt : lo < hi
    · have hlo := h.lt_stop (Nat.lt_of_lt_of_le hlt hsize)
      have hle := hin lo (Nat.le_refl _) hlt
      obtain ⟨n, hn⟩ := exists_node (Nat.lt_of_lt_of_le hlt hsize)
      rw [if_pos hlt, hn, Tree.siblings_range' hlo hle rfl]
      dsimp only
      rw [subtreeStop_eq h hn, ih (by omega) fun i hi => hin i (by omega)]
    · rw [if_neg hlt, show hi - lo = 0 by omega]
      rfl

variable (ht : t.size < Word.maxWord)
include ht

theorem outermost_eq (rule : RuleId) {rounds lo hi : Nat} (hr : hi ≤ lo + rounds)
    (hsize : hi ≤ t.size) (hin : ∀ i, lo ≤ i → i < hi → t.stop i ≤ hi) :
    outermost t rule hi rounds lo = .ok (t.outermost rule 0 (List.range' lo (hi - lo))) := by
  induction rounds generalizing lo with
  | zero =>
    rw [show hi - lo = 0 by omega]
    rfl
  | succ rounds ih =>
    rw [outermost]
    by_cases hlt : lo < hi
    · have hlo := h.lt_stop (Nat.lt_of_lt_of_le hlt hsize)
      have hle := hin lo (Nat.le_refl _) hlt
      obtain ⟨n, hn⟩ := exists_node (Nat.lt_of_lt_of_le hlt hsize)
      have e : t.ruleOf lo = n.rule? := by rw [Tree.ruleOf, hn]; rfl
      rw [if_pos hlt, hn, Tree.outermost_range' hlo hle rfl, e]
      dsimp only
      by_cases hrule : n.rule? = some rule
      · rw [if_pos hrule, if_pos hrule, subtreeStop_eq h hn,
          ih (by omega) fun i hi => hin i (by omega)]
        rfl
      · rw [if_neg hrule, if_neg hrule, Word.add_eq_ok (by omega), lift_ok, ok_bind,
          ih (by omega) fun i hi => hin i (by omega)]
    · rw [if_neg hlt, show hi - lo = 0 by omega]
      rfl

theorem children_eq (id : NodeId) : children t id = .ok (t.children id) := by
  rw [children]
  cases hn : t.node? id with
  | none =>
    rw [Tree.children_of_none hn]
    rfl
  | some n =>
    have hid := Tree.lt_size_of_node? hn
    have hstop := h.stop_le_size hid
    dsimp only
    rw [Word.add_eq_ok (by omega), lift_ok, ok_bind, subtreeStop_eq h hn,
      siblings_eq h (by omega) hstop fun i hi hlt => h.stop_le (by omega) hlt (by omega)]
    rfl

theorem rules_eq (id : NodeId) (rule : RuleId) : rules t id rule = .ok (t.rules id rule) := by
  rw [rules]
  cases hn : t.node? id with
  | none =>
    rw [Tree.rules, Tree.subtree_of_none hn]
    rfl
  | some n =>
    have hstop := h.stop_le_size (Tree.lt_size_of_node? hn)
    dsimp only
    rw [subtreeStop_eq h hn,
      outermost_eq h ht rule (by omega) hstop fun i hi hlt => h.stop_le hi hlt (by omega)]
    rfl

theorem walks (x : Lexed) : Walks x t where
  tokens id n hn := TokenRange.sizeChecked_eq_ok (h.ranges id n hn).1
  span id n hn := Span.sizeChecked_eq_ok (h.ranges id n hn).2
  children := children_eq h ht
  subtree := subtree_eq h
  rule? id rule := by
    rw [rule?, subtree_eq h]
    exact firstMatch_eq (fun k hk => lt_size_of_mem_subtree h hk) rule
  rules := rules_eq h ht
  terminals id := by
    rw [terminals, subtree_eq h]
    exact terminalsOf_eq fun k hk => lt_size_of_mem_subtree h hk
  text id := by
    rw [text, terminals, subtree_eq h, terminalsOf_eq fun k hk => lt_size_of_mem_subtree h hk,
      ok_bind, bytesOf_eq x fun k hk => lt_size_of_mem_subtree h (List.mem_filter.mp hk).1]
    rfl

end

end Checked

end Ebnf
