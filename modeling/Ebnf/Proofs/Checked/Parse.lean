import Ebnf.Grammar.Build
import Ebnf.Proofs.Checked.Matching
import Ebnf.Proofs.Checked.Tree
import Ebnf.Report

/-!
# Nothing overflows from the source to the report

A source with fewer bytes than the largest word is tokenized, looked up in, parsed and reported
about without an overflow, and so is its tree walked, as long as that has fewer nodes than the
largest word.  No limit on nesting is asked for, nor that the parse comes to an end.

* `snippet`, `ofParseError`   the report of an error, checked;
* `FaultFree`             all of that for one parser and one start rule;
* `parse_fault_free`      it holds for each of them.
-/

namespace Ebnf

namespace Checked

open Diagnostic (Snippet)

/-! ## reports -/

def snippet (x : Lexed) (i width : Nat) : Checked Snippet := do
  let l ← location x i
  let column ← l.displayColumnChecked
  let lineText ← lineText x l
  return { file := x.file, line := l.line, column, lineText, width := max width 1 }

def ofFailure (x : Lexed) (g : Grammar) (f : Failure) : Checked Diagnostic := do
  let (code, message) := Report.describe g f.term
  let s ← snippet x f.token 1
  let d : Diagnostic := { code, message, snippet := some s, label := message }
  match g.ruleName? f.rule with
  | some rule => return d.withNote s!"while parsing rule `{rule}`"
  | none => return d

def ofParseError (x : Lexed) (g : Grammar) (e : ParseError) : Checked Diagnostic :=
  match e.kind, e.expectation with
  | .recursionLimit _, _ => do
    let s ← snippet x e.offset 1
    return {
      code := .tooDeep
      message := e.kind.message
      snippet := some s
      label := e.kind.message
      notes := ["left-recursive rules are not supported"] }
  | .noMatch, some f => ofFailure x g f
  | .trailingInput _ _, some f => ofFailure x g f
  | .trailingInput _ _, none => do
    let width := (token x e.offset).size
    let s ← snippet x e.offset width
    return {
      code := .trailingInput
      message := "unexpected trailing input"
      snippet := some s
      label := "not matched by the start rule" }
  | .noMatch, none =>
    return {
      code := .unknown
      message := "parse failed"
      notes := ["no failure position was recorded"] }

section
variable {x : Lexed} (hx : x.bytes.size < Word.maxWord)
include hx

theorem snippet_eq (i width : Nat) : snippet x i width = .ok (Report.snippet x i width) := by
  rw [snippet, location_eq hx, ok_bind, displayColumnChecked_location hx, lift_ok, ok_bind,
    lineText_location hx]
  rfl

theorem ofFailure_eq (g : Grammar) (f : Failure) :
    ofFailure x g f = .ok (Report.ofFailure x g f) := by
  rw [ofFailure, Report.ofFailure, snippet_eq hx]
  dsimp only
  rw [ok_bind]
  cases g.ruleName? f.rule <;> rfl

theorem ofParseError_eq (g : Grammar) (e : ParseError) :
    ofParseError x g e = .ok (Report.ofParseError x g e) := by
  rw [ofParseError, Report.ofParseError]
  cases e.kind with
  | recursionLimit limit =>
    dsimp only
    rw [snippet_eq hx]
    rfl
  | noMatch =>
    cases e.expectation with
    | none => rfl
    | some f => exact ofFailure_eq hx g f
  | trailingInput =>
    cases e.expectation with
    | none =>
      dsimp only
      rw [snippet_eq hx, token_eq hx]
      rfl
    | some f => exact ofFailure_eq hx g f

end

end Checked

namespace Parser

open Matching

/-- nothing that is computed about the source and the tree of a parse overflows, or reads what is
not there -/
structure FaultFree (p : Parser) (start : RuleId) : Prop where
  /-- to register a word, whatever the words before it -/
  words : ∀ (w : Words) (b : UInt8) (bs : List UInt8),
    Checked.place (w.table.push (b :: bs)).toList w.table.size (w.bucket b) =
      .ok (Words.place (fun i => ((w.table.push (b :: bs)).getD i []).length) w.table.size
        (w.bucket b))
  /-- to tokenize the source, and to look up a token, its text or its line at any index -/
  source : Checked.Reads p.source
  /-- to match the start rule, with any bound on the attempts in each other; up to the place where
  the tree has as many nodes as the largest word -/
  matching : ∀ (height : Nat) (log : Array Event),
    let r := body p.setting (attempt p.setting height) start start (.first start log)
    Checked.run p.setting height start log = .ok r ∨
      Checked.run p.setting height start log = .error .full ∧ Word.maxWord ≤ r.state.peak.nodes
  /-- to parse -/
  parse : (p.parse start).1.peak.nodes < Word.maxWord →
    Checked.parse p start = .ok (p.parse start)
  /-- to walk over the tree from any of its nodes, and to take the lengths of their ranges -/
  tree : (p.parse start).1.peak.nodes < Word.maxWord → ∀ root, (p.parse start).2 = .accepted root →
    Checked.Walks p.source (p.parse start).1.tree
  /-- to report an error -/
  report : ∀ e, Checked.ofParseError p.source p.grammar e = .ok (p.report e)

/-- the tree that a parse leaves is no larger than the largest one on the way -/
theorem small_tree {p : Parser} {start : RuleId} (hx : p.source.bytes.size < Word.maxWord)
    (hn : (p.parse start).1.peak.nodes < Word.maxWord) {root : NodeId}
    (h : (p.parse start).2 = .accepted root) : (p.parse start).1.tree.size < Word.maxWord := by
  obtain ⟨s, hs, _, htree⟩ := p.matched_of_accepted start h
  have hsmall := (Checked.run_eq hx hn).2
  rw [hs] at hsmall
  rw [htree]
  show (s.tree.closeNode ..).size < _
  rw [Tree.size_closeNode]
  exact hsmall

/-- no arithmetic on words goes wrong, if the source has fewer bytes than the largest word -/
theorem parse_fault_free (p : Parser) (start : RuleId)
    (hx : p.source.bytes.size < Word.maxWord) : p.FaultFree start where
  words := Checked.place_bucket
  source := Checked.reads hx
  matching height log := by
    rcases Checked.run_cases (c := p.setting) hx height start log with ⟨e, _⟩ | h
    · exact .inl e
    · exact .inr h
  parse := Checked.parse_eq hx
  tree hn _ h := Checked.walks (parse_grown p start h).layout (small_tree hx hn h) p.source
  report := Checked.ofParseError_eq hx p.grammar

open Grammar in
/-- `s = "a" s ?` over `aa`: three nodes, and a tree that is walked without a fault -/
theorem parse_fault_free_nested :
    let g := Grammar.build [.rule "s", .concatenation, .literal "a" .one, .reference 0 .optional,
      .attach 1 2, .attach 1 3, .attach 0 1]
    let p : Parser := { source := .ofText "aa" "input" 0 {}, grammar := g }
    p.source.bytes.size < Word.maxWord ∧ p.FaultFree 0 ∧
      (p.parse 0).1.peak.nodes < Word.maxWord ∧ (p.parse 0).2 = .accepted Tree.rootId ∧
      Checked.parse p 0 = .ok (p.parse 0) ∧ Checked.Walks p.source (p.parse 0).1.tree := by
  intro g p
  have hx : p.source.bytes.size < Word.maxWord := by decide +kernel
  have hn : (p.parse 0).1.peak.nodes < Word.maxWord := by decide +kernel
  have hv : (p.parse 0).2 = .accepted Tree.rootId := by decide +kernel
  have h := parse_fault_free p 0 hx
  exact ⟨hx, h, hn, hv, h.parse hn, h.tree hn _ hv⟩

end Parser

end Ebnf
