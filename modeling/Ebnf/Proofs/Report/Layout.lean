import Ebnf.Parser
import Ebnf.Proofs.Grammar.History
import Ebnf.Proofs.Report.Lines

/-!
# Reports keep to their layout

What a report says comes from the grammar, the source and the kind of the error.  All of it is free of
line feeds if the names of rules and the file are, except for the text of a literal, which is shown as
it stands in the grammar.

* `Report.expectedLiteral?`   the literal that a report says was expected;
* `oneLine_describe`          what was expected is said on one line, unless it is such a literal;
* `keeps_ofParseError`        so the report of an error keeps to its layout just if that literal does;
* `report_keeps_layout`       what that says of parses, and of the form on one line;
* `report_breaks_layout`      a literal with a line feed breaks it.
-/

namespace Ebnf

open Grammar

namespace Report

/-- the text of a literal; nothing else has one -/
def literalText? (g : Grammar) (t : TermId) : Option String :=
  match g.node? t with
  | some (.literal text _) => some (g.text text)
  | _ => none

/-- the text of the literal that the report of an error says was expected, if it says so of one -/
def expectedLiteral? (g : Grammar) (e : ParseError) : Option String :=
  match e.kind with
  | .recursionLimit _ => none
  | _ => e.expectation.bind fun f => literalText? g f.term

section
variable {x : Lexed} {g : Grammar}

theorem oneLine_idText (id : Nat) : OneLine (idText id) := by
  have h : OneLine "#" := by decide
  simp [idText, h]

theorem oneLine_kindName (n : Node) : OneLine n.kindName := by
  cases n <;> simp only [Node.kindName] <;> decide

theorem oneLine_mask (m : Mask) : OneLine m.toText := by
  unfold Mask.toText
  split
  · decide
  · refine oneLine_intercalate (by decide) fun t ht => ?_
    obtain ⟨c, _, rfl⟩ := List.mem_map.mp ht
    cases c <;> decide

/-- the line and the file that a report shows are free of line feeds, so its other texts decide -/
theorem keeps_iff_of_snippet (hfile : OneLine x.file) {d : Diagnostic} {i width : Nat}
    (hs : d.snippet = some (snippet x i width)) :
    d.Keeps ↔ OneLine d.message ∧ OneLine d.label ∧ ∀ note ∈ d.notes, OneLine note := by
  have hline := oneLine_lineText x i
  rw [Diagnostic.keeps_iff, hs]
  simp [snippet, hfile, hline]

theorem toText_iff_of_snippet (hfile : OneLine x.file) {d : Diagnostic} {i width : Nat}
    (hs : d.snippet = some (snippet x i width)) : OneLine d.toText ↔ OneLine d.message := by
  rw [Diagnostic.oneLine_toText, hs]
  simp [snippet, hfile]

variable (hnames : ∀ rule name, g.ruleName? rule = some name → OneLine name)
include hnames

theorem oneLine_expectedRule (rule : RuleId) : OneLine (expectedRule g rule) := by
  have h : OneLine "expected rule `" ∧ OneLine "`, which has no production" ∧
      OneLine "expected rule " := by decide
  unfold expectedRule
  split
  · rename_i name hn
    simp [h, hnames rule name hn]
  · simp [h, oneLine_idText]

/-- what was expected is said on one line, unless it is a literal of several -/
theorem oneLine_describe (t : TermId) :
    OneLine (describe g t).2 ↔ ∀ s, literalText? g t = some s → OneLine s := by
  have h : OneLine "expected " ∧ OneLine "expected '" ∧ OneLine "'" ∧
      OneLine "unexpected failure in " ∧ OneLine " " ∧ OneLine "expected rule " := by decide
  unfold describe literalText?
  cases hn : g.node? t with
  | none => simp [h, oneLine_idText]
  | some n =>
    cases n with
    | token m => simp [h, oneLine_mask]
    | literal text => simp [h]
    | reference target => simp [oneLine_expectedRule hnames]
    | rule => simp [oneLine_expectedRule hnames]
    | _ => simp [h, oneLine_kindName, oneLine_idText]

theorem oneLine_note (f : Failure) : ∀ note ∈ (ofFailure x g f).notes, OneLine note := by
  have h : OneLine "while parsing rule `" ∧ OneLine "`" := by decide
  unfold ofFailure
  dsimp only
  cases hn : g.ruleName? f.rule with
  | none => nofun
  | some rule => simp [Diagnostic.withNote, h, hnames f.rule rule hn]

theorem keeps_ofFailure (hfile : OneLine x.file) (f : Failure) :
    ((ofFailure x g f).Keeps ↔ ∀ s, literalText? g f.term = some s → OneLine s) ∧
    (OneLine (ofFailure x g f).toText ↔ ∀ s, literalText? g f.term = some s → OneLine s) := by
  obtain ⟨hmessage, hlabel, hsnippet⟩ : (ofFailure x g f).message = (describe g f.term).2 ∧
      (ofFailure x g f).label = (describe g f.term).2 ∧
      (ofFailure x g f).snippet = some (snippet x f.token 1) := by
    unfold ofFailure
    dsimp only
    split <;> exact ⟨rfl, rfl, rfl⟩
  rw [keeps_iff_of_snippet hfile hsnippet, toText_iff_of_snippet hfile hsnippet, hmessage, hlabel,
    oneLine_describe hnames]
  exact ⟨⟨And.left, fun h => ⟨h, h, oneLine_note hnames f⟩⟩, Iff.rfl⟩

theorem keeps_ofParseError (hfile : OneLine x.file) (e : ParseError) :
    ((ofParseError x g e).Keeps ↔ ∀ s, expectedLiteral? g e = some s → OneLine s) ∧
    (OneLine (ofParseError x g e).toText ↔ ∀ s, expectedLiteral? g e = some s → OneLine s) := by
  unfold ofParseError expectedLiteral?
  cases e.kind with
  | recursionLimit limit =>
    have h : OneLine "recursion limit of " ∧ OneLine " exceeded" ∧
        OneLine "left-recursive rules are not supported" := by decide +kernel
    have hmessage : OneLine (ParseError.Kind.recursionLimit limit).message := by
      unfold ParseError.Kind.message
      simp only [oneLine_append, oneLine_toString, Nat.toString_eq_repr, oneLine_repr, h, and_self]
    refine ⟨Iff.trans (keeps_iff_of_snippet hfile rfl) ?_,
      Iff.trans (toText_iff_of_snippet hfile rfl) ?_⟩ <;> simp [hmessage, h]
  | noMatch =>
    cases e.expectation with
    | some f => exact keeps_ofFailure hnames hfile f
    | none =>
      have h : OneLine "parse failed" ∧ OneLine "no failure position was recorded" := by
        decide +kernel
      rw [Diagnostic.keeps_iff, Diagnostic.oneLine_toText]
      simp [h]
  | trailingInput consumed total =>
    cases e.expectation with
    | some f => exact keeps_ofFailure hnames hfile f
    | none =>
      have h : OneLine "unexpected trailing input" ∧ OneLine "not matched by the start rule" := by
        decide +kernel
      refine ⟨Iff.trans (keeps_iff_of_snippet hfile rfl) ?_,
        Iff.trans (toText_iff_of_snippet hfile rfl) ?_⟩ <;> simp [h]

end

end Report

/-! ## parses -/

namespace Parser

open Report

theorem oneLine_ruleName {steps : List Step} (hnames : ∀ name, .rule name ∈ steps → OneLine name)
    {rule : RuleId} {name : String} (h : (build steps).ruleName? rule = some name) : OneLine name := by
  rw [(describes_build steps).ruleName?_eq_some_iff] at h
  exact hnames name (List.mem_filter.mp (List.mem_of_getElem? h)).1

/-- let a grammar be built by calls, and let neither the names of its rules nor that of the file have a
line feed.  Then the plain rendering of the report of a failed parse has a header, four lines if there
is a snippet, and a line for each note, and no others, unless it says that a literal with a line feed
was expected; and so the form on one line has no line feed -/
theorem report_keeps_layout (p : Parser) {steps : List Step} (hg : p.grammar = build steps)
    (hnames : ∀ name, .rule name ∈ steps → OneLine name) (hfile : OneLine p.source.file) :
    ∀ start e, (p.parse start).2 = .rejected e →
      let d := p.report e
      let literalFits := ∀ s, expectedLiteral? p.grammar e = some s → OneLine s
      (textLines (Emitter.plain.after [d]).output = d.lines ++ [""] ↔ literalFits) ∧
      d.lines.length = 1 + (if d.snippet.isSome then 4 else 0) + d.notes.length ∧
      (OneLine d.toText ↔ literalFits) := by
  intro start e _ d literalFits
  have hnames : ∀ rule name, p.grammar.ruleName? rule = some name → OneLine name := by
    intro rule name h
    rw [hg] at h
    exact oneLine_ruleName hnames h
  obtain ⟨hkeeps, htext⟩ := keeps_ofParseError hnames hfile e
  exact ⟨hkeeps, d.length_lines, htext⟩

/-- `s = "a" "b"` does not match `ac`, and its report has six lines -/
theorem report_keeps_layout_literal :
    let steps : List Step := [.rule "s", .concatenation, .literal "a" .one, .literal "b" .one,
      .attach 1 2, .attach 1 3, .attach 0 1]
    let p : Parser := { source := .ofText "ac" "input" 0 {}, grammar := build steps }
    let e : ParseError := ⟨.noMatch, 1, some ⟨0, 1, 3⟩⟩
    let d := p.report e
    (∀ name, .rule name ∈ steps → OneLine name) ∧ OneLine p.source.file ∧
    (p.parse 0).2 = .rejected e ∧ expectedLiteral? p.grammar e = some "b" ∧
    textLines (Emitter.plain.after [d]).output = d.lines ++ [""] ∧ d.lines.length = 6 ∧
    OneLine d.toText := by
  intro steps p e d
  have hg : p.grammar = build steps := rfl
  have hnames : ∀ name, .rule name ∈ steps → OneLine name := by
    intro name hname
    obtain rfl : name = "s" := by simpa [steps] using hname
    decide
  have hfile : OneLine p.source.file := by decide +kernel
  have hv : (p.parse 0).2 = .rejected e := by decide +kernel
  have hexpected : expectedLiteral? p.grammar e = some "b" := by decide +kernel
  have hfits : ∀ s, expectedLiteral? p.grammar e = some s → OneLine s := by
    intro s hs
    obtain rfl := Option.some.inj (hexpected.symm.trans hs)
    decide
  obtain ⟨hkeeps, hlength, htext⟩ := report_keeps_layout p hg hnames hfile 0 e hv
  refine ⟨hnames, hfile, hv, hexpected, hkeeps.mpr hfits, hlength.trans ?_, htext.mpr hfits⟩
  decide +kernel

/-- where `s` is a line feed, the report of `x` takes eight lines in place of six: the header and the
row of carets are broken in two, and so is the form on one line -/
theorem report_breaks_layout :
    let steps : List Step := [.rule "s", .literal "\n" .one, .attach 0 1]
    let p : Parser := { source := .ofText "x" "input" 0 {}, grammar := build steps }
    let e : ParseError := ⟨.noMatch, 0, some ⟨0, 0, 1⟩⟩
    let d := p.report e
    (∀ name, .rule name ∈ steps → OneLine name) ∧ OneLine p.source.file ∧
    (p.parse 0).2 = .rejected e ∧ d.lines.length = 6 ∧
    textLines (Emitter.plain.after [d]).output = ["error[E1002]: expected '", "'", "  --> input:1:1",
      "   |", " 1 | x", "   | ^ expected '", "'", "  = note: while parsing rule `s`", ""] ∧
    ¬ OneLine d.toText := by
  intro steps p e d
  refine ⟨fun name hname => ?_, by decide +kernel⟩
  obtain rfl : name = "s" := by simpa [steps] using hname
  decide

end Parser

end Ebnf
