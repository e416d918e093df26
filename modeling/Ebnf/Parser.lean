import Ebnf.Diagnostic.Emitter
import Ebnf.Matching.Run
import Ebnf.Report

/-!
# Parsing

A parser holds a source, a grammar and the tree of its last successful parse, and may parse from
several start rules one after the other.

* `Config`       the limit on nesting, and when reports are coloured;
* `Verdict`      how a parse ends: the root of a tree, an error, or not at all;
* `Parser`       source, grammar, configuration, and what the last parse left;
* `parse`        parses the whole source;
* `takeTree`     takes the tree out of the parser;
* `report`       the diagnostic of an error;
* `parseOnce`    one parse, with the rendered report of its error.
-/

namespace Ebnf

structure Config where
  /-- how many references and groups may lie in each other -/
  maxDepth : Nat := 0xFFFFFFFFFFFFFFFF
  color : ColorMode := .never
deriving DecidableEq

/-- how a parse ends -/
inductive Verdict where
  /-- the whole source matches; the id is the root's -/
  | accepted (root : NodeId)
  | rejected (error : ParseError)
  /-- the terms go round without end -/
  | endless
deriving DecidableEq

structure Parser where
  source : Lexed
  grammar : Grammar
  config : Config := {}
  /-- the tree of the last parse, empty if that failed -/
  tree : Tree := {}
  /-- the furthest failure of the last parse, whether or not it succeeded -/
  failure : Option Failure := none
  /-- what happened in all parses -/
  log : Array Event := #[]
  /-- the largest values of the last parse -/
  peak : Matching.Peak := {}

namespace Parser

def setting (p : Parser) : Matching.Setting := ⟨p.source, p.grammar, p.config.maxDepth⟩

/-- the error of a run that stopped, or that did not reach the end -/
def errorOf (c : Matching.Setting) : Matching.Attempt → Option ParseError
  | .matched s =>
    if s.pos = c.source.size then none
    else some ⟨.trailingInput s.pos c.source.size, s.pos, s.failure⟩
  | .stopped .mismatch s =>
    some ⟨.noMatch, (s.failure.map Failure.token).getD 0, s.failure⟩
  | .stopped .limit s => some ⟨.recursionLimit c.maxDepth, s.pos, s.failure⟩
  | .stopped .endless _ => none

def conclude (c : Matching.Setting) (r : Matching.Attempt) : Verdict × Tree :=
  match errorOf c r, r with
  | some e, _ => (.rejected e, {})
  | none, .matched s => (.accepted Tree.rootId, (s.closed c Tree.rootId 0).tree)
  | none, .stopped _ _ => (.endless, {})

def parse (p : Parser) (start : RuleId) : Parser × Verdict :=
  let c := p.setting
  let name := (p.grammar.ruleName? start).getD "?"
  let r := Matching.run c start (p.log.push (.parse name p.source.file p.source.size))
  let (verdict, tree) := conclude c r
  let s := r.state
  let log := match verdict with
    | .rejected e => s.log.push (.parseFailed e)
    | _ => s.log
  ({ p with tree, failure := s.failure, log, peak := s.peak }, verdict)

def takeTree (p : Parser) : Tree × Parser := (p.tree, { p with tree := {} })

def report (p : Parser) (e : ParseError) : Diagnostic := Report.ofParseError p.source p.grammar e

/-- one parse; a rejected source has its error's report rendered -/
def parseOnce (source : Lexed) (grammar : Grammar) (start : RuleId) (config : Config) :
    Parser × Verdict × String :=
  let p : Parser := { source, grammar, config }
  let (p, verdict) := p.parse start
  let rendered := match verdict with
    | .rejected e => ((Emitter.ofMode config.color false).after [p.report e]).output
    | _ => ""
  (p, verdict, rendered)

theorem conclude_of_eq {c : Matching.Setting} {s : Matching.State} (h : s.pos = c.source.size) :
    conclude c (.matched s) = (.accepted Tree.rootId, (s.closed c Tree.rootId 0).tree) := by
  have he : errorOf c (.matched s) = none := if_pos h
  unfold conclude
  rw [he]

theorem conclude_of_ne {c : Matching.Setting} {s : Matching.State} (h : s.pos ≠ c.source.size) :
    conclude c (.matched s) =
      (.rejected ⟨.trailingInput s.pos c.source.size, s.pos, s.failure⟩, {}) := by
  have he : errorOf c (.matched s) = some _ := if_neg h
  unfold conclude
  rw [he]

/-- a parse changes only what it leaves behind -/
theorem setting_parse (p : Parser) (start : RuleId) : (p.parse start).1.setting = p.setting := rfl

end Parser

end Ebnf
