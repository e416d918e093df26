import Ebnf.Lexed
import Ebnf.ParseError

/-!
# What happened, in order

* `Event`    something worth a line in a log;
* `level`, `message`, `fields`   the line;
* `ofSource`   that a source has been tokenized.
-/

namespace Ebnf

inductive Level where
  | trace
  | debug
  | warn
deriving DecidableEq

def Level.name : Level → String
  | .trace => "TRACE"
  | .debug => "DEBUG"
  | .warn => "WARN"

inductive Event where
  | tokenized (file : String) (bytes tokens words : Nat)
  /-- a parse begins; `rule` is the name of the start rule -/
  | parse (rule file : String) (tokens : Nat)
  | parseFailed (error : ParseError)
  /-- a production is about to be matched -/
  | enterRule (rule : String) (offset : Nat)
  | notARule (node : Nat)
  | noProduction (rule : String)
  /-- a repeated term matched without moving on -/
  | idleRepetition (term : TermId) (offset : Nat)
  | limitReached (depth offset : Nat)
  | missingTerm (term : TermId)
  | ruleAsTerm (term : TermId)
deriving DecidableEq

namespace Event

inductive Field where
  | text (s : String)
  | number (n : Nat)
deriving DecidableEq

def ofSource (x : Lexed) : Event := .tokenized x.file x.bytes.size x.size x.words.size

def level : Event → Level
  | .tokenized .. => .debug
  | .parse .. => .debug
  | .parseFailed _ => .debug
  | .enterRule .. => .trace
  | .notARule _ => .warn
  | .noProduction _ => .warn
  | .idleRepetition .. => .warn
  | .limitReached .. => .debug
  | .missingTerm _ => .warn
  | .ruleAsTerm _ => .warn

def message : Event → String
  | .tokenized .. => "tokenized source"
  | .parse .. => "parse"
  | .parseFailed _ => "parse failed"
  | .enterRule .. => "enter rule"
  | .notARule _ => "reference to a node that is not a rule"
  | .noProduction _ => "rule has no production"
  | .idleRepetition .. => "repetition matched without consuming input; stopping"
  | .limitReached .. => "recursion limit reached"
  | .missingTerm _ => "term does not exist"
  | .ruleAsTerm _ => "rule used as a term"

def fields : Event → List (String × Field)
  | .tokenized file bytes tokens words =>
    [("file", .text file), ("bytes", .number bytes), ("tokens", .number tokens),
      ("words", .number words)]
  | .parse rule file tokens =>
    [("rule", .text rule), ("file", .text file), ("tokens", .number tokens)]
  | .parseFailed error => [("error", .text error.message)]
  | .enterRule rule offset => [("rule", .text rule), ("offset", .number offset)]
  | .notARule node => [("node", .text (idText node))]
  | .noProduction rule => [("rule", .text rule)]
  | .idleRepetition term offset => [("term", .text (idText term)), ("offset", .number offset)]
  | .limitReached depth offset => [("depth", .number depth), ("offset", .number offset)]
  | .missingTerm term => [("term", .text (idText term))]
  | .ruleAsTerm term => [("term", .text (idText term))]

end Event

end Ebnf
