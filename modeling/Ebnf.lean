import Ebnf.Diagnostic.Emitter
import Ebnf.Grammar.Build
import Ebnf.Parser
import Ebnf.Tree.Walk
import Ebnf.Proofs.Source.Characters
import Ebnf.Proofs.Source.Location
import Ebnf.Proofs.Source.Lookup
import Ebnf.Proofs.Source.Munch
import Ebnf.Proofs.Source.Partition
import Ebnf.Proofs.Source.Spelling
import Ebnf.Proofs.Grammar.Built
import Ebnf.Proofs.Grammar.History
import Ebnf.Proofs.Matching.Alongside
import Ebnf.Proofs.Matching.Bound
import Ebnf.Proofs.Matching.Course
import Ebnf.Proofs.Matching.Depth
import Ebnf.Proofs.Matching.Derivation
import Ebnf.Proofs.Matching.Grouping
import Ebnf.Proofs.Matching.Limit
import Ebnf.Proofs.Matching.Literal
import Ebnf.Proofs.Matching.Refusal
import Ebnf.Proofs.Matching.Rollback
import Ebnf.Proofs.Matching.Strays
import Ebnf.Proofs.Matching.Termination
import Ebnf.Proofs.Outcome
import Ebnf.Proofs.Reference.Attempts
import Ebnf.Proofs.Reference.Completeness
import Ebnf.Proofs.Reference.LeftCall
import Ebnf.Proofs.Reference.Meaning
import Ebnf.Proofs.Reference.Soundness
import Ebnf.Proofs.Reference.Verdict
import Ebnf.Proofs.Failure.Furthest
import Ebnf.Proofs.Failure.LastRound
import Ebnf.Proofs.Failure.Origin
import Ebnf.Proofs.Failure.Record
import Ebnf.Proofs.Failure.Truthful
import Ebnf.Proofs.Tree.Coverage
import Ebnf.Proofs.Tree.Derivation
import Ebnf.Proofs.Tree.Descent
import Ebnf.Proofs.Tree.Forest
import Ebnf.Proofs.Tree.Growth
import Ebnf.Proofs.Tree.Jumps
import Ebnf.Proofs.Tree.Layout
import Ebnf.Proofs.Tree.Outermost
import Ebnf.Proofs.Tree.Reading
import Ebnf.Proofs.Tree.WholeCharacters
import Ebnf.Proofs.Report.Caret
import Ebnf.Proofs.Report.Colour
import Ebnf.Proofs.Report.Layout
import Ebnf.Proofs.Report.Lines
import Ebnf.Proofs.Report.Pieces
import Ebnf.Proofs.Checked.Matching
import Ebnf.Proofs.Checked.Parse
import Ebnf.Proofs.Checked.Source
import Ebnf.Proofs.Checked.Tree
