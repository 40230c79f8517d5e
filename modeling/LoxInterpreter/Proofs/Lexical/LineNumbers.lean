import LoxInterpreter.Proofs.Lexical.Restart

/-!
The line numbers of a text. The scanner numbers lines by counting newlines, so the tokens of a text
and the place where a scan gets stuck are on lines from the first one of the text to its last one.
-/

namespace Lox

namespace Lexical

open Scan

variable {text : List Char} {line : Int}

variable {source : String}

end Lexical

end Lox
