import LoxInterpreter.Token.Scan

/-!
The lexical grammar. `IsPiece` says which texts are white space, newlines, comments or lexemes. A
text is cut by taking the longest piece that it can begin with, again and again, until it ends or
no piece stands at its beginning. Nothing here says how pieces are found.
-/

namespace Lox

namespace Lexical

open Scan (isDigit isLetter isWordCharacter digitsValue)

def marks : List (List Char × Kind) :=
  [(['('], .leftParen), ([')'], .rightParen), (['\x7b'], .leftBrace), (['\x7d'], .rightBrace),
    ([','], .comma), (['.'], .dot), (['-'], .minus), (['+'], .plus), ([';'], .semicolon),
    (['/'], .slash), (['*'], .star), (['!'], .bang), (['!', '='], .bangEqual), (['='], .equal),
    (['=', '='], .equalEqual), (['>'], .greater), (['>', '='], .greaterEqual), (['<'], .less),
    (['<', '='], .lessEqual)]

/-- What a row of digits with a point before the last `places` of them stands for. -/
def decimal (digits : List Char) (places : Nat) : Literal :=
  .number (Float.ofScientific (digitsValue digits) true places)

/-- The texts that are pieces, with what they stand for. -/
inductive IsPiece : List Char → Role → Prop
  | space {c : Char} (h : c ∈ [' ', '\r', '\t']) : IsPiece [c] .blank
  | newline : IsPiece ['\n'] .blank
  | lineComment {body : List Char} (h : '\n' ∉ body) : IsPiece ('/' :: '/' :: body) .blank
  /-- A block comment ends with the first closing mark after its opening. -/
  | blockComment {body : List Char} (h : ¬ ['*', '/'] <:+: body) :
      IsPiece ('/' :: '*' :: (body ++ ['*', '/'])) .blank
  | mark {spelling : List Char} {kind : Kind} (h : (spelling, kind) ∈ marks) :
      IsPiece spelling (.lexeme kind .nil)
  /-- A string ends with the first quote after its opening. -/
  | string {body : List Char} (h : '"' ∉ body) :
      IsPiece ('"' :: (body ++ ['"'])) (.lexeme .string (.string (String.ofList body)))
  | whole {digits : List Char} (hne : digits ≠ []) (h : ∀ d ∈ digits, isDigit d = true) :
      IsPiece digits (.lexeme .number (decimal digits 0))
  /-- A number with a point has digits on both sides of it. -/
  | fraction {whole part : List Char} (hwhole : whole ≠ []) (hpart : part ≠ [])
      (h : ∀ d ∈ whole ++ part, isDigit d = true) :
      IsPiece (whole ++ '.' :: part) (.lexeme .number (decimal (whole ++ part) part.length))
  | keyword (k : Keyword) : IsPiece k.word.toList (.lexeme (.keyword k) .nil)
  /-- A name is a word that is no keyword. -/
  | name {c : Char} {cs : List Char} (hc : isLetter c = true)
      (hcs : ∀ d ∈ cs, isWordCharacter d = true) (h : ∀ k : Keyword, k.word.toList ≠ c :: cs) :
      IsPiece (c :: cs) (.lexeme .identifier .nil)

/-- A text can begin with a piece. Where the opening of a block comment stands, only a block
comment can begin, and not a slash. -/
structure Allowed (text piece : List Char) (role : Role) : Prop where
  isPrefix : piece <+: text
  isPiece : IsPiece piece role
  opening : ['/', '*'] <+: text → ['/', '*'] <+: piece

/-- No text that a text can begin with is a longer piece. -/
structure Longest (text piece : List Char) (role : Role) : Prop where
  allowed : Allowed text piece role
  length_le : ∀ {piece' role'}, Allowed text piece' role' → piece'.length ≤ piece.length

/-- A text is cut from left to right into some pieces, up to a rest. -/
inductive Cut : List Char → List Piece → List Char → Prop
  | done {rest : List Char} : Cut rest [] rest
  | more {p : Piece} {text rest : List Char} {ps : List Piece}
      (h : Longest (p.text ++ text) p.text p.role) (hcut : Cut text ps rest) :
      Cut (p.text ++ text) (p :: ps) rest

/-- What a text begins with if no piece stands there, and what is reported of it. -/
inductive Obstacle : List Char → ScanCause → String → Prop
  | string {cs : List Char} :
      Obstacle ('"' :: cs) .unterminatedString (String.ofList ('"' :: cs))
  | comment {cs : List Char} : Obstacle ('/' :: '*' :: cs) .unterminatedComment "/*"
  | character {c : Char} {cs : List Char} (hquote : c ≠ '"') (hslash : c ≠ '/') :
      Obstacle (c :: cs) (.unexpectedCharacter c) c.toString

structure Stuck (text : List Char) (cause : ScanCause) (lexeme : String) : Prop where
  obstacle : Obstacle text cause lexeme
  not_allowed : ∀ piece role, ¬ Allowed text piece role

/-- The lexemes among some pieces: the kind, the text and the literal of each. -/
def lexemes (ps : List Piece) : List (Kind × String × Literal) :=
  ps.filterMap fun p =>
    match p.role with
    | .blank => none
    | .lexeme kind literal => some (kind, String.ofList p.text, literal)

def content (t : Token) : Kind × String × Literal := (t.kind, t.lexeme, t.literal)

end Lexical

end Lox
