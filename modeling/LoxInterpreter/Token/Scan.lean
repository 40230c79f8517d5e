import LoxInterpreter.Diagnostic

/-!
Cutting a text into tokens. `front` finds the piece that stands at the beginning of a text:
the longest one that is a white space character, a newline, a comment or a lexeme. `pieces`
cuts a whole text that way, and `scan` gives the lexemes their places.
-/

namespace Lox

inductive ScanCause
  | unexpectedCharacter (c : Char)
  | unterminatedString
  | unterminatedComment
  deriving DecidableEq, Repr

def ScanCause.message : ScanCause → String
  | unexpectedCharacter c => "Unexpected character '" ++ c.toString ++ "'."
  | unterminatedString => "Unterminated string."
  | unterminatedComment => "Unterminated block comment."

inductive Role
  | blank
  | lexeme (kind : Kind) (literal : Literal)

/-- A piece of text, which has at least one character. -/
structure Piece where
  first : Char
  more : List Char
  role : Role

def Piece.text (p : Piece) : List Char := p.first :: p.more

namespace Scan

/-- White space other than the newline. -/
def isSpace (c : Char) : Bool := c == ' ' || c == '\r' || c == '\t'

/-- The ASCII digits. -/
def isDigit (c : Char) : Bool := '0' ≤ c && c ≤ '9'

/-- The ASCII letters and the underscore, with which names begin. -/
def isLetter (c : Char) : Bool :=
  ('a' ≤ c && c ≤ 'z') || ('A' ≤ c && c ≤ 'Z') || c == '_'

def isWordCharacter (c : Char) : Bool := isLetter c || isDigit c

def single? : Char → Option Kind
  | '(' => some .leftParen
  | ')' => some .rightParen
  | '{' => some .leftBrace
  | '}' => some .rightBrace
  | ',' => some .comma
  | '.' => some .dot
  | '-' => some .minus
  | '+' => some .plus
  | ';' => some .semicolon
  | '*' => some .star
  | _ => none

/-- The kinds of a character that is a lexeme alone or with an equals sign after it:
alone first. -/
def double? : Char → Option (Kind × Kind)
  | '!' => some (.bang, .bangEqual)
  | '=' => some (.equal, .equalEqual)
  | '<' => some (.less, .lessEqual)
  | '>' => some (.greater, .greaterEqual)
  | _ => none

/-- The text of a block comment after its opening, through the first closing mark. -/
def commentBody : List Char → Option (List Char)
  | '*' :: '/' :: _ => some ['*', '/']
  | c :: cs => (commentBody cs).map (c :: ·)
  | [] => none

theorem commentBody_isPrefix {cs body : List Char} (h : commentBody cs = some body) :
    body <+: cs := by
  fun_induction commentBody cs generalizing body with
  | case1 =>
    cases h
    exact ⟨_, rfl⟩
  | case2 c cs _ ih =>
    obtain ⟨rest, hr, rfl⟩ := Option.map_eq_some_iff.1 h
    exact List.cons_prefix_cons.2 ⟨rfl, ih hr⟩
  | case3 => cases h

/-- The digits after a point that has digits after it, with the point. -/
def fraction : List Char → List Char
  | '.' :: cs =>
    match cs.takeWhile isDigit with
    | [] => []
    | d :: ds => '.' :: d :: ds
  | _ => []

theorem fraction_isPrefix (cs : List Char) : fraction cs <+: cs := by
  unfold fraction
  split
  · split
    · exact List.nil_prefix
    next h => exact List.cons_prefix_cons.2 ⟨rfl, h ▸ List.takeWhile_prefix _⟩
  · exact List.nil_prefix

/-- What follows the first digit of a number: more digits, then a point only if digits follow
it in turn. -/
def numberTail (cs : List Char) : List Char :=
  cs.takeWhile isDigit ++ fraction (cs.dropWhile isDigit)

theorem numberTail_isPrefix (cs : List Char) : numberTail cs <+: cs := by
  obtain ⟨rest, h⟩ := fraction_isPrefix (cs.dropWhile isDigit)
  exact ⟨rest, by rw [numberTail, List.append_assoc, h, List.takeWhile_append_dropWhile]⟩

def digitsValue (ds : List Char) : Nat :=
  ds.foldl (fun n d => 10 * n + (d.toNat - '0'.toNat)) 0

/-- The number nearest to a decimal: its digits as a whole number, divided by ten for each
digit after the point. -/
def numberValue (text : List Char) : Float :=
  let whole := text.takeWhile (· != '.')
  let part := (text.dropWhile (· != '.')).drop 1
  Float.ofScientific (digitsValue (whole ++ part)) true part.length

/-- A text up to its first quote, and that quote, if there is one. -/
theorem upToQuote_isPrefix {cs : List Char}
    (h : (cs.takeWhile (· != '"')).length < cs.length) :
    cs.takeWhile (· != '"') ++ ['"'] <+: cs := by
  have split := List.takeWhile_append_dropWhile (p := (· != '"')) (l := cs)
  have hd : cs.dropWhile (· != '"') ≠ [] := by
    intro hn
    have := congrArg List.length split
    rw [hn, List.append_nil] at this
    omega
  obtain ⟨d, ds, hds⟩ := List.exists_cons_of_ne_nil hd
  have hq := List.head_dropWhile_not (· != '"') hd
  simp only [hds, List.head_cons, bne_eq_false_iff_eq] at hq
  rw [hds, hq] at split
  exact ⟨ds, by rw [List.append_assoc]; exact split⟩

def front (c : Char) (cs : List Char) : Except ScanCause Piece :=
  if isSpace c || c == '\n' then
    .ok ⟨c, [], .blank⟩
  else if let some kind := single? c then
    .ok ⟨c, [], .lexeme kind .nil⟩
  else if let some (alone, withEqual) := double? c then
    match cs with
    | '=' :: _ => .ok ⟨c, ['='], .lexeme withEqual .nil⟩
    | _ => .ok ⟨c, [], .lexeme alone .nil⟩
  else if c == '/' then
    match cs with
    | '/' :: rest => .ok ⟨c, '/' :: rest.takeWhile (· != '\n'), .blank⟩
    | '*' :: rest =>
      match commentBody rest with
      | some body => .ok ⟨c, '*' :: body, .blank⟩
      | none => .error .unterminatedComment
    | _ => .ok ⟨c, [], .lexeme .slash .nil⟩
  else if c == '"' then
    let body := cs.takeWhile (· != '"')
    if body.length < cs.length then
      .ok ⟨c, body ++ ['"'], .lexeme .string (.string (String.ofList body))⟩
    else
      .error .unterminatedString
  else if isDigit c then
    let more := numberTail cs
    .ok ⟨c, more, .lexeme .number (.number (numberValue (c :: more)))⟩
  else if isLetter c then
    let more := cs.takeWhile isWordCharacter
    .ok ⟨c, more, .lexeme (Kind.ofWord (String.ofList (c :: more))) .nil⟩
  else
    .error (.unexpectedCharacter c)

/-- A piece is what the text begins with. -/
theorem isPrefix_of_front {c : Char} {cs : List Char} {p : Piece} (h : front c cs = .ok p) :
    p.first = c ∧ p.more <+: cs := by
  unfold front at h
  simp only at h
  repeat' split at h
  all_goals cases h
  · exact ⟨rfl, List.nil_prefix⟩
  · exact ⟨rfl, List.nil_prefix⟩
  · exact ⟨rfl, _, rfl⟩
  · exact ⟨rfl, List.nil_prefix⟩
  · exact ⟨rfl, List.cons_prefix_cons.2 ⟨rfl, List.takeWhile_prefix _⟩⟩
  · exact ⟨rfl, List.cons_prefix_cons.2 ⟨rfl, commentBody_isPrefix ‹_›⟩⟩
  · exact ⟨rfl, List.nil_prefix⟩
  · exact ⟨rfl, upToQuote_isPrefix ‹_›⟩
  · exact ⟨rfl, numberTail_isPrefix _⟩
  · exact ⟨rfl, List.takeWhile_prefix _⟩

/-- How a cut ends: at the end of the text, or before a rest at whose beginning no piece
stands. -/
inductive Ending
  | complete
  | stuck (cause : ScanCause) (rest : List Char)

/-- Cuts a text into pieces from left to right, as far as that goes. -/
def pieces : List Char → List Piece × Ending
  | [] => ([], .complete)
  | c :: cs =>
    match front c cs with
    | .error cause => ([], .stuck cause (c :: cs))
    | .ok p =>
      let (ps, ending) := pieces (cs.drop p.more.length)
      (p :: ps, ending)
termination_by text => text.length
decreasing_by
  rw [List.length_drop, List.length_cons]
  omega

def tokensAt (start : Place) : List Piece → List Token
  | [] => []
  | p :: ps =>
    let stop := start.after p.text
    match p.role with
    | .blank => tokensAt stop ps
    | .lexeme kind literal =>
      ⟨kind, String.ofList p.text, literal, stop.line, some start.column⟩ :: tokensAt stop ps

def textOf (ps : List Piece) : List Char := ps.flatMap Piece.text

def Ending.rest : Ending → List Char
  | complete => []
  | stuck _ rest => rest

/-- Cutting loses nothing. -/
theorem textOf_pieces (text : List Char) :
    textOf (pieces text).1 ++ (pieces text).2.rest = text := by
  fun_induction pieces text with
  | case1 => rfl
  | case2 => rfl
  | case3 c cs p hp ps ending heq ih =>
    obtain ⟨rfl, h⟩ := isPrefix_of_front hp
    simp only [heq] at ih
    simp only [textOf, List.flatMap_cons, Piece.text, List.append_assoc, List.cons_append]
    rw [← textOf, ih, List.prefix_iff_eq_append.1 h]

end Scan

/-- A scan that got stuck, with the offending text. Its line is the one reached when that is
noticed: for a string or a comment that is never closed, the last line of the text. -/
structure ScanError where
  cause : ScanCause
  line : Int
  lexeme : String
  column : Nat

namespace ScanError

def ofStuck (cause : ScanCause) (rest : List Char) (start : Place) : ScanError :=
  match cause with
  | .unexpectedCharacter c => ⟨cause, start.line, c.toString, start.column⟩
  | .unterminatedString => ⟨cause, (start.after rest).line, String.ofList rest, start.column⟩
  | .unterminatedComment =>
    ⟨cause, (start.after rest).line, String.ofList (rest.take 2), start.column⟩

def toDiagnostic (e : ScanError) : Diagnostic where
  phase := .lexical
  line := some e.line
  message := e.cause.message
  lexeme := e.lexeme
  column := some e.column

end ScanError

structure ScanFailure where
  before : List Token
  error : ScanError

/-- The tokens of a text whose first line has the number `line`, with one more for its end. -/
def scanChars (text : List Char) (line : Int) : Except ScanFailure (List Token) :=
  let start : Place := ⟨line, 0⟩
  let (ps, ending) := Scan.pieces text
  let tokens := Scan.tokensAt start ps
  let stop := start.after (Scan.textOf ps)
  match ending with
  | .complete => .ok (tokens ++ [⟨.eof, "", .nil, stop.line, some stop.column⟩])
  | .stuck cause rest => .error ⟨tokens, ScanError.ofStuck cause rest stop⟩

def scan (source : String) (line : Int) : Except ScanFailure (List Token) :=
  scanChars source.toList line

end Lox
