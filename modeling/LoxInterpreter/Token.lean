/-!
Tokens: the pieces of a program text that mean something, each with the place
where it stands.
-/

namespace Lox

inductive Keyword
  | andWord | classWord | elseWord | falseWord | forWord | funWord | ifWord | nilWord
  | orWord | printWord | returnWord | superWord | thisWord | trueWord | varWord | whileWord
  deriving DecidableEq, Repr, Inhabited

namespace Keyword

def all : List Keyword :=
  [andWord, classWord, elseWord, falseWord, forWord, funWord, ifWord, nilWord,
    orWord, printWord, returnWord, superWord, thisWord, trueWord, varWord, whileWord]

def word : Keyword → String
  | andWord => "and"
  | classWord => "class"
  | elseWord => "else"
  | falseWord => "false"
  | forWord => "for"
  | funWord => "fun"
  | ifWord => "if"
  | nilWord => "nil"
  | orWord => "or"
  | printWord => "print"
  | returnWord => "return"
  | superWord => "super"
  | thisWord => "this"
  | trueWord => "true"
  | varWord => "var"
  | whileWord => "while"

/-- The keyword spelled `s`, if there is one. Keywords are compared as whole words, so
`orchid` is none. -/
def ofWord? (s : String) : Option Keyword :=
  all.find? (·.word == s)

theorem mem_all (k : Keyword) : k ∈ all := by
  cases k <;> decide

end Keyword

inductive Kind
  | leftParen | rightParen | leftBrace | rightBrace | comma | dot | minus | plus | semicolon
  | slash | star | bang | bangEqual | equal | equalEqual | greater | greaterEqual | less
  | lessEqual | identifier | string | number
  | keyword (k : Keyword)
  | eof
  deriving DecidableEq, Repr, Inhabited

namespace Kind

/-- The kind of a whole word: its keyword, or else a name. -/
def ofWord (s : String) : Kind :=
  match Keyword.ofWord? s with
  | some k => .keyword k
  | none => .identifier

def label : Kind → String
  | leftParen => "LEFT_PAREN"
  | rightParen => "RIGHT_PAREN"
  | leftBrace => "LEFT_BRACE"
  | rightBrace => "RIGHT_BRACE"
  | comma => "COMMA"
  | dot => "DOT"
  | minus => "MINUS"
  | plus => "PLUS"
  | semicolon => "SEMICOLON"
  | slash => "SLASH"
  | star => "STAR"
  | bang => "BANG"
  | bangEqual => "BANG_EQUAL"
  | equal => "EQUAL"
  | equalEqual => "EQUAL_EQUAL"
  | greater => "GREATER"
  | greaterEqual => "GREATER_EQUAL"
  | less => "LESS"
  | lessEqual => "LESS_EQUAL"
  | identifier => "IDENTIFIER"
  | string => "STRING"
  | number => "NUMBER"
  | keyword k => k.word.toUpper
  | eof => "EOF"

end Kind

/-- A value that a program text can spell out. -/
inductive Literal
  | nil
  | bool (b : Bool)
  | number (x : Float)
  | string (s : String)
  deriving Inhabited

/-- A token. Its line is the one on which its last character stands; its column counts the
characters before its first one on the line where that one stands, when it is known. Only
strings and numbers have a literal other than `nil`. -/
structure Token where
  kind : Kind
  lexeme : String
  literal : Literal
  line : Int
  column : Option Nat
  deriving Inhabited

/-- The place of the next character of a text: its line, and how many characters stand
before it on that line. -/
structure Place where
  line : Int
  column : Nat
  deriving DecidableEq, Repr, Inhabited

namespace Place

/-- The place after one more character: only a newline begins a line. -/
def next (p : Place) (c : Char) : Place :=
  if c = '\n' then ⟨p.line + 1, 0⟩ else ⟨p.line, p.column + 1⟩

def after (p : Place) (text : List Char) : Place :=
  text.foldl next p

@[simp] theorem after_nil (p : Place) : p.after [] = p := rfl

@[simp] theorem after_cons (p : Place) (c : Char) (cs : List Char) :
    p.after (c :: cs) = (p.next c).after cs := rfl

@[simp] theorem after_append (p : Place) (cs ds : List Char) :
    p.after (cs ++ ds) = (p.after cs).after ds := by
  simp [after, List.foldl_append]

end Place

end Lox
