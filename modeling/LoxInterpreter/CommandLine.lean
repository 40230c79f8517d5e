import LoxInterpreter.Text.DecimalDigit

/-!
The command line: what its words ask for. Options may be shortened as long as only one option
begins that way, and a word `--` ends the options.
-/

namespace Lox

inductive Switch
  | help | tokens | trees
  deriving DecidableEq, Repr

namespace Switch

def all : List Switch := [help, tokens, trees]

def name : Switch → String
  | help => "--help"
  | tokens => "--tokens"
  | trees => "--ast"

def beginning (start : List Char) : List Switch :=
  all.filter fun o => start.isPrefixOf o.name.toList

end Switch

/-- What a word of the command line is, in front of a word `--`. -/
inductive Argument
  | positional
  | option (o : Switch)
  /-- An option with a value, which none of them takes. -/
  | valued
  | ambiguous
  | unknown
  deriving DecidableEq, Repr

namespace Argument

/-- A text without one newline at its end, if it has one there. -/
def chompNewline (text : List Char) : List Char :=
  if text.getLast? = some '\n' then text.dropLast else text

/-- Whether a word is a negative number, and so no option although it begins with a dash. Its
digits may be those of any script, and a newline may follow it. -/
def isNegativeNumber (word : List Char) : Bool :=
  match chompNewline word with
  | '-' :: text =>
    let whole := text.takeWhile Text.isDecimalDigit
    match text.dropWhile Text.isDecimalDigit with
    | [] => !whole.isEmpty
    | '.' :: part => !part.isEmpty && part.all Text.isDecimalDigit
    | _ => false
  | _ => false

/-- A word with two dashes: an option, or the beginning of its name, perhaps with an equals
sign and a value after it. -/
def ofLong (text : List Char) : Argument :=
  let start := text.takeWhile (· != '=')
  let hasValue := start.length < text.length
  match Switch.beginning start with
  | [] => if text.contains ' ' then .positional else .unknown
  | [o] => if hasValue then .valued else .option o
  | _ => .ambiguous

/-- A word with one dash. The only short option is `-h`, and it may be repeated in one word. -/
def ofShort (text : List Char) : Argument :=
  match text with
  | '-' :: 'h' :: more =>
    let more := match more with
      | '=' :: v :: value => v :: value
      | _ => more
    if more.all (· == 'h') then .option .help else .valued
  | _ => if isNegativeNumber text || text.contains ' ' then .positional else .unknown

def ofWord (word : String) : Argument :=
  match word.toList with
  | '-' :: '-' :: text => ofLong ('-' :: '-' :: text)
  | '-' :: c :: text => ofShort ('-' :: c :: text)
  | _ => .positional

end Argument

/-- What can be chosen on the command line. Without a file, the shell runs. -/
structure Options where
  file : Option String := none
  showTokens : Bool := false
  showTrees : Bool := false
  deriving DecidableEq, Repr

inductive Request
  | run (o : Options)
  | help
  | misuse
  deriving DecidableEq, Repr

namespace Request

/-- Reads the words in order. `surplus` says whether there were words too many, and `afterFile`
whether the word before was the file. -/
def ofWords (o : Options) (surplus afterFile : Bool) : List String → Request
  | [] => if surplus then .misuse else .run o
  | "--" :: words =>
    match o.file, words with
    | none, [] => if surplus then .misuse else .run o
    | none, [file] => if surplus then .misuse else .run { o with file := some file }
    | some _, [] => if surplus || !afterFile then .misuse else .run o
    | _, _ => .misuse
  | word :: words =>
    match Argument.ofWord word with
    | .positional =>
      match o.file with
      | none => ofWords { o with file := some word } surplus true words
      | some _ => ofWords o true false words
    | .option .help => .help
    | .option .tokens => ofWords { o with showTokens := true } surplus false words
    | .option .trees => ofWords { o with showTrees := true } surplus false words
    | .unknown => ofWords o true false words
    | .valued | .ambiguous => .misuse

/-- Reads a command line. An option that could be two is wrong wherever it
stands. -/
def ofCommandLine (words : List String) : Request :=
  if (words.takeWhile (· != "--")).any (Argument.ofWord · = .ambiguous) then .misuse
  else ofWords {} false false words

end Request

end Lox
