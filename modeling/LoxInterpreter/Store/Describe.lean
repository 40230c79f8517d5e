import LoxInterpreter.Store
import LoxInterpreter.Text.Quoted

/-!
Descriptions of scopes on one line, for those who look into a program.
-/

namespace Lox

def quote (s : String) : String := String.ofList (Text.quoted s.toList)

def Value.describe : Value → String
  | nil => "None"
  | bool true => "True"
  | bool false => "False"
  | number x => Layout.listing.text x
  | string s => quote s
  | clock => "NativeFunction('clock')"
  | function f => "UserFunction('" ++ f.name.lexeme ++ "')"

def Scope.describe (s : Scope) : String :=
  "\x7b" ++ ", ".intercalate (s.bindings.map fun (n, v) => quote n ++ ": " ++ v.describe) ++ "\x7d"

namespace Store

/-- A scope and those around it, at most `steps` of them. -/
def describeChain (s : Store) : Nat → Option ScopeId → String
  | 0, _ => "None"
  | _ + 1, none => "None"
  | steps + 1, some id =>
    match s.scopes[id]? with
    | none => "None"
    | some scope =>
      "Environment(values=" ++ scope.describe ++ ", enclosing=" ++
        s.describeChain steps scope.enclosing ++ ")"

def describe (s : Store) (id : ScopeId) : String := s.describeChain (id + 1) (some id)

end Store

end Lox
