import LoxInterpreter.Machine

/-!
What operators do with the values of their operands.
-/

namespace Lox

inductive OperatorFault
  | unfit (cause : RuntimeCause)
  | unsupported
  deriving DecidableEq, Repr

/-- The value of an operator before its operand: `!` is defined on all values, the sign on
numbers only. -/
def Value.unary (operator : Kind) (v : Value) : Except OperatorFault Value :=
  if operator = .bang then
    .ok (.bool (!v.isTruthy))
  else
    match v with
    | .number x => .ok (.number (-x))
    | _ => .error (.unfit .operandNotNumber)

/-- The value of an arithmetic operator or comparison of two numbers. Division follows the
arithmetic of floating-point numbers, so that dividing by zero gives an infinity or NaN. -/
def arithmetic (operator : Kind) (x y : Float) : Except OperatorFault Value :=
  match operator with
  | .minus => .ok (.number (x - y))
  | .star => .ok (.number (x * y))
  | .slash => .ok (.number (x / y))
  | .greater => .ok (.bool (y < x))
  | .greaterEqual => .ok (.bool (y ≤ x))
  | .less => .ok (.bool (x < y))
  | .lessEqual => .ok (.bool (x ≤ y))
  | _ => .error .unsupported

/-- Addition of two numbers, or concatenation of texts if one of the operands is a string. -/
def Value.add : Value → Value → Except OperatorFault Value
  | .number x, .number y => .ok (.number (x + y))
  | .string s, v => .ok (.string (s ++ v.text))
  | v, .string s => .ok (.string (v.text ++ s))
  | _, _ => .error (.unfit .operandsNotAddable)

def Value.binary (operator : Kind) (left right : Value) : Except OperatorFault Value :=
  match operator with
  | .equalEqual => .ok (.bool (left.same right))
  | .bangEqual => .ok (.bool (!left.same right))
  | .plus => left.add right
  | _ =>
    match left, right with
    | .number x, .number y => arithmetic operator x y
    | _, _ => .error (.unfit .operandsNotNumbers)

/-- Whether the left operand of `and` or `or` is the value of the whole. -/
def Value.decides (operator : Kind) (left : Value) : Bool :=
  if operator = .keyword .orWord then left.isTruthy else !left.isTruthy

def Run.ofOperator (operator : Token) : Except OperatorFault Value → Run Value
  | .ok v => pure v
  | .error (.unfit cause) => Run.fail operator cause
  | .error .unsupported => throw (.unsupported operator)

end Lox
