import LoxInterpreter.Machine.Run

/-!
Values in which the functions are replaced. A program can tell of a function only whether it is
another one, what its name is and how many arguments it takes. So where each function is replaced
by one with the same identity, name and arity, operators and scopes do the same as before.
-/

namespace Lox

structure Closure.Faithful (g : Closure → Closure) : Prop where
  identity (f : Closure) : (g f).identity = f.identity
  lexeme (f : Closure) : (g f).name.lexeme = f.name.lexeme
  arity (f : Closure) : (g f).params.length = f.params.length

namespace Value

def mapFunction (g : Closure → Closure) : Value → Value
  | .function f => .function (g f)
  | v => v

variable (g : Closure → Closure)

@[simp] theorem isTruthy_mapFunction (v : Value) : (v.mapFunction g).isTruthy = v.isTruthy := by
  cases v <;> rfl

theorem decides_mapFunction (k : Kind) (v : Value) :
    (v.mapFunction g).decides k = v.decides k := by
  rw [decides, decides, isTruthy_mapFunction]

theorem mapFunction_ofLiteral (l : Literal) : (ofLiteral l).mapFunction g = ofLiteral l := by
  cases l <;> rfl

theorem unary_mapFunction (k : Kind) (v : Value) :
    (v.mapFunction g).unary k = (v.unary k).map (mapFunction g) := by
  unfold unary
  rw [isTruthy_mapFunction]
  split
  · rfl
  · cases v <;> rfl

theorem map_arithmetic (k : Kind) (x y : Float) :
    (arithmetic k x y).map (mapFunction g) = arithmetic k x y := by
  unfold arithmetic
  split <;> rfl

variable {g} (hg : Closure.Faithful g)

include hg

theorem text_mapFunction (v : Value) : (v.mapFunction g).text = v.text := by
  cases v with
  | function f => rw [mapFunction, text, text, hg.lexeme]
  | _ => rfl

theorem same_mapFunction (v w : Value) :
    (v.mapFunction g).same (w.mapFunction g) = v.same w := by
  cases v with
  | function f =>
    cases w with
    | function f' => rw [mapFunction, mapFunction, same, same, hg.identity, hg.identity]
    | _ => rfl
  | _ => cases w <;> rfl

theorem arity?_mapFunction (v : Value) : (v.mapFunction g).arity? = v.arity? := by
  cases v with
  | function f => rw [mapFunction, arity?, arity?, hg.arity]
  | _ => rfl

theorem add_mapFunction (v w : Value) :
    (v.mapFunction g).add (w.mapFunction g) = (v.add w).map (mapFunction g) := by
  have hv := text_mapFunction hg v
  have hw := text_mapFunction hg w
  cases v with
  | string s => exact congrArg (fun t => Except.ok (string (s ++ t))) hw
  | _ =>
    cases w with
    | string s => exact congrArg (fun t => Except.ok (string (t ++ s))) hv
    | _ => rfl

theorem binary_mapFunction (k : Kind) (v w : Value) :
    (v.mapFunction g).binary k (w.mapFunction g) = (v.binary k w).map (mapFunction g) := by
  unfold binary
  split
  · rw [same_mapFunction hg]
    rfl
  · rw [same_mapFunction hg]
    rfl
  · exact add_mapFunction hg v w
  · cases v with
    | number x =>
      cases w with
      | number y => exact (map_arithmetic g k x y).symm
      | _ => rfl
    | _ => rfl

end Value

def mapBindings (g : Closure → Closure) (bindings : List (String × Value)) :
    List (String × Value) :=
  bindings.map fun b => (b.1, b.2.mapFunction g)

variable (g : Closure → Closure)

theorem bind_mapBindings (name : String) (v : Value) (bindings : List (String × Value)) :
    bind name (v.mapFunction g) (mapBindings g bindings) =
      mapBindings g (bind name v bindings) := by
  induction bindings with
  | nil => rfl
  | cons b rest ih =>
    obtain ⟨n, old⟩ := b
    by_cases hn : n = name
    · simp [mapBindings, bind, hn]
    · simpa [mapBindings, bind, hn] using ih

theorem lookup_mapBindings (name : String) (bindings : List (String × Value)) :
    (mapBindings g bindings).lookup name =
      (bindings.lookup name).map (Value.mapFunction g) := by
  induction bindings with
  | nil => rfl
  | cons b rest ih =>
    obtain ⟨n, old⟩ := b
    by_cases hn : name = n
    · simp [mapBindings, hn]
    · have hn' : (name == n) = false := beq_eq_false_iff_ne.2 hn
      simpa [mapBindings, List.lookup_cons, hn'] using ih

/-- The bindings of a call hold the arguments as they are given. -/
theorem parameterBindings_map (params : List Token) (args : List Value) :
    parameterBindings params (args.map (Value.mapFunction g)) =
      mapBindings g (parameterBindings params args) := by
  unfold parameterBindings
  rw [List.zip_map_right, List.foldl_map]
  change List.foldl _ (mapBindings g []) _ = _
  refine List.foldl_hom (mapBindings g) ?_
  rintro bindings ⟨p, v⟩
  exact bind_mapBindings g p.lexeme v bindings

end Lox
