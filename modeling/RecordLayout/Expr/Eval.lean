import RecordLayout.Error
import RecordLayout.Expr.Basic

/-!
# Evaluating expressions

An expression is evaluated from left to right, operands before operators, and the first fault stops
it. A field stands for the latest value its declaration had in this pass. An external name is put to
the caller's resolver together with the whole expression it occurs in.
-/

namespace RecordLayout

/-- The latest values of the numeric declarations of a pass, by index. -/
structure Numbers where
  entries : List (Nat × Int64)

namespace Numbers

/-- No declaration has a value yet. -/
def empty : Numbers := ⟨[]⟩

/-- The latest value of the declaration with an index. -/
def get? (n : Numbers) (index : Nat) : Option Int64 :=
  (n.entries.find? (·.1 == index)).map Prod.snd

/-- A new value of the declaration with an index. -/
def put (n : Numbers) (index : Nat) (value : Int64) : Numbers :=
  ⟨(index, value) :: n.entries.filter (·.1 != index)⟩

theorem get?_empty (index : Nat) : empty.get? index = none := rfl

theorem get?_put (n : Numbers) (i j : Nat) (value : Int64) :
    (n.put i value).get? j = if i = j then some value else n.get? j := by
  unfold get? put
  by_cases h : i = j
  · simp [h]
  · have hij : (i == j) = false := by simpa using h
    simp only [List.find?_cons, hij, h, if_false, List.find?_filter]
    congr 1
    congr 1
    funext e
    by_cases he : e.1 = j
    · simp [he, Ne.symm h]
    · simp [he]

end Numbers

/-- Finds the values of external names. It is told the expression in which the name occurs. -/
abbrev Resolver := String → Expr → Option Int64

/-- What an expression is evaluated in. -/
structure Expr.Env where
  numbers : Numbers
  counter : Int64
  resolver : Option Resolver

namespace Expr

/-- The value of an external name that occurs in `root`. -/
def Env.external (env : Env) (root : Expr) (name : String) : Except Error Int64 :=
  match env.resolver with
  | none => .error (.noResolver name)
  | some resolve =>
    match resolve name root with
    | some v => .ok v
    | none => .error (.unresolved name)

/-- The value of a part of the expression `root`. -/
def evalIn (env : Env) (root : Expr) : Expr → Except Error Int64
  | const v => .ok v
  | field info =>
    match env.numbers.get? info.index with
    | some v => .ok v
    | none => .error (.noValueYet info.path)
  | external name => env.external root name
  | counter => .ok env.counter
  | unary op e => do
    let v ← evalIn env root e
    pure (op.apply v)
  | binary op l r => do
    let a ← evalIn env root l
    let b ← evalIn env root r
    match op.value? a b with
    | some v => .ok v
    | none => .error (.zeroDivisor op)

/-- The value of an expression. -/
def eval (env : Env) (e : Expr) : Except Error Int64 := evalIn env e e

/-- The external names that the resolver is asked for, in order, while a part of `root` is
evaluated. -/
def askedIn (env : Env) (root : Expr) : Expr → List String
  | external name => [name]
  | unary _ e => askedIn env root e
  | binary _ l r =>
    askedIn env root l ++ if (evalIn env root l).isOk then askedIn env root r else []
  | _ => []

/-- The questions to the resolver while an expression is evaluated. -/
def asked (env : Env) (e : Expr) : List (String × Expr) :=
  if env.resolver.isSome then (askedIn env e e).map (·, e) else []

end Expr

end RecordLayout
