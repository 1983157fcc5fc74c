import TensorNest.Expr.Build
import TensorNest.Expr.Visit
import TensorNest.Expr.Same

/-!
# Linear forms

An integer expression as a sum of atoms with integer coefficients and a constant. Sums, differences
and products with a constant are taken apart; every other expression is an atom. Atoms are kept in
the order of their first occurrence, the same atom being kept once.
-/

namespace TensorNest

/-- A linear form: its atoms with their coefficients, and its constant. -/
structure Linear where
  terms : List (Expr × Int)
  const : Int
  deriving Inhabited

namespace Linear

/-- The linear form of a single atom. -/
def atom (e : Expr) : Linear := ⟨[(e, 1)], 0⟩

/-- The linear form of a constant. -/
def ofConst (n : Int) : Linear := ⟨[], n⟩

/-- Adds a multiple of an atom to the terms of a form. -/
def addTerm (e : Expr) (c : Int) : List (Expr × Int) → List (Expr × Int)
  | [] => [(e, c)]
  | (a, d) :: ts => if a.same e then (a, d + c) :: ts else (a, d) :: addTerm e c ts

/-- The sum of a form and a multiple of another. -/
def addScaled (l : Linear) (k : Int) (r : Linear) : Linear where
  terms := r.terms.foldl (fun ts t => addTerm t.1 (k * t.2) ts) l.terms
  const := l.const + k * r.const

/-- A multiple of a form. -/
def scale (l : Linear) (k : Int) : Linear where
  terms := l.terms.map fun t => (t.1, t.2 * k)
  const := l.const * k

/-- The linear form of an expression. A constant that is no integer counts as its integer part. -/
def ofExpr : Expr → Except Error Linear
  | .const v _ => ofConst <$> v.toInt
  | .bin .add a b => do
    let l ← ofExpr a
    return l.addScaled 1 (← ofExpr b)
  | .bin .sub a b => do
    let l ← ofExpr a
    return l.addScaled (-1) (← ofExpr b)
  | e@(.bin .mul a b) =>
    match a, b with
    | a, .const v _ => do
      let l ← ofExpr a
      return l.scale (← v.toInt)
    | .const v _, b => do
      let l ← ofExpr b
      return l.scale (← v.toInt)
    | _, _ => .ok (atom e)
  | e => .ok (atom e)

/-- A term of a form as an expression, with a positive coefficient written as a factor unless it is
    one. -/
def termExpr (t : DataType) (e : Expr) (c : Int) : Except Error Expr :=
  if c.natAbs = 1 then .ok e
  else do return .bin .mul e (← Expr.ofInt c.natAbs t)

/-- Adds the terms of a form to the sum built so far. A first term with a negative coefficient is
    written as a product with it, later ones are subtracted. -/
def sumTerms (t : DataType) (acc : Option Expr) : List (Expr × Int) → Except Error (Option Expr)
  | [] => .ok acc
  | (e, c) :: ts =>
    if c = 0 then sumTerms t acc ts
    else do
      let term ← termExpr t e c
      let next ←
        match acc with
        | none => if 0 < c then pure term else do pure (.bin .mul e (← Expr.ofInt c t))
        | some s => pure (.bin (if 0 < c then .add else .sub) s term)
      sumTerms t (some next) ts

/-- A form as an expression of a type. -/
def toExpr (l : Linear) (t : DataType) : Except Error Expr := do
  match ← sumTerms t none l.terms with
  | none => Expr.ofInt l.const t
  | some s =>
    if 0 < l.const then return .bin .add s (← Expr.ofInt l.const t)
    else if l.const < 0 then return .bin .sub s (← Expr.ofInt (-l.const) t)
    else return s

/-- Whether a number divides every coefficient and the constant of a form. -/
def divisibleBy (l : Linear) (d : Int) : Bool :=
  l.const % d == 0 && l.terms.all fun t => t.2 % d == 0

/-- The quotient of a form by a number that divides it. -/
def quotient (l : Linear) (d : Int) : Linear where
  terms := l.terms.map fun t => (t.1, t.2 / d)
  const := l.const / d

/-- Whether no atom is left in a form. -/
def isConst (l : Linear) : Bool :=
  l.terms.all fun t => t.2 == 0

/-- The coefficient of an atom in a form. -/
def coefficient (l : Linear) (e : Expr) : Int :=
  ((l.terms.find? fun t => t.1.same e).map (·.2)).getD 0

end Linear

namespace Expr

/-- The difference of two integer scalars, if it is a constant. -/
def constDiff? (a b : Expr) : Except Error (Option Int) :=
  if a.isIntScalar && b.isIntScalar then do
    let l ← Linear.ofExpr (.bin .sub a b)
    return if l.isConst then some l.const else none
  else .ok none

/-- Splits an expression that is linear in a variable as coefficient and rest. Another term, or none, can
    only be split off from a rest without variables. -/
def linearIn? (e : Expr) (atom : Option Expr) : Except Error (Option (Int × Expr)) := do
  let l ← Linear.ofExpr e
  let rest := l.terms.filter fun t => !atom.any t.1.same
  let live := (rest.filter (·.2 != 0)).map (·.1)
  match atom with
  | some (.var v) => if live.any (·.uses v) then return none
  | _ => if live.any fun a => !a.vars.isEmpty then throw .invalidOperand
  return some ((atom.map l.coefficient).getD 0, ← ({ l with terms := rest } : Linear).toExpr e.dtype)

end Expr

end TensorNest
