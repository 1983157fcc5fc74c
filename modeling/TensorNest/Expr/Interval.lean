import TensorNest.Expr.Simplify

/-!
# Symbolic intervals

The inclusive interval of the values of an expression when some of its variables range over given
intervals, the others being kept symbolic. A point is told apart from an interval whose two ends were
computed separately, even if these are equal.
-/

namespace TensorNest

/-- An inclusive interval with symbolic ends. -/
inductive Interval where
  | point (e : Expr)
  | span (lo hi : Expr)
  deriving Inhabited

namespace Interval

def lo : Interval → Expr
  | point e => e
  | span lo _ => lo

def hi : Interval → Expr
  | point e => e
  | span _ hi => hi

/-- The constant that an interval is the point of. -/
def constPoint? : Interval → Option Number
  | point (.const v _) => some v
  | _ => none

/-- Whether an interval is a point. -/
def isPoint : Interval → Bool
  | point _ => true
  | span .. => false

/-- The intervals of some variables. -/
abbrev Domains := List (Var × Interval)

/-- The interval of a variable. -/
def find? (d : Domains) (v : Var) : Option Interval :=
  (List.find? (fun p => p.1.id == v.id) d).map (·.2)

/-- Sets the interval of a variable. -/
def insert (d : Domains) (v : Var) (i : Interval) : Domains :=
  (v, i) :: d

/-- Both ends of an interval times a constant, exchanged if the constant is negative. -/
def scale (a : Interval) (v : Number) (c : Expr) : Except Error Interval := do
  if (Number.int 0).le v then return span (← Expr.mul a.lo c) (← Expr.mul a.hi c)
  return span (← Expr.mul a.hi c) (← Expr.mul a.lo c)

/-- The interval between the least and the greatest of the products of the ends. -/
def hull (a b : Interval) : Except Error Interval := do
  let p₁ ← Expr.mul a.lo b.lo
  let p₂ ← Expr.mul a.lo b.hi
  let p₃ ← Expr.mul a.hi b.lo
  let p₄ ← Expr.mul a.hi b.hi
  let (lo, hi) ← [p₂, p₃, p₄].foldlM (fun (lo, hi) p => do
    let lo ← Expr.minimum lo p
    let hi ← Expr.maximum hi p
    return (lo, hi)) (p₁, p₁)
  return span lo hi

/-- The product of two intervals. -/
def mul (a b : Interval) : Except Error Interval :=
  match a, b with
  | a, b@(point (.const v _)) => a.scale v b.lo
  | a@(point (.const v _)), b => b.scale v a.lo
  | point x, point y => point <$> Expr.mul x y
  | a, b => hull a b

/-- The remainder by a constant: exact inside one period of a dividend that is not negative,
    otherwise all remainders that the sign of the lower end allows. -/
def mod (a : Interval) (divisor : Number) (t : DataType) : Except Error Interval := do
  let c : Int := (← divisor.toInt).natAbs
  let lo ← a.lo.simplify
  let hi ← a.hi.simplify
  match lo.constValue?, hi.constValue? with
  | some x, some y =>
    if (Number.int 0).le x then
      let (qx, rx) ← x.floorDivMod c
      let (qy, ry) ← y.floorDivMod c
      if qx.eq qy then return span (← Expr.ofNumber rx t) (← Expr.ofNumber ry t)
  | _, _ => pure ()
  let negative := match lo with
    | .const v _ => v.lt (.int 0)
    | _ => false
  let low ← Expr.ofInt (if negative then -(c - 1) else 0) t
  return span low (← Expr.ofInt (c - 1) t)

/-- The quotient or remainder of an interval by the point of a constant; unknown for any other
    divisor, for zero, and for quotients that are no integers. -/
def divMod? (op : BinOp) (t : DataType) (a b : Interval) : Except Error (Option Interval) := do
  match b.constPoint? with
  | none => return none
  | some v =>
    if !v.truthy then return none
    if op = .mod then return some (← a.mod v t)
    if !t.isInteger then return none
    if (Number.int 0).lt v then
      return some (span (← Expr.div a.lo b.lo) (← Expr.div a.hi b.lo))
    return some (span (← Expr.div a.hi b.lo) (← Expr.div a.lo b.lo))

/-- The interval of an arithmetic operation of type `t` on two intervals. -/
def arith? (op : BinOp) (t : DataType) (a b : Interval) : Except Error (Option Interval) := do
  match op with
  | .add => return some (span (← Expr.add a.lo b.lo) (← Expr.add a.hi b.hi))
  | .sub => return some (span (← Expr.sub a.lo b.hi) (← Expr.sub a.hi b.lo))
  | .mul => return some (← a.mul b)
  | .min => return some (span (← Expr.minimum a.lo b.lo) (← Expr.minimum a.hi b.hi))
  | .max => return some (span (← Expr.maximum a.lo b.lo) (← Expr.maximum a.hi b.hi))
  | .div | .mod => divMod? op t a b
  | _ => return none

/-- An interval converted to a type. -/
def castTo (t : DataType) (a : Interval) : Except Error Interval :=
  match a with
  | point e => do
    let lo ← Expr.castTo t e
    return if e.dtype = t then point lo else span lo lo
  | span lo hi => do return span (← Expr.castTo t lo) (← Expr.castTo t hi)

/-- The interval of an expression over the given intervals of variables, none if no bound is known. -/
def ofExpr? (d : Domains) : Expr → Except Error (Option Interval)
  | .var v => .ok (some ((find? d v).getD (point (.var v))))
  | e@(.bin op a b) => do
    if !e.usesAny (d.map (·.1.id)) then return some (point e)
    if op.isLogical then return none
    let x ← ofExpr? d a
    let y ← ofExpr? d b
    match x, y with
    | some x, some y => arith? op e.dtype x y
    | _, _ => return none
  | e@(.select _ t f) => do
    if !e.usesAny (d.map (·.1.id)) then return some (point e)
    let x ← ofExpr? d t
    let y ← ofExpr? d f
    match x, y with
    | some x, some y =>
      return some (span (← Expr.minimum x.lo y.lo) (← Expr.maximum x.hi y.hi))
    | _, _ => return none
  | e@(.cast t a) => do
    if !e.usesAny (d.map (·.1.id)) then return some (point e)
    match ← ofExpr? d a with
    | some x => return some (← x.castTo t)
    | none => return none
  | e => .ok (if e.usesAny (d.map (·.1.id)) then none else some (point e))

/-- The simplified ends of the interval of an expression, none if no bound is known. -/
def eval? (e : Expr) (d : Domains) : Except Error (Option (Expr × Expr)) := do
  match ← ofExpr? d e with
  | some i =>
    let lo ← i.lo.simplify
    let hi ← i.hi.simplify
    return some (lo, hi)
  | none => return none

end Interval

end TensorNest
