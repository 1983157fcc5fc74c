import TensorNest.Lowering.MathCalls
import TensorNest.Run.Numeric

/-!
# Mathematical functions

The functions that a running program can call by name, on scalars and lane by lane. Most of them take
integers to floating-point numbers that are wide enough for them; those that only round leave integers as
they are.
-/

namespace TensorNest

namespace ElemType

/-- The floating-point type in which a function is computed. -/
def floating : ElemType → ElemType
  | bool => float 16
  | int bits | uint bits => float (floatWidthFor bits)
  | float bits => float bits

/-- The number of bits that are one in the two's complement of an integer of a width. -/
def ones (bits : Nat) (n : Int) : Nat :=
  let m := (n % (Nat.pow 2 bits : Nat)).toNat
  (List.range bits).countP fun i => m.testBit i

end ElemType

namespace Numeric

/-- A function of doubles, rounded to the type in which it is computed. -/
def floatMap (f : Float → Float) (a : Numeric) : Except Error Numeric := do
  let t := a.type.floating
  return typed t ((← a.lanesIn t).map fun
    | .float x => .float (t.rounded (f x))
    | x => x)

/-- A function that keeps the type of its operand, given on integers and on doubles; truth values stay
    as they are. -/
def map (onInt : Int → Int) (onFloat : Float → Float) (a : Numeric) : Except Error Numeric := do
  let t := a.type
  return typed t ((← a.lanesIn t).map fun
    | .bool b => .bool b
    | .int n => .int (t.wrap (onInt n))
    | .float x => .float (t.rounded (onFloat x))
    | .unknown mark => .unknown mark)

/-- The opposite; truth values have none. -/
def neg : Numeric → Except Error Numeric
  | free x => .ok (free x.neg)
  | typed .bool _ => .error .invalidOperand
  | a => a.map (- ·) (- ·)

/-- The integer part of a double, as a double. -/
def truncFloat (x : Float) : Float :=
  if x < 0.0 then x.ceil else x.floor

/-- The sign of a double: one, minus one or zero; no number has none. -/
def signFloat (x : Float) : Float :=
  if x < 0.0 then -1.0 else if 0.0 < x then 1.0 else if Binary.isNaN x then x else 0.0

/-- The sign of an operand; truth values have none. -/
def sign (a : Numeric) : Except Error Numeric :=
  match a.type with
  | .bool => .error .invalidElements
  | _ => a.map Int.sign signFloat

def abs (a : Numeric) : Except Error Numeric :=
  a.map (fun n => (n.natAbs : Int)) Float.abs

/-- The nearest integer, half way cases away from zero. -/
def round (a : Numeric) : Except Error Numeric := do
  let s ← a.sign
  let above ← (← a.abs).add (free (.float 0.5))
  s.mul (← above.map id Float.floor)

/-- The logistic function. -/
def sigmoid (a : Numeric) : Except Error Numeric := do
  let e ← (← a.neg).floatMap Float.exp
  (free (.int 1)).ratio (← (free (.int 1)).add e)

/-- The number of bits that are one. -/
def popcount (a : Numeric) : Except Error Numeric := do
  let t := a.type
  let counts ← (← a.lanesIn t).mapM fun x => do
    return Number.int (ElemType.ones (8 * t.bytes) (← x.toInt))
  return typed (.int 64) counts

end Numeric

/-- The functions that can be called by name. -/
inductive MathFunction where
  | exp | log | sqrt | tanh | pow | fabs | floor | ceil | trunc | round | popcount | sigmoid
  deriving DecidableEq, Repr

namespace MathFunction

/-- The names of the functions. -/
def names : List (String × MathFunction) :=
  [("exp", exp), ("log", log), ("sqrt", sqrt), ("tanh", tanh), ("pow", pow), ("fabs", fabs),
    ("floor", floor), ("ceil", ceil), ("trunc", trunc), ("round", round), ("popcount", popcount),
    ("sigmoid", sigmoid)]

/-- The function that a name stands for on some target. -/
def ofName? (name : String) : Option MathFunction :=
  names.lookup (mathBase name)

/-- The value of a function. -/
def apply (f : MathFunction) (args : List Numeric) : Except Error Numeric :=
  match f, args with
  | exp, [x] => x.floatMap Float.exp
  | log, [x] => x.floatMap Float.log
  | sqrt, [x] => x.floatMap Float.sqrt
  | tanh, [x] => x.floatMap Float.tanh
  | pow, [x, y] => x.power y
  | fabs, [x] => x.abs
  | floor, [x] => x.map id Float.floor
  | ceil, [x] => x.map id Float.ceil
  | trunc, [x] => x.map id Numeric.truncFloat
  | round, [x] => x.round
  | popcount, [x] => x.popcount
  | sigmoid, [x] => x.sigmoid
  | _, _ => .error .invalidOperand

end MathFunction

end TensorNest
