import TensorNest.Binary
import TensorNest.Error
import TensorNest.Decimal.Reading
import TensorNest.Decimal.Shortest

/-!
# Constant numbers

The values of constants and how operations on constants are folded. Integers are unbounded and
floating-point numbers are doubles whatever the width of their type: only a running program rounds.
Division of integers is toward zero, with a remainder of the sign of the dividend.
-/

namespace TensorNest

/-- The value of a constant. A literal that is no number is the same only as itself: its mark tells it from
    all other such literals. -/
inductive Number where
  | bool (b : Bool)
  | int (n : Int)
  | float (x : Float)
  | unknown (mark : Nat)
  deriving Repr, Inhabited

/-- The quotient toward zero, from the quotient of the magnitudes. -/
def truncDiv (a b : Int) : Int :=
  let q : Int := (a.natAbs / b.natAbs : Nat)
  if (0 ≤ a) = (0 ≤ b) then q else -q

/-- The remainder of the division toward zero. -/
def truncMod (a b : Int) : Int :=
  a - b * truncDiv a b

namespace Number

/-- The magnitude of a finite double as an integer multiple of `2 ^ e`, for an `e` below its own
    exponent. -/
def scaledTo (e : Int) (m : Nat) (own : Int) : Nat :=
  m * Nat.pow 2 (own - e).toNat

/-- The remainder of the division of doubles toward zero, computed exactly; it has the sign of the
    dividend. No number when the dividend is infinite or the divisor zero. -/
def floatMod (x y : Float) : Float :=
  match Binary.decode x, Binary.decode y with
  | .finite neg mx ex, .finite _ my ey =>
    let e := min ex ey
    let divisor := scaledTo e my ey
    if divisor = 0 then Binary.notANumber
    else
      let r := scaledTo e mx ex % divisor
      if 0 ≤ e then Binary.ofRatio neg (r * Nat.pow 2 e.toNat) 1
      else Binary.ofRatio neg r (Nat.pow 2 (-e).toNat)
  | .finite .., .infinite _ => x
  | _, _ => Binary.notANumber

/-- Whether a number counts as true. -/
def truthy : Number → Bool
  | bool b => b
  | int n => n != 0
  | float x => !(x == 0.0)
  | unknown _ => true

/-- The integer that a number that is no floating-point number stands for. -/
def asInt? : Number → Option Int
  | bool b => some (if b then 1 else 0)
  | int n => some n
  | float _ | unknown _ => none

/-- Whether a number is a floating-point number. -/
def isFloat : Number → Bool
  | float _ | unknown _ => true
  | _ => false

/-- A number as an integer, or as a double if it is a floating-point number. -/
def split : Number → Int ⊕ Float
  | bool b => .inl (if b then 1 else 0)
  | int n => .inl n
  | float x => .inr x
  | unknown _ => .inr Binary.notANumber

/-- The integer part of a number, toward zero. -/
def toInt : Number → Except Error Int
  | bool b => .ok (if b then 1 else 0)
  | int n => .ok n
  | float x =>
    match Binary.truncate? x with
    | some n => .ok n
    | none => if Binary.isNaN x then .error .noInteger else .error .overflow
  | unknown _ => .error .noInteger

/-- A number as a double; an integer beyond the doubles has none. -/
def toFloat : Number → Except Error Float
  | bool b => .ok (if b then 1.0 else 0.0)
  | int n =>
    match Binary.ofInt? n with
    | some x => .ok x
    | none => .error .overflow
  | float x => .ok x
  | unknown _ => .ok Binary.notANumber

/-- Reads an integer. -/
def readInt (s : String) : Except Error Int :=
  let count := Decimal.digitCount s
  if Decimal.digitLimit < count then .error (.tooManyDigits count)
  else
    match Decimal.readInt? s with
    | some n => .ok n
    | none => .error (.notInteger s)

/-- Reads a double. -/
def readFloat (s : String) : Except Error Float :=
  match Decimal.readFloat? s with
  | some x => .ok x
  | none => .error (.notNumber s)

/-- A number as the value of a constant of a type. -/
def ofType (t : DataType) (x : Number) : Except Error Number :=
  if t.isBool then .ok (.bool x.truthy)
  else if t.isFloat then
    match x with
    | unknown mark => .ok (unknown mark)
    | x => float <$> x.toFloat
  else if t.isInteger then int <$> x.toInt
  else .error (.noConstant t)

/-- An operation done on integers if both operands are integers and on doubles otherwise. -/
def lift {α : Type} (onInt : Int → Int → α) (onFloat : Float → Float → α) (x y : Number) :
    Except Error α :=
  match x.asInt?, y.asInt? with
  | some a, some b => .ok (onInt a b)
  | _, _ => do return onFloat (← x.toFloat) (← y.toFloat)

def add (x y : Number) : Except Error Number :=
  lift (fun a b => int (a + b)) (fun a b => float (a + b)) x y

def sub (x y : Number) : Except Error Number :=
  lift (fun a b => int (a - b)) (fun a b => float (a - b)) x y

def mul (x y : Number) : Except Error Number :=
  lift (fun a b => int (a * b)) (fun a b => float (a * b)) x y

/-- The opposite number; that of a truth value is an integer. -/
def neg (x : Number) : Number :=
  match x.split with
  | .inl n => int (-n)
  | .inr y => float (-y)

/-- Division: toward zero for integer types, of doubles otherwise. -/
def div (integer : Bool) (x y : Number) : Except Error Number :=
  match integer, x.asInt?, y.asInt? with
  | true, some a, some b => .ok (int (truncDiv a b))
  | _, _, _ => do return float ((← x.toFloat) / (← y.toFloat))

/-- Remainder of the division toward zero. -/
def mod (integer : Bool) (x y : Number) : Except Error Number :=
  match integer, x.asInt?, y.asInt? with
  | true, some a, some b => .ok (int (truncMod a b))
  | _, _, _ => do
    let a ← x.toFloat
    let b ← y.toFloat
    let r := floatMod a b
    if Binary.isNaN r && !Binary.isNaN a && !Binary.isNaN b then
      throw (.invalidValue "math domain error")
    return float r

/-- Zero with the sign of a double. -/
def zeroLike (x : Float) : Float :=
  if Binary.isNegative x then -0.0 else 0.0

/-- The quotient of doubles rounded down, and its remainder, which has the sign of the divisor. Every
    step is rounded. -/
def floorDivModFloat (round : Float → Float) (x y : Float) : Float × Float :=
  let r := floatMod x y
  let q := round (round (x - r) / y)
  let (q, r) :=
    if r == 0.0 then (q, zeroLike y)
    else if decide (y < 0.0) != decide (r < 0.0) then (round (q - 1.0), round (r + y))
    else (q, r)
  if q == 0.0 then (zeroLike (x / y), r)
  else
    let f := q.floor
    (if q - f > 0.5 then round (f + 1.0) else f, r)

/-- The quotient rounded down and its remainder, by an integer other than zero. -/
def floorDivMod (x : Number) (c : Int) : Except Error (Number × Number) :=
  match x.asInt? with
  | some a => .ok (int (Int.fdiv a c), int (Int.fmod a c))
  | none => do
    let (q, r) := floorDivModFloat id (← x.toFloat) (← (int c).toFloat)
    return (float q, float r)

/-- The quotient as a double. -/
def ratio (x y : Number) : Except Error Number :=
  match x.asInt?, y.asInt? with
  | some a, some b => do
    if b = 0 then throw .invalidOperand
    let q := Binary.ofRatio (decide (a < 0) != decide (b < 0)) a.natAbs b.natAbs
    if Binary.isInfinite q then throw .overflow else return float q
  | _, _ => do
    let a ← x.toFloat
    let b ← y.toFloat
    if b == 0.0 then throw .invalidOperand else return float (a / b)

/-- The remainder of the division rounded down, which has the sign of the divisor. -/
def floorMod (x y : Number) : Except Error Number :=
  match x.asInt?, y.asInt? with
  | some a, some b => if b = 0 then .error .invalidOperand else .ok (int (Int.fmod a b))
  | _, _ => do
    let a ← x.toFloat
    let b ← y.toFloat
    if b == 0.0 then throw .invalidOperand else return float (floorDivModFloat id a b).2

/-- How a double stands to an integer, compared exactly. -/
def floatOrder? (x : Float) (n : Int) : Option Ordering :=
  match Binary.decode x with
  | .notANumber => none
  | .infinite negative => some (if negative then .lt else .gt)
  | .finite negative m e =>
    let m : Int := if negative then -(m : Int) else m
    some <|
      if 0 ≤ e then compare (m * (Nat.pow 2 e.toNat : Nat)) n
      else compare m (n * (Nat.pow 2 (-e).toNat : Nat))

/-- How two numbers stand to each other, compared exactly; a double that is no number does not stand in
    any order. -/
def order? (x y : Number) : Option Ordering :=
  match x.asInt?, y.asInt?, x, y with
  | some a, some b, _, _ => some (compare a b)
  | some a, none, _, float y => (floatOrder? y a).map Ordering.swap
  | none, some b, float x, _ => floatOrder? x b
  | none, none, float x, float y =>
    if x == y then some .eq else if x < y then some .lt else if y < x then some .gt else none
  | _, _, _, _ => none

def eq (x y : Number) : Bool := x.order? y == some .eq
def lt (x y : Number) : Bool := x.order? y == some .lt
def le (x y : Number) : Bool := x.lt y || x.eq y

/-- The first number unless the second is smaller. -/
def min (x y : Number) : Number := if y.lt x then y else x

/-- The first number unless the second is greater. -/
def max (x y : Number) : Number := if x.lt y then y else x

/-- Equality of values: two doubles that are no numbers differ. -/
def same : Number → Number → Bool
  | bool a, bool b => a == b
  | int a, int b => a == b
  | float a, float b => a == b
  | unknown m, unknown n => m == n
  | _, _ => false

/-- Equality of values across kinds, where truth values are the integers 0 and 1 but no number is a double. -/
def agrees (x y : Number) : Bool :=
  match x.asInt?, y.asInt? with
  | some a, some b => a == b
  | _, _ => x.same y

/-- Whether two numbers are the same bit by bit. -/
def exactly : Number → Number → Bool
  | bool a, bool b => a == b
  | int a, int b => a == b
  | float a, float b => a.toBits == b.toBits
  | unknown m, unknown n => m == n
  | _, _ => false

/-- The text of a number outside programs. -/
def text : Number → String
  | bool b => if b then "True" else "False"
  | int n => toString n
  | float x => Decimal.floatText x
  | unknown _ => Decimal.floatText Binary.notANumber

end Number

end TensorNest
