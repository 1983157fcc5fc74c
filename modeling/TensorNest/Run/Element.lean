import TensorNest.DataType.Element
import TensorNest.Expr.Basic

/-!
# Arithmetic of elements

How a running program computes with numbers of an element type. Integers wrap at the width of their
type, floating-point numbers are rounded to theirs after every operation, and truth values add and
multiply as disjunction and conjunction. Operands of two types are first taken to a common type.
-/

namespace TensorNest.ElemType

/-- The binary format of floating-point numbers of a width. -/
def format (bits : Nat) : Binary.Format :=
  if bits = 16 then Binary.half else if bits = 32 then Binary.single else Binary.double

/-- A double rounded to a floating-point type. -/
def rounded (t : ElemType) (x : Float) : Float :=
  match t with
  | float 64 => x
  | float bits => (format bits).round x
  | _ => x

/-- Whether a type holds floating-point numbers. -/
def isFloat : ElemType → Bool
  | float _ => true
  | _ => false

/-! ### Conversion -/

/-- The signed type that floating-point numbers are taken to on their way to an integer type. -/
def carrier : ElemType → ElemType
  | int bits => int (max bits 32)
  | uint bits => int (if bits < 32 then 32 else 64)
  | t => t

/-- The integer part of a floating-point number as an integer of a type. One that the carrier can not
    hold becomes the least integer of the carrier. -/
def ofFloat (t : ElemType) (x : Float) : Int :=
  match Binary.truncate? x with
  | some n => if t.carrier.holds n || t.holds n then t.wrap n else t.wrap t.carrier.least
  | none => t.wrap t.carrier.least

/-- An integer as a floating-point number of a type; a half is reached by way of a single. -/
def ofInteger (t : ElemType) (n : Int) : Float :=
  match t with
  | float 16 => Binary.half.round (Binary.single.ofInt n)
  | float bits => (format bits).ofInt n
  | _ => 0.0

/-- A number converted to a type, as between elements of memory: nothing fails and integers wrap. -/
def convert (t : ElemType) (x : Number) : Number :=
  match t with
  | bool => .bool x.truthy
  | float _ =>
    match x.split with
    | .inl n => .float (t.ofInteger n)
    | .inr y => .float (t.rounded y)
  | _ =>
    match x.split with
    | .inl n => .int (t.wrap n)
    | .inr y => .int (t.ofFloat y)

/-- A number without a type as one of a type: an integer has to be one of the type. -/
def ofNumber (t : ElemType) (x : Number) : Except Error Number :=
  match t with
  | bool => .ok (.bool x.truthy)
  | float _ => do return .float (t.rounded (← x.toFloat))
  | _ =>
    do
      let n ← x.toInt
      if x.isFloat then
        if (int 64).holds n || (uint 64).holds n then return .int (t.wrap n) else throw .overflow
      if t.holds n then return .int n else throw .overflow

/-- Whether an integer is one of the widest types. -/
def isMachineInt (n : Int) : Bool :=
  (int 64).holds n || (uint 64).holds n

/-- A number of some type as an element that is stored alone: its integer part has to be one of a signed
    type, and wraps at the width of an unsigned one. -/
def ofStored (t : ElemType) (x : Number) : Except Error Number :=
  match t with
  | bool | float _ => .ok (t.convert x)
  | int _ => do
    let n ← x.toInt
    if t.holds n then return .int n else throw .overflow
  | uint _ => do
    let n ← x.toInt
    if isMachineInt n then return .int (t.wrap n) else throw .overflow

/-- The element of which all bits are zero. -/
def zero : ElemType → Number
  | bool => .bool false
  | float _ => .float 0.0
  | _ => .int 0

/-! ### Common types -/

/-- The narrowest floating-point width for integers of a width. -/
def floatWidthFor (bits : Nat) : Nat :=
  if bits ≤ 8 then 16 else if bits ≤ 16 then 32 else 64

/-- The type that operands of two types are taken to. -/
def join : ElemType → ElemType → ElemType
  | bool, t => t
  | t, bool => t
  | int a, int b => int (max a b)
  | uint a, uint b => uint (max a b)
  | int a, uint b => if b < a then int a else if b < 64 then int (2 * b) else float 64
  | uint a, int b => if a < b then int b else if a < 64 then int (2 * a) else float 64
  | float a, float b => float (max a b)
  | float a, int b | float a, uint b => float (max a (floatWidthFor b))
  | int a, float b | uint a, float b => float (max b (floatWidthFor a))

/-- The type of a number that stands alone. -/
def ofKind : Number → ElemType
  | .bool _ => bool
  | .int _ => int 64
  | .float _ | .unknown _ => float 64

/-- The type that an operand of a type and a number without a type are taken to. -/
def joinNumber (t : ElemType) (x : Number) : ElemType :=
  match x, t with
  | .bool _, _ => t
  | .int _, bool => int 64
  | .int _, _ => t
  | _, float bits => float bits
  | _, _ => float 64

/-! ### Operations

All operands are numbers of the type of the operation. -/

/-- An operation given on truth values, on integers and on doubles. -/
def lift (t : ElemType) (onBool : Bool → Bool → Except Error Number) (onInt : Int → Int → Int)
    (onFloat : Float → Float → Float) (x y : Number) : Except Error Number :=
  match x, y with
  | .bool a, .bool b => onBool a b
  | .int a, .int b => .ok (.int (t.wrap (onInt a b)))
  | .float a, .float b => .ok (.float (t.rounded (onFloat a b)))
  | _, _ => .error .invalidOperand

def add (t : ElemType) : Number → Number → Except Error Number :=
  t.lift (fun a b => .ok (.bool (a || b))) (· + ·) (· + ·)

/-- Truth values can not be subtracted. -/
def sub (t : ElemType) : Number → Number → Except Error Number :=
  t.lift (fun _ _ => .error .invalidOperand) (· - ·) (· - ·)

def mul (t : ElemType) : Number → Number → Except Error Number :=
  t.lift (fun a b => .ok (.bool (a && b))) (· * ·) (· * ·)

/-- Of two doubles the one that comes first; no number if one is none. Of equal ones it is the second,
    but among halves the first. -/
def first (t : ElemType) (before : Float → Float → Bool) (a b : Float) : Float :=
  if Binary.isNaN a then a
  else if Binary.isNaN b then b
  else if t = float 16 then (if before b a then b else a)
  else if before a b then a
  else b

/-- The smaller operand. -/
def min (t : ElemType) : Number → Number → Except Error Number :=
  t.lift (fun a b => .ok (.bool (a && b))) (fun a b => if a < b then a else b) (t.first (· < ·))

/-- The greater operand. -/
def max (t : ElemType) : Number → Number → Except Error Number :=
  t.lift (fun a b => .ok (.bool (a || b))) (fun a b => if b < a then a else b) (t.first (· > ·))

/-- The type in which integers and truth values are divided. -/
def dividing : ElemType → ElemType
  | bool => int 8
  | t => t

/-- The quotient rounded down, zero for a zero divisor. -/
def floorQuotient (t : ElemType) (a b : Int) : Int :=
  if b = 0 then 0 else t.wrap (Int.fdiv a b)

/-- The quotient toward zero: one more than the quotient rounded down when there is a remainder and
    the signs differ. -/
def quotient (t : ElemType) (a b : Int) : Int :=
  let q := t.floorQuotient a b
  let r := t.wrap (a - t.wrap (q * b))
  if r != 0 && (decide (a < 0) != decide (b < 0)) then t.wrap (q + 1) else q

/-- The type in which the steps of a division of floating-point numbers are rounded: halves are divided
    as singles. -/
def stepping : ElemType → ElemType
  | float 16 => float 32
  | t => t

/-- The quotient of doubles rounded down; by zero it is that of the division. -/
def floorQuotientFloat (t : ElemType) (a b : Float) : Float :=
  if b == 0.0 then a / b else (Number.floorDivModFloat t.stepping.rounded a b).1

/-- The quotient of doubles toward zero, by way of the one rounded down. -/
def quotientFloat (t : ElemType) (a b : Float) : Float :=
  let q := t.rounded (t.floorQuotientFloat a b)
  let r := t.rounded (a - t.rounded (q * b))
  if r != 0.0 && (decide (a < 0.0) != decide (b < 0.0)) then t.rounded (q + 1.0) else q

/-- The quotient toward zero. -/
def quot (t : ElemType) : Number → Number → Except Error Number :=
  t.lift (fun _ _ => .error .invalidOperand) t.quotient t.quotientFloat

/-- The remainder of the quotient toward zero. -/
def rem (t : ElemType) : Number → Number → Except Error Number :=
  t.lift (fun _ _ => .error .invalidOperand) (fun a b => a - t.wrap (t.quotient a b * b))
    (fun a b => a - t.rounded (t.quotientFloat a b * b))

/-- The quotient of floating-point numbers. -/
def ratio (t : ElemType) : Number → Number → Except Error Number :=
  t.lift (fun _ _ => .error .invalidOperand) (fun _ _ => 0) (· / ·)

/-- The exact remainder of the division toward zero; zero for a zero integer divisor. -/
def fmod (t : ElemType) : Number → Number → Except Error Number :=
  t.lift (fun _ _ => .error .invalidOperand) (fun a b => if b = 0 then 0 else truncMod a b)
    Number.floatMod

/-- The remainder of the division rounded down; zero for a zero integer divisor. -/
def floorMod (t : ElemType) : Number → Number → Except Error Number :=
  t.lift (fun _ _ => .error .invalidOperand) (fun a b => if b = 0 then 0 else Int.fmod a b)
    (fun a b => (Number.floorDivModFloat t.stepping.rounded a b).2)

/-- The power of an integer, by repeated squaring. -/
def powerOf (t : ElemType) (a : Int) (n : Nat) : Int :=
  if n = 0 then 1
  else
    let half := t.powerOf (t.wrap (a * a)) (n / 2)
    if n % 2 = 1 then t.wrap (a * half) else half
termination_by n

/-- A number raised to a power; that of an integer must not be negative. -/
def power (t : ElemType) (x y : Number) : Except Error Number :=
  match x, y with
  | .int a, .int b =>
    if b < 0 then .error .negativePower
    else .ok (.int (t.powerOf a b.toNat))
  | .float a, .float b => .ok (.float (t.rounded (Float.pow a b)))
  | _, _ => .error .invalidOperand

/-- A comparison. -/
def compares (op : BinOp) (x y : Number) : Bool :=
  match x.asInt?, y.asInt?, x, y with
  | some a, some b, _, _ =>
    match op with
    | .eq => a == b | .ne => a != b | .lt => a < b | .le => a ≤ b | .gt => b < a | .ge => b ≤ a
    | _ => false
  | _, _, .float a, .float b =>
    match op with
    | .eq => a == b | .ne => a != b | .lt => a < b | .le => a ≤ b | .gt => b < a | .ge => b ≤ a
    | _ => false
  | _, _, _, _ => false

end TensorNest.ElemType
