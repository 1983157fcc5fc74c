import TensorNest.DataType.Combine
import TensorNest.Expr.Operand

/-!
# Building expressions

The builders take operands of any kind, turn them into expressions, bring the two sides of an
operation to their common type and fold operations on constants. Division and remainder by a constant
zero are left as they are.
-/

namespace TensorNest

namespace Expr

/-- A constant of one lane of a type. -/
def ofNumber (v : Number) (t : DataType) : Except Error Expr := do
  return .const (← v.ofType t) t.element

/-- An integer constant of an integer type; the types of constants are checked elsewhere. -/
def ofInt (n : Int) (t : DataType) : Except Error Expr :=
  ofNumber (.int n) t

/-- A constant of type `int32`. -/
def int32 (n : Int) : Expr := .const (.int n) .int32

/-- A truth constant. -/
def bool (b : Bool) : Expr := .const (.bool b) .bool

/-- A constant of a type from an operand. -/
def constOf (x : Operand) (t : DataType) : Except Error Expr := do
  match x.single? with
  | some v => ofNumber v t
  | none =>
    let v : Number ←
      if t.isBool then Number.bool <$> x.truth
      else if t.isFloat then Number.float <$> x.toFloat
      else if t.isInteger then Number.int <$> x.toInt
      else throw (.noConstant t)
    return .const v t.element

/-- A constant of a type from an operand. -/
def typedConst (x : Operand) (spec : TypeSpec) : Except Error Expr := do
  constOf x (← spec.resolve)

/-- The default type of a plain number. -/
def defaultType : Number → DataType
  | .bool _ => .bool
  | .int _ => .int32
  | .float _ | .unknown _ => .float32

/-- The expression of an operand. Numbers take the given type, or the default one of their kind; sized
    scalars and arrays of one element take the type of their elements. -/
def convert (x : Operand) (spec : TypeSpec := .unspecified) : Except Error Expr :=
  match x, x.number? with
  | _, some v => do ofNumber v (← spec.orElse (defaultType v))
  | .axis iv, _ => .ok (.var iv.var)
  | .expr e, _ => .ok e
  | .text s, _ => .ok (.str s)
  | .sized t v, _ => do ofNumber v (← spec.orElse t.dataType)
  | .array a, _ =>
    match a.elements with
    | [v] => do ofNumber v (← spec.orElse a.type.dataType)
    | _ => .error .notSingle
  | x, _ => .error (.notConvertible x.kindName)

/-- An expression brought to a type: constants are converted, scalars are broadcast, and other
    expressions are cast. -/
def coerce (e : Expr) (t : DataType) : Except Error Expr :=
  if e.dtype = t then .ok e
  else
    match e with
    | .const v _ => do
      let s ← ofNumber v t.element
      return if t.lanes = 1 then s else .broadcast s t.lanes
    | e =>
      if e.dtype.lanes = 1 && 1 < t.lanes then
        .ok (.broadcast (if e.dtype = t.element then e else .cast t.element e) t.lanes)
      else .ok (.cast t e)

/-- The type that a plain operand takes beside another operand: that of one lane of the other,
    unless it is a floating-point number beside another kind or a truth value beside another kind. -/
def plainType (x other : Operand) : Except Error TypeSpec := do
  let t := (← convert other).dtype.element
  match x.number? with
  | some (.float _) | some (.unknown _) => return if t.isFloat then .exact t else .unspecified
  | some (.bool _) => return if t.isBool then .exact t else .unspecified
  | _ => return .exact t

/-- The two sides of an operation, brought to their common type. -/
def operands (a b : Operand) : Except Error (Expr × Expr) := do
  let aConst := a.isConstLike
  let bConst := b.isConstLike
  let a' : Operand ←
    if !a.isNode && b.isNode then Operand.expr <$> convert a (← plainType a b) else pure a
  let b' : Operand ←
    if !b.isNode && a'.isNode then Operand.expr <$> convert b (← plainType b a') else pure b
  let x ← convert a'
  let y ← convert b'
  let t ← DataType.combine x.dtype y.dtype aConst bConst
  return (← coerce x t, ← coerce y t)

/-- The value of an operation on constants, `integer` telling whether their type is an integer one. -/
def foldValue (op : BinOp) (integer : Bool) (x y : Number) : Except Error Number :=
  match op with
  | .add => x.add y
  | .sub => x.sub y
  | .mul => x.mul y
  | .div => x.div integer y
  | .mod => x.mod integer y
  | .min => .ok (x.min y)
  | .max => .ok (x.max y)
  | .eq => .ok (.bool (x.eq y))
  | .ne => .ok (.bool !(x.eq y))
  | .lt => .ok (.bool (x.lt y))
  | .le => .ok (.bool (x.le y))
  | .gt => .ok (.bool (y.lt x))
  | .ge => .ok (.bool (y.le x))
  | .and => .ok (.bool (x.truthy && y.truthy))
  | .or => .ok (.bool (x.truthy || y.truthy))

/-- An operation on two sides of one type, folded if both are constants and the operation is not a
    division by zero. -/
def fold (op : BinOp) (a b : Expr) : Except Error Expr :=
  match a, b with
  | .const x t, .const y _ =>
    if (op = .div || op = .mod) && !y.truthy then .ok (.bin op a b)
    else do ofNumber (← foldValue op t.isInteger x y) (Expr.bin op a b).dtype
  | _, _ => .ok (.bin op a b)

/-- An arithmetic operation or a comparison of two operands. -/
def arith (op : BinOp) (a b : Operand) : Except Error Expr := do
  let (x, y) ← operands a b
  fold op x y

def add (a b : Operand) : Except Error Expr := arith .add a b
def sub (a b : Operand) : Except Error Expr := arith .sub a b
def mul (a b : Operand) : Except Error Expr := arith .mul a b
def div (a b : Operand) : Except Error Expr := arith .div a b
def mod (a b : Operand) : Except Error Expr := arith .mod a b
def minimum (a b : Operand) : Except Error Expr := arith .min a b
def maximum (a b : Operand) : Except Error Expr := arith .max a b
def eq (a b : Operand) : Except Error Expr := arith .eq a b
def ne (a b : Operand) : Except Error Expr := arith .ne a b
def lt (a b : Operand) : Except Error Expr := arith .lt a b
def le (a b : Operand) : Except Error Expr := arith .le a b
def gt (a b : Operand) : Except Error Expr := arith .gt a b
def ge (a b : Operand) : Except Error Expr := arith .ge a b

/-- The negation, as a difference from zero. -/
def neg (a : Operand) : Except Error Expr := do
  let x ← convert a
  let zero ← ofInt 0 x.dtype.element
  sub zero x

/-- An operand as a condition: values of other types are compared with zero. -/
def asBool (a : Operand) : Except Error Expr := do
  let x ← convert a
  if x.dtype.isBool then return x
  let zero ← ofInt 0 x.dtype.element
  ne x zero

/-- Conjunction; a constant side decides or disappears. -/
def logicalAnd (a b : Operand) : Except Error Expr := do
  let x ← asBool a
  let y ← asBool b
  match x, y with
  | .const v _, _ => return if v.truthy then y else x
  | _, .const v _ => return if v.truthy then x else y
  | _, _ => return .bin .and x y

/-- Disjunction; a constant side decides or disappears. -/
def logicalOr (a b : Operand) : Except Error Expr := do
  let x ← asBool a
  let y ← asBool b
  match x, y with
  | .const v _, _ => return if v.truthy then x else y
  | _, .const v _ => return if v.truthy then y else x
  | _, _ => return .bin .or x y

def logicalNot (a : Operand) : Except Error Expr := do
  match ← asBool a with
  | .const v _ => return bool !v.truthy
  | x => return .not x

/-- The builder of a binary operation. -/
def binary (op : BinOp) (a b : Operand) : Except Error Expr :=
  match op with
  | .and => logicalAnd a b
  | .or => logicalOr a b
  | op => arith op a b

/-- A choice between two values; a constant condition decides. -/
def choose (cond onTrue onFalse : Operand) : Except Error Expr := do
  let c ← asBool cond
  let (t, f) ← operands onTrue onFalse
  match c with
  | .const v _ => return if v.truthy then t else f
  | c => return .select c t f

/-- Conversion to a type; constants are converted at once unless the type is a vector. -/
def castTo (t : DataType) (e : Expr) : Except Error Expr :=
  if e.dtype = t then .ok e
  else
    match e with
    | .const v _ => if t.lanes = 1 then ofNumber v t else .ok (.cast t e)
    | e => .ok (.cast t e)

/-- Conversion of an operand to a type. -/
def castOperand (spec : TypeSpec) (a : Operand) : Except Error Expr := do
  let t ← spec.resolve
  castTo t (← convert a)

/-- A call of a function of a kind other than a tensor read. -/
def callOf (kind : CallKind) (t : DataType) (name : String) (args : List Expr) : Expr :=
  .call t name args kind none 0

def intrinsic (t : DataType) (name : String) (args : List Expr) : Expr :=
  callOf .intrinsic t name args

def pureIntrinsic (t : DataType) (name : String) (args : List Expr) : Expr :=
  callOf .pureIntrinsic t name args

/-- A call built from operands. -/
def callOperands (kind : CallKind) (spec : TypeSpec) (name : String) (args : List Operand) :
    Except Error Expr := do
  let t ← spec.resolve
  return callOf kind t name (← args.mapM (convert ·))

/-- Marks a condition as likely to hold. -/
def likely (cond : Operand) : Except Error Expr := do
  match ← asBool cond with
  | .const v t => return .const v t
  | c => return pureIntrinsic c.dtype "likely" [c]

/-- The quotient rounded up, for a positive divisor and a dividend that is not negative. -/
def ceilDiv (a b : Operand) : Except Error Expr := do
  let (x, y) ← operands a b
  div (← add x (← sub y (1 : Int))) y

/-- The absolute value. -/
def abs (a : Operand) : Except Error Expr := do
  let x ← convert a
  if x.dtype.isUInt then return x
  else if x.dtype.isInt then
    match x with
    | .const (.int n) t => ofInt n.natAbs t
    | x => return .select (← ge x (0 : Int)) x (← neg x)
  else return pureIntrinsic x.dtype "fabs" [x]

/-- The power of two operands. -/
def power (a b : Operand) : Except Error Expr := do
  let (x, y) ← operands a b
  return pureIntrinsic x.dtype "pow" [x, y]

/-- A pure intrinsic of one argument, typed as its argument. -/
def unary (name : String) (a : Operand) : Except Error Expr := do
  let x ← convert a
  return pureIntrinsic x.dtype name [x]

end Expr

end TensorNest
