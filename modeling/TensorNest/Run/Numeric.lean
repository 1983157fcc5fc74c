import TensorNest.Run.Element

/-!
# Scalars and vectors of numbers

The operands of a running program: one number without a type, as a caller gives it, or one or several
numbers of an element type. An operation is carried out lane by lane, a single number being used in
every lane, in the common type of its operands.
-/

namespace TensorNest

/-- One item, or one in each lane. -/
inductive Packed (α : Type) where
  | one (x : α)
  | many (xs : List α)
  deriving Repr

namespace Packed

variable {α β : Type}

def map (f : α → β) : Packed α → Packed β
  | one x => one (f x)
  | many xs => many (xs.map f)

def mapM (f : α → Except Error β) : Packed α → Except Error (Packed β)
  | one x => do return one (← f x)
  | many xs => do return many (← xs.mapM f)

def toList : Packed α → List α
  | one x => [x]
  | many xs => xs

/-- The shape as that of an array: a single item has no axis. -/
def shape : Packed α → List Int
  | one _ => []
  | many xs => [(xs.length : Int)]

/-- The items lane by lane. A single item goes with every lane; otherwise the lanes have to be as
    many. -/
def zip : Packed α → Packed β → Except Error (Packed (α × β))
  | one x, one y => .ok (one (x, y))
  | one x, many ys => .ok (many (ys.map fun y => (x, y)))
  | many xs, one y => .ok (many (xs.map fun x => (x, y)))
  | many [x], many ys => .ok (many (ys.map fun y => (x, y)))
  | many xs, many [y] => .ok (many (xs.map fun x => (x, y)))
  | many xs, many ys =>
    if xs.length = ys.length then .ok (many (xs.zip ys))
    else .error (.broadcastShapes [(many xs).shape, (many ys).shape])

/-- The items of a number of lanes. -/
def spread (n : Nat) : Packed α → Except Error (List α)
  | one x | many [x] => .ok (List.replicate n x)
  | many xs => if xs.length = n then .ok xs else .error (.broadcastTo (many xs).shape [(n : Int)])

end Packed

/-- An operand: a number without a type, or numbers of a type. -/
inductive Numeric where
  | free (x : Number)
  | typed (type : ElemType) (xs : Packed Number)
  deriving Repr

namespace Numeric

/-- The numbers of an operand. -/
def lanes : Numeric → Packed Number
  | free x => .one x
  | typed _ xs => xs

/-- The type of an operand, that of its kind if it has none. -/
def type : Numeric → ElemType
  | free x => .ofKind x
  | typed t _ => t

/-- Whether an operand is made of floating-point numbers. -/
def isFloat : Numeric → Bool
  | free x => x.isFloat
  | typed t _ => t.isFloat

/-- The type that two operands are taken to. -/
def joined : Numeric → Numeric → ElemType
  | free x, free y => (ElemType.ofKind x).join (ElemType.ofKind y)
  | free x, typed t _ => t.joinNumber x
  | typed t _, free x => t.joinNumber x
  | typed t _, typed u _ => t.join u

/-- The numbers of an operand taken to a type. -/
def lanesIn (t : ElemType) : Numeric → Except Error (Packed Number)
  | free x => do return .one (← t.ofNumber x)
  | typed _ xs => .ok (xs.map t.convert)

/-- An operation of a type carried out lane by lane. -/
def lift (t : ElemType) (f : Number → Number → Except Error Number) (a b : Numeric) :
    Except Error Numeric := do
  let pairs ← (← a.lanesIn t).zip (← b.lanesIn t)
  return typed t (← pairs.mapM fun p => f p.1 p.2)

def add : Numeric → Numeric → Except Error Numeric
  | free x, free y => free <$> x.add y
  | a, b => let t := a.joined b; lift t t.add a b

def sub : Numeric → Numeric → Except Error Numeric
  | free x, free y => free <$> x.sub y
  | a, b => let t := a.joined b; lift t t.sub a b

def mul : Numeric → Numeric → Except Error Numeric
  | free x, free y => free <$> x.mul y
  | a, b => let t := a.joined b; lift t t.mul a b

def min (a b : Numeric) : Except Error Numeric :=
  let t := a.joined b
  lift t t.min a b

def max (a b : Numeric) : Except Error Numeric :=
  let t := a.joined b
  lift t t.max a b

/-- The quotient toward zero. -/
def quot (a b : Numeric) : Except Error Numeric :=
  let t := (a.joined b).dividing
  lift t t.quot a b

/-- The remainder of the quotient toward zero. -/
def rem (a b : Numeric) : Except Error Numeric :=
  let t := (a.joined b).dividing
  lift t t.rem a b

/-- The quotient as a floating-point number; only a number without a type can not be divided by
    zero. -/
def ratio : Numeric → Numeric → Except Error Numeric
  | free x, free y => do
    if y.truthy then free <$> x.ratio y else throw .invalidOperand
  | a, b =>
    let t := if (a.joined b).isFloat then a.joined b else .float 64
    lift t t.ratio a b

/-- The exact remainder of the division toward zero. -/
def fmod (a b : Numeric) : Except Error Numeric :=
  let t := (a.joined b).dividing
  lift t t.fmod a b

/-- The remainder of the division rounded down. -/
def floorMod : Numeric → Numeric → Except Error Numeric
  | free x, free y => free <$> x.floorMod y
  | a, b => let t := (a.joined b).dividing; lift t t.floorMod a b

def power (a b : Numeric) : Except Error Numeric :=
  let t := (a.joined b).dividing
  lift t t.power a b

/-- A comparison: integers are compared as they are. -/
def compare (op : BinOp) (a b : Numeric) : Except Error Numeric := do
  let pairs ←
    if a.isFloat || b.isFloat then
      let t := a.joined b
      (← a.lanesIn t).zip (← b.lanesIn t)
    else a.lanes.zip b.lanes
  return typed .bool (pairs.map fun p => .bool (ElemType.compares op p.1 p.2))

/-- A connective of truth values. -/
def connect (f : Bool → Bool → Bool) (a b : Numeric) : Except Error Numeric := do
  let pairs ← a.lanes.zip b.lanes
  return typed .bool (pairs.map fun p => .bool (f p.1.truthy p.2.truthy))

def not (a : Numeric) : Numeric :=
  typed .bool (a.lanes.map fun x => .bool !x.truthy)

/-- The operand of each lane that a condition chooses. -/
def select (c a b : Numeric) : Except Error Numeric := do
  let t := a.joined b
  let xs ← a.lanesIn t
  let ys ← b.lanesIn t
  match (do c.lanes.zip (← xs.zip ys)) with
  | .ok chosen => return typed t (chosen.map fun (x, y, z) => if x.truthy then y else z)
  | .error _ => throw (.broadcastShapes [c.lanes.shape, xs.shape, ys.shape])

/-- The numbers from a base on, one stride apart. -/
def ramp (base stride : Numeric) (lanes : Int) : Except Error Numeric := do
  let steps := typed (.int 64) (.many ((List.range lanes.toNat).map fun (i : Nat) => .int (i : Int)))
  base.add (← stride.mul steps)

/-- An operand converted to a type. -/
def cast (t : ElemType) (a : Numeric) : Except Error Numeric := do
  return typed t (← a.lanesIn t)

/-- Whether a number without a type is one of the widest types. -/
def isMachineNumber : Number → Bool
  | .int n => (ElemType.int 64).holds n || (ElemType.uint 64).holds n
  | _ => true

/-- An operand converted to a type in a number of lanes. A number without a type wraps if it is one of
    the widest types, and has to be one of the type itself otherwise. -/
def spread (t : ElemType) (n : Nat) (a : Numeric) : Except Error Numeric := do
  let xs ← match a with
    | free x => if isMachineNumber x then pure (.one x) else a.lanesIn t
    | typed _ xs => pure xs
  return typed t (.many ((← xs.spread n).map t.convert))

end Numeric

end TensorNest
