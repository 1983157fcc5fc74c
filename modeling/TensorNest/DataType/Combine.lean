import TensorNest.Decimal.Reading
import TensorNest.Error

/-!
# Combining data types

The common type of the two operands of an operation, and the ways a type can be given.
-/

namespace TensorNest

/-- Reads the name of a type, whose width and lanes have to be short enough to be read. -/
def DataType.parse (s : String) : Except Error DataType :=
  match DataType.parse? s with
  | none => .error (.unknownDataType s)
  | some t =>
    match (s.toList.splitOnP (!Text.isDecimal ·)).find? (Decimal.digitLimit < ·.length) with
    | some digits => .error (.tooManyDigits digits.length)
    | none => .ok t

/-- How a data type is given where one is expected: by its name, by itself, not at all, or by something
    else that may stand for a type and counts as given or not. -/
inductive TypeSpec where
  | named (name : String)
  | exact (t : DataType)
  | unspecified
  | other (given : Except Error Bool) (type : Except Error DataType)
  deriving Inhabited

/-- The type given, where a type is required: `float64` if none is given. -/
def TypeSpec.resolve : TypeSpec → Except Error DataType
  | named name => DataType.parse name
  | exact t => .ok t
  | unspecified => .ok .float64
  | other _ type => type

/-- The type given, `t` if none is given or its name is empty. -/
def TypeSpec.orElse (t : DataType) : TypeSpec → Except Error DataType
  | unspecified => .ok t
  | named "" => .ok t
  | other given type => do if ← given then type else return t
  | spec => spec.resolve

namespace DataType

/-- The common type of two operands. Equal types combine to themselves; a constant takes the type of
    the other operand, except a floating-point constant facing an integer; an integer takes the type
    of a floating-point operand; types of one code take the larger width. Lanes must agree unless one
    side is a scalar, and handles never combine. -/
def combine (l r : DataType) (lConst rConst : Bool) : Except Error DataType :=
  if l = r then .ok l
  else if l.isHandle || r.isHandle then .error (.cannotCombine l r)
  else if l.lanes != r.lanes && l.lanes != 1 && r.lanes != 1 then .error (.lanesMismatch l r)
  else
    let lanes := max l.lanes r.lanes
    if lConst && !rConst && (r.isFloat || !l.isFloat) then .ok (r.withLanes lanes)
    else if rConst && !lConst && (l.isFloat || !r.isFloat) then .ok (l.withLanes lanes)
    else if l.isFloat && !r.isFloat then .ok (l.withLanes lanes)
    else if r.isFloat && !l.isFloat then .ok (r.withLanes lanes)
    else if l.code = r.code then .ok ⟨l.code, max l.bits r.bits, lanes⟩
    else .error (.cannotCombine l r)

end DataType

end TensorNest
