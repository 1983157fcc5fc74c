import TensorNest.Text.Digit

/-!
# Data types

A data type has a code, a bit width and a number of lanes, one lane being a scalar. Booleans are the
unsigned integers of one bit; handles are opaque and have no arithmetic.
-/

namespace TensorNest

/-- The kind of number a data type holds. -/
inductive TypeCode where
  | int
  | uint
  | float
  | handle
  deriving DecidableEq, Repr, Inhabited

/-- The name of a code inside a type name. -/
def TypeCode.text : TypeCode → String
  | int => "int"
  | uint => "uint"
  | float => "float"
  | handle => "handle"

/-- The number of a code in the calling convention. -/
def TypeCode.toNat : TypeCode → Nat
  | int => 0
  | uint => 1
  | float => 2
  | handle => 3

/-- The code of a number of the calling convention. -/
def TypeCode.ofNat? : Nat → Option TypeCode
  | 0 => some int
  | 1 => some uint
  | 2 => some float
  | 3 => some handle
  | _ => none

/-- A scalar or vector data type. -/
structure DataType where
  code : TypeCode
  bits : Nat
  lanes : Int := 1
  deriving DecidableEq, Repr, Inhabited

namespace DataType

def int32 : DataType := ⟨.int, 32, 1⟩
def int64 : DataType := ⟨.int, 64, 1⟩
def float32 : DataType := ⟨.float, 32, 1⟩
def float64 : DataType := ⟨.float, 64, 1⟩
def bool : DataType := ⟨.uint, 1, 1⟩
def handle : DataType := ⟨.handle, 64, 1⟩

def isInt (t : DataType) : Bool := t.code == .int
def isUInt (t : DataType) : Bool := t.code == .uint
def isFloat (t : DataType) : Bool := t.code == .float
def isHandle (t : DataType) : Bool := t.code == .handle
def isBool (t : DataType) : Bool := t.code == .uint && t.bits == 1
def isScalar (t : DataType) : Bool := t.lanes == 1

/-- Whether a type holds integers; the booleans are none. -/
def isInteger (t : DataType) : Bool := (t.isInt || t.isUInt) && !t.isBool

/-- The bytes of one element. -/
def bytes (t : DataType) : Nat := max 1 ((t.bits + 7) / 8)

def withLanes (t : DataType) (lanes : Int) : DataType := { t with lanes }

/-- The type of one lane. -/
def element (t : DataType) : DataType := t.withLanes 1

/-- The name of the type of one lane. -/
def baseText (t : DataType) : String :=
  if t.isBool then "bool" else t.code.text ++ toString t.bits

/-- The name of a type: lanes are written after an `x` unless there is one. -/
def text (t : DataType) : String :=
  if t.isHandle then "handle"
  else if t.lanes == 1 then t.baseText
  else t.baseText ++ "x" ++ toString t.lanes

instance : ToString DataType := ⟨text⟩

/-- The codes that a type name can start with, longest name first. -/
def codeNames : List (List Char × TypeCode) :=
  [(['f', 'l', 'o', 'a', 't'], .float), (['u', 'i', 'n', 't'], .uint), (['i', 'n', 't'], .int)]

/-- The type of `code` whose width, and lanes after an `x`, are written in `cs`. -/
def ofWidth? (code : TypeCode) (cs : List Char) : Option DataType :=
  let bits := cs.takeWhile (· != 'x')
  match cs.dropWhile (· != 'x') with
  | [] => (Text.readDigits? bits).map fun b => ⟨code, b, 1⟩
  | _ :: lanes => do
    let b ← Text.readDigits? bits
    let l ← Text.readDigits? lanes
    return ⟨code, b, l⟩

/-- The type written as a code, a width and lanes. -/
def ofCodeAndWidth? (cs : List Char) : Option DataType :=
  codeNames.findSome? fun (name, code) =>
    if name.isPrefixOf cs then ofWidth? code (cs.drop name.length) else none

/-- Reads the name of a type. One newline may end a name made of a code and a width. -/
def parse? (s : String) : Option DataType :=
  if s == "handle" then some handle
  else if s == "bool" then some bool
  else
    let cs := s.toList
    ofCodeAndWidth? (if cs.getLast? == some '\n' then cs.dropLast else cs)

end DataType

end TensorNest
