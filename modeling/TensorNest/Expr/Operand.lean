import TensorNest.Buffer.Basic
import TensorNest.Run.ArrayText

/-!
# Operands

What builders can be given: numbers and texts, sized scalars and arrays, types, expressions and the other
parts of programs. An operand has two texts: `Operand.plainText` is how it is written alone, and
`Operand.shown` how it is written inside a list or quoted in a message.
-/

namespace TensorNest

/-- An operand given to a builder. Of an `other` operand only its kind and its texts are known, and whether
    it is part of a program. -/
inductive Operand where
  | nothing
  | number (v : Number)
  | text (s : String)
  | list (xs : List Operand)
  | sized (type : ElemType) (v : Number)
  | array (a : Snapshot)
  | dtype (t : DataType)
  | callKind (k : CallKind)
  | iterKind (k : IterKind)
  | expr (e : Expr)
  | axis (iv : IterVar)
  | range (r : Range)
  | reducer (r : Reducer)
  | buffer (b : Buffer)
  | tensor (name shown : String) (rank : Nat)
  | other (kind shown plain : String) (isNode : Bool)
  deriving Inhabited

/-- The kind of a plain number, as shown in messages. -/
def Number.kindName : Number → String
  | bool _ => "bool"
  | int _ => "int"
  | float _ | unknown _ => "float"

/-- A type as shown in messages. -/
def DataType.shown (t : DataType) : String :=
  "DataType(code=<TypeCode." ++ t.code.text.toUpper ++ ": " ++ toString t.code.toNat ++ ">, bits=" ++
    toString t.bits ++ ", lanes=" ++ toString t.lanes ++ ")"

namespace Operand

instance : Coe Expr Operand := ⟨expr⟩
instance : Coe Int Operand := ⟨fun n => number (.int n)⟩

/-- The kind of an operand, as shown in messages. -/
def kindName : Operand → String
  | nothing => "NoneType"
  | number v => v.kindName
  | text _ => "str"
  | list _ => "list"
  | sized t _ => t.name
  | array _ => "ndarray"
  | dtype _ => "DataType"
  | callKind _ => "CallType"
  | iterKind _ => "IterVarType"
  | expr e => e.kindName
  | axis _ => "IterVar"
  | range _ => "Range"
  | reducer _ => "CommReducer"
  | buffer _ => "Buffer"
  | tensor .. => "Tensor"
  | other kind .. => kind

/-- An operand as shown in messages and inside lists. -/
def shown : Operand → String
  | nothing => "None"
  | number v => v.text
  | text s => Text.quoted s
  | list xs => "[" ++ commaList (showns xs) ++ "]"
  | sized t v => t.described v
  | array a => a.described
  | dtype t => t.shown
  | callKind k => "<CallType." ++ k.label ++ ": " ++ toString k.toNat ++ ">"
  | iterKind k => "<IterVarType." ++ k.label ++ ": " ++ toString k.toNat ++ ">"
  | expr e => e.text
  | axis iv => iv.text
  | range r => r.text
  | reducer r => r.text
  | buffer b => b.text
  | tensor _ shown _ => shown
  | other _ shown _ _ => shown
where
  /-- Several operands as shown inside a list. -/
  showns : List Operand → List String
    | [] => []
    | x :: xs => x.shown :: showns xs

/-- An operand written alone. -/
def plainText : Operand → String
  | text s => s
  | sized t v => t.elementText v
  | array a => a.text
  | dtype t => t.text
  | callKind k => toString k.toNat
  | iterKind k => toString k.toNat
  | other _ _ plain _ => plain
  | x => x.shown

/-- Whether an operand is part of a program, not a plain value. -/
def isNode : Operand → Bool
  | expr _ | axis _ | range _ | reducer _ | buffer _ => true
  | other _ _ _ node => node
  | _ => false

/-- The plain number that an operand is. The kinds of calls and axes count as their numbers, and a sized
    double as a plain one. -/
def number? : Operand → Option Number
  | number v | sized (.float 64) v => some v
  | callKind k => some (.int k.toNat)
  | iterKind k => some (.int k.toNat)
  | _ => none

/-- Whether an operand is a floating-point number, be it plain or a sized double. -/
def isDouble (x : Operand) : Bool :=
  (x.number?.map (·.isFloat)).getD false

/-- Whether an operand counts as a constant when types are combined. -/
def isConstLike : Operand → Bool
  | expr (.const ..) => true
  | x => x.number?.isSome

/-- The datum that an error can carry about an operand. -/
def detail? : Operand → Option Detail
  | number (.bool b) => some (.flag b)
  | number (.int n) => some (.int n)
  | callKind k => some (.int k.toNat)
  | iterKind k => some (.int k.toNat)
  | text s => some (.text s)
  | list xs => .texts <$> xs.mapM fun
    | text s => some s
    | _ => none
  | _ => none

/-- Whether an operand counts as true: numbers other than zero do, texts and lists with content, arrays
    of one element that does, and everything that is no plain value. Of several elements there is no
    telling. -/
def truth : Operand → Except Error Bool
  | number v | sized _ v => .ok v.truthy
  | text s => .ok !s.isEmpty
  | list xs => .ok !xs.isEmpty
  | nothing => .ok false
  | array a =>
    match a.elements with
    | [x] => .ok x.truthy
    | [] => .error .emptyTruth
    | _ => .error .ambiguousTruth
  | callKind k => .ok (k.toNat != 0)
  | iterKind k => .ok (k.toNat != 0)
  | _ => .ok true

/-- An operand as the value of an option. -/
def setting : Operand → Setting
  | number v | sized _ v => .number v
  | callKind k => .number (.int k.toNat)
  | iterKind k => .number (.int k.toNat)
  | text s => .text s
  | list xs => .list (settings xs)
  | nothing => .nothing
  | x => .text x.shown
where
  /-- Operands as values of options. -/
  settings : List Operand → List Setting
    | [] => []
    | x :: xs => x.setting :: settings xs

/-- The number that a single number is; an array without axes is one. -/
def single? : Operand → Option Number
  | sized _ v => some v
  | array ⟨_, [], [v]⟩ => some v
  | x => x.number?

/-- An operand as a double. -/
def toFloat : Operand → Except Error Float
  | text s => Number.readFloat s
  | x =>
    match x.single? with
    | some v => v.toFloat
    | none => .error .invalidOperand

/-- An operand as an integer. -/
def toInt : Operand → Except Error Int
  | text s => Number.readInt s
  | x =>
    match x.single? with
    | some v => v.toInt
    | none => .error .invalidOperand

/-- The items of an operand that is a sequence: those of a list, the characters of a text and the parts of
    an array along its first axis. -/
def items? : Operand → Option (List Operand)
  | list xs => some xs
  | text s => some (s.toList.map fun c => text c.toString)
  | array a => a.parts?.map fun ps => ps.map ofPart
  | _ => none
where
  /-- A part of an array: an element if it has no axes left. -/
  ofPart (a : Snapshot) : Operand :=
    match a.shape, a.elements with
    | [], [x] => sized a.type x
    | _, _ => array a

/-- The items of an operand that has to be a sequence. A tensor would be read at one index after the
    other. -/
def items (x : Operand) : Except Error (List Operand) :=
  match x, x.items? with
  | _, some xs => .ok xs
  | tensor name _ rank, none =>
    if rank = 1 then .error .invalidOperand else .error (.tensorRank name rank 1)
  | _, none => .error .invalidOperand

/-- The two items of an operand that has to be a pair. -/
def pair (x : Operand) : Except Error (Operand × Operand) := do
  match ← x.items with
  | [a, b] => return (a, b)
  | [] => throw (.invalidValue "not enough values to unpack (expected 2, got 0)")
  | [_] => throw (.invalidValue "not enough values to unpack (expected 2, got 1)")
  | _ => throw (.invalidValue "too many values to unpack (expected 2)")

/-- Whether an operand is a single integer or an expression, where several can be given. -/
def isSingle : Operand → Bool
  | number (.int _) | number (.bool _) | callKind _ | iterKind _ | expr _ => true
  | _ => false

/-- The operands of a shape: a single extent or a sequence. -/
def dims (x : Operand) : Except Error (List Operand) :=
  if x.isSingle then .ok [x] else x.items

end Operand

/-- The type that an operand gives where one is expected: a type, its name, or that of a sized scalar or of
    the elements of an array. -/
def TypeSpec.ofOperand : Operand → Except Error TypeSpec
  | .nothing => .ok .unspecified
  | .text s => .ok (.named s)
  | .dtype t => .ok (.exact t)
  | x => do
    let type : Except Error DataType :=
      match x with
      | .sized t _ => .ok t.dataType
      | .array a => .ok a.type.dataType
      | .list [] => .error (.unknownDataType "[]")
      | _ => .error .invalidOperand
    return .other x.truth type

end TensorNest
