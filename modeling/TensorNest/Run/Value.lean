import TensorNest.Module
import TensorNest.Run.Memory
import TensorNest.Run.Numeric

/-!
# Values of a running program

A value is a number, with or without a type, a vector, an array in memory, the address of an element, a
text, a function, or something that a caller gave and that programs only pass on. Reading the elements of
an array needs the memory that it is in.
-/

namespace TensorNest

/-- The kind of a function of a module, as shown in messages. -/
def Entry.kindName (e : Entry) : String :=
  if e.func.kind = .device then "InterpKernel" else "InterpFunction"

/-- A value. -/
inductive Value where
  | number (x : Number)
  | scalar (type : ElemType) (x : Number)
  | vector (type : ElemType) (xs : List Number)
  | array (v : View)
  | pointer (v : View) (offset : Value)
  | text (s : String)
  | function (e : Entry)
  | nothing
  | list (xs : List Value)
  | other (kind : String)
  deriving Inhabited

namespace Value

/-- The kind of a value, as shown in messages. -/
def kindName : Value → String
  | number (.bool _) => "bool"
  | number (.int _) => "int"
  | number (.float _) | number (.unknown _) => "float"
  | scalar t _ => t.name
  | vector .. | array _ => "ndarray"
  | pointer .. => "Pointer"
  | text _ => "str"
  | function e => e.kindName
  | nothing => "NoneType"
  | list _ => "list"
  | other kind => kind

/-- The 32-bit integer that queries of arguments answer. -/
def int32 (n : Int) : Value := scalar (.int 32) (.int n)

/-- The value of an operand. -/
def ofNumeric : Numeric → Value
  | .free x => number x
  | .typed t (.one x) => scalar t x
  | .typed t (.many xs) => vector t xs

/-- The numbers of a list of numbers. -/
def numbers : List Value → Except Error (List Number)
  | [] => .ok []
  | number x :: rest => do return x :: (← numbers rest)
  | _ => .error .invalidOperand

/-- A value as an operand. -/
def numeric (m : Memory) : Value → Except Error Numeric
  | number x => .ok (.free x)
  | scalar t x => .ok (.typed t (.one x))
  | vector t xs => .ok (.typed t (.many xs))
  | array v =>
    .ok (.typed v.type (if v.rank = 0 then .one (m.read v.storage v.offset) else .many (v.elements m)))
  | list xs => do
    let ns ← numbers xs
    let t := ns.foldl (fun t x => t.join (ElemType.ofKind x)) .bool
    return .typed t (.many (ns.map t.convert))
  | text _ => .error .invalidElements
  | _ => .error .invalidOperand

/-- Whether a value counts as true. Of several numbers there is no telling. -/
def truth (m : Memory) : Value → Except Error Bool
  | text s => .ok !s.isEmpty
  | nothing => .ok false
  | list xs => .ok !xs.isEmpty
  | pointer .. | function _ | other _ => .ok true
  | v => do
    match (← v.numeric m).lanes.toList with
    | [x] => return x.truthy
    | [] => throw .emptyTruth
    | _ => throw .ambiguousTruth

/-- The integer part of a single number. -/
def toInt (m : Memory) : Value → Except Error Int
  | text s => Number.readInt s
  | list _ => .error .invalidOperand
  | v => do
    match (← v.numeric m).lanes with
    | .one x => x.toInt
    | .many _ => throw .invalidOperand

/-- A text as an element of a type. -/
def readElement (t : ElemType) (s : String) : Except Error Number :=
  match t with
  | .bool => .ok (.bool !s.isEmpty)
  | .float _ => do return .float (t.rounded (← Number.readFloat s))
  | _ => do t.ofNumber (.int (← Number.readInt s))

/-- What stands for nothing among the elements of a type: no number, or false. -/
def emptyElement (t : ElemType) : Except Error Number :=
  match t with
  | .float _ => .ok (.float Binary.notANumber)
  | .bool => .ok (.bool false)
  | _ => .error .invalidOperand

/-- A value converted to a data type. Handles stay as they are. -/
def cast (m : Memory) (t : DataType) (v : Value) : Except Error Value :=
  if t.isHandle then .ok v
  else do
    let e ← t.element.elemType
    let whole (x : Number) : Value :=
      if 1 < t.lanes then vector e (List.replicate t.lanes.toNat x) else scalar e x
    match v with
    | text s => return whole (← readElement e s)
    | nothing => return whole (← emptyElement e)
    | v =>
      if 1 < t.lanes then return ofNumeric (← (← v.numeric m).spread e t.lanes.toNat)
      match v with
      | list xs => do return vector e (← (← numbers xs).mapM e.ofNumber)
      | v => return ofNumeric (← (← v.numeric m).cast e)

/-- A value as one element of a type. -/
def stored (m : Memory) (t : ElemType) : Value → Except Error Number
  | text s => readElement t s
  | nothing => emptyElement t
  | list xs => if t = .bool then .ok (.bool !xs.isEmpty) else .error .elementSequence
  | v => do
    match ← v.numeric m with
    | .free x => if x.isFloat then t.ofStored x else t.ofNumber x
    | .typed _ (.one x) => t.ofStored x
    | .typed _ (.many [x]) => if t = .bool then return .bool x.truthy else throw .elementSequence
    | .typed _ (.many _) => throw .elementSequence

/-- The text of a value inside a list: texts are quoted, and numbers of a type name their type. -/
def described (m : Memory) : Value → String
  | text s => Text.quoted s
  | number x => x.text
  | scalar t x => t.described x
  | nothing => "None"
  | vector t xs => Snapshot.described ⟨t, [xs.length], xs⟩
  | array v => (v.snapshot m).described
  | list xs => "[" ++ commaList (describeAll xs) ++ "]"
  | v => v.kindName
where
  /-- The texts of values inside a list. -/
  describeAll : List Value → List String
    | [] => []
    | v :: vs => described m v :: describeAll vs

/-- The text of a value in a message. -/
def shown (m : Memory) : Value → String
  | text s => s
  | number x => x.text
  | scalar t x => t.elementText x
  | nothing => "None"
  | list xs => described m (list xs)
  | vector t xs => Snapshot.text ⟨t, [xs.length], xs⟩
  | array v => (v.snapshot m).text
  | v => v.kindName

end Value

end TensorNest
