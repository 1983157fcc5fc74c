import TensorNest.DataType.Combine

/-!
# Element types

The types of the elements that memory can hold: truth values, integers of 8 to 64 bits and the three
binary floating-point formats.
-/

namespace TensorNest

/-- The type of an element of memory. -/
inductive ElemType where
  | bool
  | int (bits : Nat)
  | uint (bits : Nat)
  | float (bits : Nat)
  deriving DecidableEq, Repr, Inhabited

namespace ElemType

/-- The name of an element type. -/
def name : ElemType → String
  | bool => "bool"
  | int bits => "int" ++ toString bits
  | uint bits => "uint" ++ toString bits
  | float bits => "float" ++ toString bits

/-- The bytes of an element. -/
def bytes : ElemType → Nat
  | bool => 1
  | int bits | uint bits | float bits => bits / 8

/-- The data type of an element type. -/
def dataType : ElemType → DataType
  | bool => .bool
  | int bits => ⟨.int, bits, 1⟩
  | uint bits => ⟨.uint, bits, 1⟩
  | float bits => ⟨.float, bits, 1⟩

/-- The least integer of an integer type. -/
def least : ElemType → Int
  | int bits => -(Nat.pow 2 (bits - 1))
  | _ => 0

/-- The greatest integer of an integer type. -/
def greatest : ElemType → Int
  | bool => 1
  | int bits => Nat.pow 2 (bits - 1) - 1
  | uint bits => Nat.pow 2 bits - 1
  | float _ => 0

/-- Whether an integer is one of an integer type. -/
def holds (t : ElemType) (n : Int) : Bool :=
  t.least ≤ n && n ≤ t.greatest

/-- An integer reduced to the width of an integer type. -/
def wrap (t : ElemType) (n : Int) : Int :=
  match t with
  | int bits => Int.bmod n (Nat.pow 2 bits)
  | uint bits => n % (Nat.pow 2 bits : Nat)
  | bool => if n = 0 then 0 else 1
  | float _ => n

end ElemType

/-- The widths of integers and of floating-point numbers in memory. -/
def intWidths : List Nat := [8, 16, 32, 64]
def floatWidths : List Nat := [16, 32, 64]

/-- The type of the elements of a data type, if memory can hold them. -/
def DataType.elemType (t : DataType) : Except Error ElemType :=
  if t.isBool then .ok .bool
  else
    match t.code with
    | .handle => .error (.assertion "no numpy type for handle")
    | .int => if intWidths.contains t.bits then .ok (.int t.bits) else .error .invalidOperand
    | .uint => if intWidths.contains t.bits then .ok (.uint t.bits) else .error .invalidOperand
    | .float => if floatWidths.contains t.bits then .ok (.float t.bits) else .error .invalidOperand

/-- The name of the type of the elements of a data type. Quadruple floating-point numbers have one,
    though memory here does not hold them. -/
def DataType.elementTypeName (t : DataType) : Except Error String :=
  if t.isFloat && t.bits == 128 then .ok "float128" else ElemType.name <$> t.elemType

/-- The names of the element types of arrays, each with its full name. -/
def elementNames : List (String × String) :=
  ["bool", "int8", "int16", "int32", "int64", "uint8", "uint16", "uint32", "uint64", "float16", "float32",
    "float64", "float128", "complex64", "complex128", "complex256", "object", "datetime64",
    "timedelta64"].map (fun s => (s, s)) ++
  [("bool_", "bool"), ("byte", "int8"), ("ubyte", "uint8"), ("short", "int16"), ("ushort", "uint16"),
    ("intc", "int32"), ("uintc", "uint32"), ("int", "int64"), ("int_", "int64"), ("long", "int64"),
    ("longlong", "int64"), ("intp", "int64"), ("uint", "uint64"), ("ulong", "uint64"),
    ("ulonglong", "uint64"), ("uintp", "uint64"), ("half", "float16"), ("single", "float32"),
    ("double", "float64"), ("float", "float64"), ("longdouble", "float128"), ("csingle", "complex64"),
    ("cdouble", "complex128"), ("complex", "complex128"), ("clongdouble", "complex256"),
    ("object_", "object"), ("str", "<U0"), ("str_", "<U0"), ("unicode", "<U0"), ("bytes", "|S0"),
    ("bytes_", "|S0"), ("void", "|V0"), ("T", "StringDType()"), ("c", "|S1")]

/-- The kind and the bytes of the numbers that one letter stands for. -/
def elementLetters : List (Char × Char × Nat) :=
  [('?', 'b', 1), ('b', 'i', 1), ('B', 'u', 1), ('h', 'i', 2), ('H', 'u', 2), ('i', 'i', 4),
    ('I', 'u', 4), ('l', 'i', 8), ('L', 'u', 8), ('q', 'i', 8), ('Q', 'u', 8), ('p', 'i', 8),
    ('P', 'u', 8), ('n', 'i', 8), ('N', 'u', 8), ('e', 'f', 2), ('f', 'f', 4), ('d', 'f', 8),
    ('g', 'f', 16), ('F', 'c', 8), ('D', 'c', 16), ('G', 'c', 32)]

/-- The kinds of numbers: their letter, the name of the kind and the bytes that they can have. -/
def elementKinds : List (Char × String × List Nat) :=
  [('b', "bool", [1]), ('i', "int", [1, 2, 4, 8]), ('u', "uint", [1, 2, 4, 8]),
    ('f', "float", [2, 4, 8, 16]), ('c', "complex", [8, 16, 32])]

/-- The units of dates and of times. -/
def timeUnits : List String :=
  ["Y", "M", "W", "D", "h", "m", "s", "ms", "us", "ns", "ps", "fs", "as"]

/-- A number in plain digits; zero if there is none. -/
def plainDigits? (cs : List Char) : Option Nat :=
  if cs.isEmpty then some 0
  else if cs.all Char.isDigit then Text.readDigits? cs
  else none

/-- The kind and the bytes of numbers, from a letter or from a kind with its bytes. -/
def numberCode? : List Char → Option (Char × Nat)
  | [c] => elementLetters.lookup c
  | k :: digits => do
    let (_, sizes) ← elementKinds.lookup k
    let n ← plainDigits? digits
    if sizes.contains n then some (k, n) else none
  | [] => none

/-- The text of a unit of time in brackets; one of a unit is the unit itself. -/
def timeUnit? (cs : List Char) : Option String :=
  match cs with
  | [] => some ""
  | '[' :: rest => do
    if rest.getLast? != some ']' then none
    let body := rest.dropLast
    let unit := String.ofList (body.dropWhile Char.isDigit)
    let count := body.takeWhile Char.isDigit
    let n ← plainDigits? count
    if unit == "generic" && count.isEmpty then some ""
    else if !timeUnits.contains unit then none
    else if count.isEmpty || n = 1 then some ("[" ++ unit ++ "]")
    else some ("[" ++ toString n ++ unit ++ "]")
  | _ => none

/-- The full name of an element type written as a code, the order of its bytes being the opposite one or
    not. Only numbers of one byte have no order. -/
def codeName? (swapped : Bool) (code : List Char) : Option String :=
  let order := if swapped then ">" else "<"
  let time (name letter : String) (unit : List Char) : Option String :=
    (timeUnit? unit).map fun u => if swapped then ">" ++ letter ++ "8" ++ u else name ++ u
  match code with
  | ['O'] | ['O', '8'] => some "object"
  | 'S' :: digits | 'a' :: digits => (plainDigits? digits).map fun n => "|S" ++ toString n
  | 'V' :: digits => (plainDigits? digits).map fun n => "|V" ++ toString n
  | 'U' :: digits => (plainDigits? digits).map fun n => order ++ "U" ++ toString n
  | ['M'] => time "datetime64" "M" []
  | ['m'] => time "timedelta64" "m" []
  | 'M' :: '8' :: unit => time "datetime64" "M" unit
  | 'm' :: '8' :: unit => time "timedelta64" "m" unit
  | code => do
    let (k, n) ← numberCode? code
    let (name, _) ← elementKinds.lookup k
    if swapped && 1 < n then some (">" ++ k.toString ++ toString n)
    else some (if k = 'b' then name else name ++ toString (8 * n))

/-- The full name of the type of the elements of an array, if it is one. Texts and bytes of some length,
    and numbers in the opposite order of bytes, keep a mark of the order. -/
def elementName? (s : String) : Option String :=
  match elementNames.lookup s with
  | some name => some name
  | none =>
    match s.toList with
    | '<' :: code | '=' :: code | '|' :: code => codeName? false code
    | '>' :: code => codeName? true code
    | code =>
      let unit := code.dropWhile (· != '[')
      match String.ofList (code.takeWhile (· != '[')) with
      | "datetime64" => (timeUnit? unit).map ("datetime64" ++ ·)
      | "timedelta64" => (timeUnit? unit).map ("timedelta64" ++ ·)
      | _ => codeName? false code

/-- The data type of the elements of an array, by their name. -/
def DataType.ofElementName (s : String) : Except Error DataType :=
  match elementName? s with
  | none => .error .invalidOperand
  | some name => DataType.parse name

end TensorNest
