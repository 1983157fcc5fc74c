import TensorNest.Expr.Operand

/-!
# Templates

A template is a text with fields, each a percent sign and a letter that says how an operand is written there:
as a text, as shown in messages, or as an integer in some base. A doubled percent sign stands for itself.
There is one operand, so that it is written once: a second field has nothing to write, and an operand that
no field takes is an error unless it is one that is looked into by keys.
-/

namespace TensorNest

namespace Template

/-- The operand as the integer that it has to be. -/
def wholeNumber (x : Operand) : Except Error Int :=
  match x.single? with
  | some v => if v.isFloat then .error .invalidOperand else v.toInt
  | none => .error .invalidOperand

/-- An integer in a base, its sign first. -/
def inBase (base : Nat) (n : Int) : String :=
  (if n < 0 then "-" else "") ++ String.ofList (Nat.toDigits base n.natAbs)

/-- The character that an operand stands for: one of a text that has no other, or that of a number. -/
def character (x : Operand) : Except Error String :=
  match x with
  | .text s => if s.length = 1 then .ok s else .error .invalidOperand
  | x => do
    let n ← wholeNumber x
    if 0 ≤ n && n < 0x110000 then return (Char.ofNat n.toNat).toString else throw .overflow

/-- The operand as the field of a letter writes it; `i` is the position of the letter. Fields of a width,
    and those of decimal fractions, take no operand. -/
def field (x : Operand) (letter : Char) (i : Nat) : Except Error String :=
  match letter with
  | 's' => .ok x.plainText
  | 'r' => .ok x.shown
  | 'd' | 'i' | 'u' => do
    match x.single? with
    | some v => return toString (← v.toInt)
    | none => throw .invalidOperand
  | 'o' => inBase 8 <$> wholeNumber x
  | 'x' => inBase 16 <$> wholeNumber x
  | 'X' => (fun n => (inBase 16 n).toUpper) <$> wholeNumber x
  | 'c' => character x
  | letter =>
    if letter.isDigit || "aeEfFgGhlL(#-+ .*".toList.contains letter then
      .error .invalidOperand
    else .error (.invalidValue ("unsupported format character '" ++ letter.toString ++ "' (0x" ++
      inBase 16 letter.toNat ++ ") at index " ++ toString i))

/-- Writes the operand into the fields of the rest of a template, which starts at position `i`; `used` says
    that it has been written before. The answer says whether it has been written at last. -/
def fillFrom (x : Operand) (used : Bool) (i : Nat) : List Char → Except Error (String × Bool)
  | [] => .ok ("", used)
  | ['%'] => .error (.invalidValue "incomplete format")
  | '%' :: '%' :: cs => do
    let (s, used) ← fillFrom x used (i + 2) cs
    return ("%" ++ s, used)
  | '%' :: c :: cs => do
    if used then throw .invalidOperand
    let t ← field x c (i + 1)
    let (s, used) ← fillFrom x true (i + 2) cs
    return (t ++ s, used)
  | c :: cs => do
    let (s, used) ← fillFrom x used (i + 1) cs
    return (c.toString ++ s, used)

/-- A template filled with an operand, which may be left out if it is `keyed`. -/
def fill (template : String) (x : Operand) (keyed : Bool) : Except Error String := do
  let (s, used) ← fillFrom x false 0 template.toList
  if used || keyed then return s else throw .invalidOperand

end Template

end TensorNest
