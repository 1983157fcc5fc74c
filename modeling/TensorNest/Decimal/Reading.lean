import TensorNest.Binary
import TensorNest.Text.Digit
import TensorNest.Text.Blank

/-!
# Reading numbers

Integers and floating-point numbers written in decimal. Blanks around the number are skipped, a sign
may precede it, the digits of any script count, and one underscore may stand between two digits. A
floating-point number may also be one of the words for infinity and for no number.
-/

namespace TensorNest.Decimal

/-- The digits of a run in which single underscores may stand between digits; the rest of the text
    follows. None when an underscore stands elsewhere. -/
def digitRun (digits : List Nat) : List Char → Option (List Nat × List Char)
  | [] => some (digits.reverse, [])
  | '_' :: c :: rest =>
    match digits, Text.digitValue? c with
    | _ :: _, some d => digitRun (d :: digits) rest
    | _, _ => none
  | c :: rest =>
    match Text.digitValue? c with
    | some d => digitRun (d :: digits) rest
    | none => some (digits.reverse, c :: rest)

/-- The number that a list of digits denotes. -/
def ofDigits (ds : List Nat) : Nat :=
  ds.foldl (10 * · + ·) 0

/-- A leading sign, as whether it is a minus, and the text after it. -/
def signed : List Char → Bool × List Char
  | '-' :: rest => (true, rest)
  | '+' :: rest => (false, rest)
  | rest => (false, rest)

/-- Reads an integer. -/
def readInt? (s : String) : Option Int :=
  let (negative, body) := signed (Text.trimBlanks s.toList)
  match digitRun [] body with
  | some (d :: ds, []) =>
    let n := ofDigits (d :: ds)
    some (if negative then -(n : Int) else n)
  | _ => none

/-- The most digits that an integer is read from. -/
def digitLimit : Nat := 4300

/-- The number of digits at the start of a text, where an integer starts. -/
def digitCount (s : String) : Nat :=
  let (_, body) := signed (Text.trimBlanks s.toList)
  ((body.takeWhile fun c => c = '_' || Text.isDecimal c).filter (· != '_')).length

/-- The exponent part of a number, zero when there is none. -/
def exponent? : List Char → Option Int
  | [] => some 0
  | c :: rest =>
    if c = 'e' || c = 'E' then
      let (negative, body) := signed rest
      match digitRun [] body with
      | some (d :: ds, []) =>
        let n := ofDigits (d :: ds)
        some (if negative then -(n : Int) else n)
      | _ => none
    else none

/-- The double nearest to `digits * 10 ^ exp`. Exponents far outside the range of the doubles are
    settled without computing the power. -/
def ofScientific (negative : Bool) (digits : Nat) (exp : Int) : Float :=
  let magnitude := ((Nat.toDigits 10 digits).length : Int) + exp
  if digits = 0 || magnitude < -400 then Binary.ofRatio negative 0 1
  else if 400 < magnitude then Binary.ofMagnitude negative Binary.infinityBits
  else Binary.ofRatio negative (digits * Nat.pow 10 exp.toNat) (Nat.pow 10 (-exp).toNat)

/-- Reads a floating-point number. -/
def readFloat? (s : String) : Option Float :=
  let (negative, body) := signed (Text.trimBlanks s.toList)
  let word := Text.lower (String.ofList body)
  if word == "inf" || word == "infinity" then
    some (Binary.ofMagnitude negative Binary.infinityBits)
  else if word == "nan" then some Binary.notANumber
  else
    match digitRun [] body with
    | none => none
    | some (whole, '.' :: rest) =>
      match digitRun [] rest with
      | none => none
      | some (frac, tail) =>
        if whole.isEmpty && frac.isEmpty then none
        else (exponent? tail).map fun e =>
          ofScientific negative (ofDigits (whole ++ frac)) (e - frac.length)
    | some (whole, tail) =>
      if whole.isEmpty then none
      else (exponent? tail).map fun e => ofScientific negative (ofDigits whole) e

end TensorNest.Decimal
