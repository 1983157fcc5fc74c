import TensorNest.Decimal.Shortest

/-!
# Columns of numbers

Floating-point numbers that are written under each other: all of them in positional form, their points in
one place, or all of them in exponent form, with as many digits each. Every number has the fewest digits
that tell it from its neighbours, but at most eight after the point, where it is rounded. Numbers that are
very large, very small or of very different size are written in exponent form.
-/

namespace TensorNest.Decimal

/-- The digits after the point at most. -/
def columnPlaces : Nat := 8

/-- A number that is written in a column: its sign, the digits before and after its point, and its
    exponent. -/
structure Cell where
  negative : Bool
  whole : List Char
  frac : List Char
  exp : Int := 0
  deriving Repr

/-- The digits before the point with the sign. -/
def Cell.head (c : Cell) : List Char :=
  if c.negative then '-' :: c.whole else c.whole

/-- The magnitude `m * 2 ^ e` times a power of ten, rounded to an integer. -/
def scaledNearest (m : Nat) (e g : Int) : Nat :=
  let (ten, two) := scales (-g) e
  Binary.divNearest (m * two) ten

/-- A decimal with its point after a number of digits. -/
def Cell.ofDigits (negative : Bool) (cs : List Char) (places : Nat) (exp : Int) : Cell :=
  let cs := List.replicate (places + 1 - cs.length) '0' ++ cs
  let n := cs.length - places
  { negative, whole := cs.take n, frac := stripZeros (cs.drop n), exp }

/-- The number `m * 2 ^ e` of a format in positional form. -/
def Cell.positional (f : Binary.Format) (negative : Bool) (m : Nat) (e : Int) : Cell :=
  if m = 0 then { negative, whole := ['0'], frac := [] }
  else
    let d := shortest f m e
    let places := (-d.exp).toNat
    if places ≤ columnPlaces then
      ofDigits negative (Nat.toDigits 10 (d.digits * Nat.pow 10 d.exp.toNat)) places 0
    else
      ofDigits negative (Nat.toDigits 10 (scaledNearest m e columnPlaces)) columnPlaces 0

/-- The number `m * 2 ^ e` of a format in exponent form. -/
def Cell.scientific (f : Binary.Format) (negative : Bool) (m : Nat) (e : Int) : Cell :=
  if m = 0 then { negative, whole := ['0'], frac := [] }
  else
    let d := shortest f m e
    let (cs, point) := d.layout
    if cs.length ≤ columnPlaces + 1 then ofDigits negative cs (cs.length - 1) (point - 1)
    else
      let ds := Nat.toDigits 10 (scaledNearest m e (columnPlaces - (point - 1)))
      ofDigits negative (ds.take (columnPlaces + 1)) columnPlaces
        (point - 1 + ((ds.length : Int) - (columnPlaces + 1)))

/-- The significand and the exponent of a finite double in a format. -/
def inFormat (f : Binary.Format) (m : Nat) (e : Int) : Nat × Int :=
  (f.nearest (if 0 ≤ e then m * Nat.pow 2 e.toNat else m)
    (if 0 ≤ e then 1 else Nat.pow 2 (-e).toNat)).getD (m, e)

/-- Filled up with blanks on the left. -/
def padStart (width : Nat) (cs : List Char) : List Char :=
  List.replicate (width - cs.length) ' ' ++ cs

/-- The greatest of some lengths. -/
def widest (xs : List (List Char)) : Nat :=
  xs.foldl (fun n cs => max n cs.length) 0

/-- Whether numbers are written in exponent form, by the magnitudes of those that are finite and not
    zero. -/
def needsExponent (f : Binary.Format) (xs : List Float) : Bool :=
  match xs.map Float.abs with
  | [] => false
  | y :: ys =>
    let most := ys.foldl (fun a b => if a < b then b else a) y
    let least := ys.foldl (fun a b => if b < a then b else a) y
    f.round 100000000.0 ≤ most || least < f.round 0.0001 || f.round 1000.0 < f.round (most / least)

/-- The texts of numbers of a format in one column, all of one width. -/
def columnTexts (f : Binary.Format) (xs : List Float) : List String :=
  let parts := xs.map Binary.decode
  let finite := xs.filter fun x => !Binary.isNaN x && !Binary.isInfinite x
  let exponents := needsExponent f (finite.filter (· != 0.0))
  let cell : Binary.Decoded → Option Cell
    | .finite negative m e =>
      let (m, e) := inFormat f m e
      some (if exponents then .scientific f negative m e else .positional f negative m e)
    | _ => none
  let cells := parts.filterMap cell
  let fracs := widest (cells.map (·.frac))
  let expWidth := max 2 (widest (cells.map fun c => Nat.toDigits 10 c.exp.natAbs))
  let right := if cells.isEmpty then 0 else if exponents then expWidth + 3 + fracs else fracs
  let heads := widest (cells.map (·.head))
  let words := parts.filterMap fun
    | .notANumber => some 3
    | .infinite _ => some (if parts.contains (.infinite true) then 4 else 3)
    | .finite .. => none
  let left := words.foldl (fun n w => max n (w - (right + 1))) heads
  parts.map fun d => String.ofList <|
    match cell d with
    | some c =>
      padStart left c.head ++ '.' :: c.frac ++
        (if exponents then
          List.replicate (fracs - c.frac.length) '0' ++ 'e' :: (if c.exp < 0 then '-' else '+') ::
            padded expWidth c.exp.natAbs
        else List.replicate (fracs - c.frac.length) ' ')
    | none =>
      padStart (left + right + 1) (match d with
        | .infinite negative => if negative then "-inf".toList else "inf".toList
        | _ => "nan".toList)

end TensorNest.Decimal
