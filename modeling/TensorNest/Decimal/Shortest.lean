import TensorNest.Binary

/-!
# Shortest decimals

The text of a double is the decimal with the fewest digits that reads back as it, the nearest one
where several have that many digits. `shortest` finds the digits in exact arithmetic: a double of
significand `m` and exponent `e` is read back from every decimal between the midpoints to its two
neighbours, the midpoints included when `m` is even. `floatText` lays them out.
-/

namespace TensorNest.Decimal

/-- A decimal `digits * 10 ^ exp`. -/
structure Scaled where
  digits : Nat
  exp : Int
  deriving DecidableEq, Repr

/-- The greatest `k` with `10 ^ k ≤ num / den`, both being positive. -/
def log10Floor (num den : Nat) : Int :=
  if den ≤ num then ((Nat.toDigits 10 (num / den)).length : Int) - 1
  else
    let d := (Nat.toDigits 10 (den / num)).length
    if den ≤ num * Nat.pow 10 (d - 1) then 1 - (d : Int) else -(d : Int)

/-- The interval of the reals that read back as a value of a format, in quarters of its unit. -/
structure Interval where
  lo : Nat
  mid : Nat
  hi : Nat
  closed : Bool
  exp : Int

/-- The interval of `m * 2 ^ e` in a format: below a power of two the neighbour is only half a unit
    away. -/
def Interval.of (f : Binary.Format) (m : Nat) (e : Int) : Interval where
  lo := if m = Nat.pow 2 (f.precision - 1) && f.minExp < e then 4 * m - 1 else 4 * m - 2
  mid := 4 * m
  hi := 4 * m + 2
  closed := m % 2 = 0
  exp := e - 2

/-- `10 ^ g` and `2 ^ e` over one denominator, as the numerators `(ten, two)`. -/
def scales (g e : Int) : Nat × Nat :=
  (Nat.pow 10 g.toNat * Nat.pow 2 (-e).toNat, Nat.pow 2 e.toNat * Nat.pow 10 (-g).toNat)

/-- Whether `c * 10 ^ g` reads back as the value of the interval. -/
def Interval.contains (i : Interval) (c : Nat) (g : Int) : Bool :=
  let (ten, two) := scales g i.exp
  let x := c * ten
  if i.closed then i.lo * two ≤ x && x ≤ i.hi * two else i.lo * two < x && x < i.hi * two

/-- The decimal of the interval on the grid of `10 ^ g` that is nearest to its middle. -/
def Interval.onGrid? (i : Interval) (g : Int) : Option Scaled :=
  let (ten, two) := scales g i.exp
  let c := i.mid * two / ten
  let below := i.contains c g
  let above := i.contains (c + 1) g
  if below && above then
    let down := i.mid * two - c * ten
    let up := (c + 1) * ten - i.mid * two
    some ⟨if down < up || (down = up && c % 2 = 0) then c else c + 1, g⟩
  else if below then some ⟨c, g⟩
  else if above then some ⟨c + 1, g⟩
  else none

/-- The shortest decimal that reads back as `m * 2 ^ e`. -/
def shortest (f : Binary.Format) (m : Nat) (e : Int) : Scaled :=
  let i := Interval.of f m e
  let k := if 0 ≤ e then log10Floor (m * Nat.pow 2 e.toNat) 1 else log10Floor m (Nat.pow 2 (-e).toNat)
  let grids := (List.range 17).map fun (n : Nat) => k - (n : Int)
  (grids.findSome? i.onGrid?).getD ⟨0, 0⟩

/-- Without the zeros at its end. -/
def stripZeros (cs : List Char) : List Char :=
  (cs.reverse.dropWhile (· == '0')).reverse

/-- The digits of a decimal and the position of its point, counted from the first digit. -/
def Scaled.layout (d : Scaled) : List Char × Int :=
  let cs := Nat.toDigits 10 d.digits
  (stripZeros cs, (cs.length : Int) + d.exp)

/-- The layout of a floating-point text. -/
structure Style where
  /-- The least exponent written in positional form. -/
  least : Int
  /-- The first exponent written in exponent form again. -/
  limit : Int
  /-- The least number of digits of an exponent. -/
  expWidth : Nat

/-- Numbers are positional from `0.0001` up to below `10 ^ 16`, with at least one digit after the
    point, and exponents have a sign and at least two digits. -/
def style : Style := ⟨-4, 16, 2⟩

/-- A number filled up with zeros on the left. -/
def padded (width n : Nat) : List Char :=
  let cs := Nat.toDigits 10 n
  List.replicate (width - cs.length) '0' ++ cs

/-- A positive decimal written in a style. -/
def Style.write (s : Style) (d : Scaled) : List Char :=
  let (cs, point) := d.layout
  let exp := point - 1
  if s.least ≤ exp && exp < s.limit then
    if point ≤ 0 then '0' :: '.' :: List.replicate (-point).toNat '0' ++ cs
    else
      let p := point.toNat
      if cs.length ≤ p then cs ++ List.replicate (p - cs.length) '0' ++ ['.', '0']
      else cs.take p ++ '.' :: cs.drop p
  else
    let sign := if exp < 0 then '-' else '+'
    let tail := cs.drop 1
    cs.take 1 ++ (if tail.isEmpty then [] else '.' :: tail) ++ 'e' :: sign ::
      padded s.expWidth exp.natAbs

/-- The text of a value of a format: the shortest decimal that reads back. -/
def textIn (f : Binary.Format) (x : Float) : String :=
  match Binary.decode x with
  | .notANumber => "nan"
  | .infinite negative => if negative then "-inf" else "inf"
  | .finite negative m e =>
    let (m, e) := (f.nearest (if 0 ≤ e then m * Nat.pow 2 e.toNat else m)
      (if 0 ≤ e then 1 else Nat.pow 2 (-e).toNat)).getD (m, e)
    let body := if m = 0 then ['0', '.', '0'] else style.write (shortest f m e)
    String.ofList (if negative then '-' :: body else body)

/-- The text of a double. -/
def floatText (x : Float) : String :=
  textIn Binary.double x

end TensorNest.Decimal
