/-!
# Binary floating-point formats

A finite value of a format is `m * 2 ^ e` with `m` below `2 ^ precision` and `e` between the two
exponents of the format. `Format.nearest` rounds a ratio of naturals to a format, half way cases to
the even neighbour; `toFloat` and `decode` go between such pairs and doubles.
-/

namespace TensorNest.Binary

/-- The quotient rounded to the nearest integer, half way cases to the even one. -/
def divNearest (num den : Nat) : Nat :=
  let q := num / den
  let r := num % den
  if 2 * r < den then q
  else if den < 2 * r then q + 1
  else if q % 2 = 0 then q
  else q + 1

/-- A binary format: the bits of its significand and the least and greatest exponent of its unit. -/
structure Format where
  precision : Nat
  minExp : Int
  maxExp : Int
  deriving DecidableEq, Repr

def half : Format := ⟨11, -24, 5⟩
def single : Format := ⟨24, -149, 104⟩
def double : Format := ⟨53, -1074, 971⟩

/-- The exponent of the unit of the format in which `num / den` is rounded, `num` not being zero. -/
def Format.unitExp (f : Format) (num den : Nat) : Int :=
  let d : Int := (num.log2 : Int) - (den.log2 : Int)
  let atLeast := if 0 ≤ d then den * Nat.pow 2 d.toNat ≤ num else den ≤ num * Nat.pow 2 (-d).toNat
  let top := if atLeast then d + 1 else d
  max f.minExp (top - (f.precision : Int))

/-- The value of the format nearest to `num / den`, as significand and exponent; none above the
    greatest finite value. -/
def Format.nearest (f : Format) (num den : Nat) : Option (Nat × Int) :=
  if num = 0 then some (0, f.minExp)
  else
    let e := f.unitExp num den
    let m := if 0 ≤ e then divNearest num (den * Nat.pow 2 e.toNat)
             else divNearest (num * Nat.pow 2 (-e).toNat) den
    if f.maxExp < e || (e = f.maxExp && m = Nat.pow 2 f.precision) then none else some (m, e)

/-- The bits of the double `m * 2 ^ e`, for a pair that `double.nearest` gives. -/
def doubleBits (m : Nat) (e : Int) : Nat :=
  if m < Nat.pow 2 52 then m else (e + 1075).toNat * Nat.pow 2 52 + (m - Nat.pow 2 52)

/-- The bits of infinity. -/
def infinityBits : Nat := 0x7ff * Nat.pow 2 52

/-- A double from its sign and the bits of its magnitude. -/
def ofMagnitude (negative : Bool) (bits : Nat) : Float :=
  Float.ofBits (UInt64.ofNat (if negative then Nat.pow 2 63 + bits else bits))

/-- The double nearest to a ratio. -/
def ofRatio (negative : Bool) (num den : Nat) : Float :=
  ofMagnitude negative <|
    match double.nearest num den with
    | some (m, e) => doubleBits m e
    | none => infinityBits

def infinity : Float := ofMagnitude false infinityBits
def negInfinity : Float := ofMagnitude true infinityBits
def notANumber : Float := ofMagnitude false (infinityBits + Nat.pow 2 51)

/-- What a double stands for: no number, an infinity, or `±m * 2 ^ e`. -/
inductive Decoded where
  | notANumber
  | infinite (negative : Bool)
  | finite (negative : Bool) (m : Nat) (e : Int)
  deriving DecidableEq, Repr

def decode (x : Float) : Decoded :=
  let bits := x.toBits.toNat
  let negative := Nat.pow 2 63 ≤ bits
  let field : Nat := bits / Nat.pow 2 52 % 2048
  let frac : Nat := bits % Nat.pow 2 52
  if field = 2047 then if frac = 0 then .infinite negative else .notANumber
  else if field = 0 then .finite negative frac (-1074)
  else .finite negative (Nat.pow 2 52 + frac) ((field : Int) - 1075)

/-- The double that holds the value of a format nearest to a ratio. -/
def Format.ofRatio (f : Format) (negative : Bool) (num den : Nat) : Float :=
  match f.nearest num den with
  | some (m, e) =>
    if 0 ≤ e then Binary.ofRatio negative (m * Nat.pow 2 e.toNat) 1
    else Binary.ofRatio negative m (Nat.pow 2 (-e).toNat)
  | none => if negative then negInfinity else infinity

/-- The double that holds the value of a format nearest to `x`. -/
def Format.round (f : Format) (x : Float) : Float :=
  match decode x with
  | .finite negative m e =>
    f.ofRatio negative (if 0 ≤ e then m * Nat.pow 2 e.toNat else m) (if 0 ≤ e then 1 else Nat.pow 2 (-e).toNat)
  | _ => x

/-- The double that holds the value of a format nearest to an integer. -/
def Format.ofInt (f : Format) (n : Int) : Float :=
  f.ofRatio (n < 0) n.natAbs 1

/-- The integer part of a double, toward zero; none for an infinity and for no number. -/
def truncate? (x : Float) : Option Int :=
  match decode x with
  | .finite negative m e =>
    let n : Nat := if 0 ≤ e then m * Nat.pow 2 e.toNat else m / Nat.pow 2 (-e).toNat
    some (if negative then -(n : Int) else n)
  | _ => none

/-- The double nearest to an integer; none when that is an infinity. -/
def ofInt? (n : Int) : Option Float :=
  (double.nearest n.natAbs 1).map fun p => ofMagnitude (n < 0) (doubleBits p.1 p.2)

/-- Whether a double is no number. -/
def isNaN (x : Float) : Bool := decode x == .notANumber

/-- Whether the sign bit of a double is set. -/
def isNegative (x : Float) : Bool := Nat.pow 2 63 ≤ x.toBits.toNat

/-- Whether a double is an infinity of either sign. -/
def isInfinite (x : Float) : Bool :=
  match decode x with
  | .infinite _ => true
  | _ => false

end TensorNest.Binary
