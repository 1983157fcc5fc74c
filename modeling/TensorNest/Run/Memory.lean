import TensorNest.Run.ArrayText

/-!
# Memory

Memory is made of storages, each of them a row of elements. An array is a view of a storage: its element
at an index is found from an offset and one stride for each axis, so that a transposed array and one
that skips elements need no storage of their own. Storages are added and written, never removed, so a
view stays valid.
-/

namespace TensorNest

/-- All storages, each at its number. -/
abbrev Memory := Array (Array Number)

/-- An array of elements of a storage. Offset and strides count elements. -/
structure View where
  storage : Nat
  type : ElemType
  offset : Int
  shape : List Nat
  strides : List Int
  deriving DecidableEq, Repr, Inhabited

namespace Memory

/-- Adds a storage. -/
def add (m : Memory) (cells : Array Number) : Memory × Nat :=
  (m.push cells, m.size)

/-- The element at an address of a storage. -/
def read (m : Memory) (storage : Nat) (address : Int) : Number :=
  ((m[storage]?).bind fun cells => cells[address.toNat]?).getD (.int 0)

/-- Sets the element at an address of a storage. -/
def write (m : Memory) (storage : Nat) (address : Int) (x : Number) : Memory :=
  m.modify storage fun cells => cells.setIfInBounds address.toNat x

end Memory

/-- The number of elements of a shape. -/
def shapeSize (shape : List Nat) : Nat :=
  shape.foldl (· * ·) 1

/-- The strides of a row of rows, innermost one; an axis without elements counts as one of length one. -/
def compactStrides : List Nat → List Int
  | [] => []
  | _ :: ds => (shapeSize (ds.map (max · 1)) : Int) :: compactStrides ds

namespace View

/-- The number of elements. -/
def size (v : View) : Nat :=
  shapeSize v.shape

/-- The number of axes. -/
def rank (v : View) : Nat :=
  v.shape.length

/-- The view of a whole storage. Without elements all strides are zero. -/
def whole (storage : Nat) (type : ElemType) (shape : List Nat) : View where
  storage
  type
  offset := 0
  shape
  strides := if shapeSize shape = 0 then shape.map fun _ => 0 else compactStrides shape

/-- The part at an index of the first axis. -/
def at? (v : View) (i : Int) : Option View :=
  match v.shape, v.strides with
  | d :: ds, s :: ss =>
    if 0 ≤ i && i < d then some { v with offset := v.offset + i * s, shape := ds, strides := ss }
    else none
  | _, _ => none

/-- The addresses of the elements of given axes, in row order. -/
def addressesFrom (offset : Int) : List Nat → List Int → List Int
  | d :: ds, s :: ss =>
    (List.range d).flatMap fun (i : Nat) => addressesFrom (offset + (i : Int) * s) ds ss
  | _, _ => [offset]

/-- The addresses of all elements, in row order. -/
def addresses (v : View) : List Int :=
  addressesFrom v.offset v.shape v.strides

/-- All elements, in row order. -/
def elements (v : View) (m : Memory) : List Number :=
  v.addresses.map (m.read v.storage)

/-- The elements apart from the memory. -/
def snapshot (v : View) (m : Memory) : Snapshot :=
  ⟨v.type, v.shape, v.elements m⟩

/-- The axes in opposite order. -/
def transpose (v : View) : View :=
  { v with shape := v.shape.reverse, strides := v.strides.reverse }

/-- Every element of the first axis at a distance from the last one taken; a negative distance starts
    at the end. -/
def every (v : View) (step : Int) : Except Error View :=
  match v.shape, v.strides with
  | d :: ds, s :: ss =>
    if step = 0 then .error (.invalidValue "slice step cannot be zero")
    else
      let count := (d + step.natAbs - 1) / step.natAbs
      if count = 0 then .ok { v with shape := 0 :: ds }
      else
        let start : Int := if step < 0 then (d : Int) - 1 else 0
        .ok { v with
          offset := v.offset + start * s, shape := count :: ds, strides := (s * step) :: ss }
  | _, _ => .error .invalidOperand

/-! ### Reshaping -/

/-- The axes of more than one element, innermost first, with their strides. -/
def innerAxes (v : View) : List (Nat × Int) :=
  ((v.shape.zip v.strides).filter fun a => a.1 != 1).reverse

/-- Axes, innermost first, such that each follows the one before without a gap, merged to one. -/
def mergeAxes (axes : List (Nat × Int)) : List (Nat × Int) :=
  (axes.foldl (fun merged (d, s) =>
    match merged with
    | (e, r) :: rest => if s = (e : Int) * r then (d * e, r) :: rest else (d, s) :: merged
    | [] => [(d, s)]) []).reverse

/-- Whether the elements stand in row order without gaps. -/
def isCompact (v : View) : Bool :=
  v.size = 0 ||
    match mergeAxes v.innerAxes with
    | [] => true
    | [(_, s)] => s = 1
    | _ => false

/-- The strides of axes, innermost first, that are carved out of merged axes; `left` is what is left of
    the axis that is being carved. None if an axis would cross the end of a merged one. -/
def carve (left : Nat) (stride : Int) (merged : List (Nat × Int)) : List Nat → Option (List Int)
  | [] => some []
  | d :: ds =>
    if d = 1 then (stride :: ·) <$> carve left stride merged ds
    else
      let (left, stride, merged) :=
        match left, merged with
        | 1, (e, r) :: rest => (e, r, rest)
        | _, _ => (left, stride, merged)
      if left % d = 0 then (stride :: ·) <$> carve (left / d) (stride * d) merged ds else none

/-- The view of another shape of the same size, if it needs no storage of its own. -/
def reshape? (v : View) (shape : List Nat) : Option View :=
  if v.isCompact then some { v with shape, strides := compactStrides shape }
  else
    let merged := mergeAxes v.innerAxes
    let innermost := (merged.head?.map (·.2)).getD 1
    (carve 1 innermost merged shape.reverse).map fun strides =>
      { v with shape, strides := strides.reverse }

/-- A shape in which one length may be left open, as a negative one, filled in for a size. -/
def fillShape (size : Nat) (shape : List Int) : Except Error (List Nat) :=
  let known := shapeSize ((shape.filter (0 ≤ ·)).map Int.toNat)
  match shape.countP (· < 0) with
  | 0 => if size = known then .ok (shape.map Int.toNat) else .error (.reshapeSize size shape)
  | 1 =>
    if known = 0 || size % known != 0 then .error (.reshapeSize size shape)
    else .ok (shape.map fun (d : Int) => if d < 0 then size / known else d.toNat)
  | _ => .error .unknownLengths

end View

namespace Memory

/-- Adds an array of given elements. -/
def addArray (m : Memory) (type : ElemType) (shape : List Nat) (xs : List Number) : Memory × View :=
  let (m, storage) := m.add xs.toArray
  (m, .whole storage type shape)

/-- Adds an array of zeros. -/
def addZeros (m : Memory) (type : ElemType) (size : Nat) : Memory × View :=
  let (m, storage) := m.add (Array.replicate size type.zero)
  (m, .whole storage type [size])

/-- An array in another shape: a view of the same storage where there is one, a copy otherwise. -/
def reshape (m : Memory) (v : View) (shape : List Nat) : Memory × View :=
  match v.reshape? shape with
  | some w => (m, w)
  | none => m.addArray v.type shape (v.elements m)

/-- An array as one row. -/
def flatten (m : Memory) (v : View) : Memory × View :=
  m.reshape v [v.size]

/-- Writes numbers at the addresses of a view, in order. -/
def writeAll (m : Memory) (storage : Nat) (addresses : List Int) (xs : List Number) : Memory :=
  (addresses.zip xs).foldl (fun m (a, x) => m.write storage a x) m

end Memory

end TensorNest
