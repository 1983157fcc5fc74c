import TensorNest.Graph.Basic
import TensorNest.Stmt.Same

/-!
# Access to buffers

Buffers are declared with a layout, of which only the shape has to be given, and are read and written at
one index for each dimension.
-/

namespace TensorNest

/-- How a buffer is to be laid out. What is not given is made up. -/
structure Layout where
  dtype : TypeSpec := .named "float32"
  name : String := "buffer"
  data : Option Var := none
  strides : List Operand := []
  elemOffset : Operand := .nothing
  scope : String := ""
  alignment : Setting := (-1 : Int)
  offsetFactor : Setting := (0 : Int)

namespace Buffer

/-- Declares a buffer. Its offset is a new variable if an offset factor is asked for, and zero
    otherwise. -/
def declare (shape : List Operand) (layout : Layout) : Build Buffer := do
  let data ←
    match layout.data with
    | some v => pure v
    | none => freshVar layout.name .handle
  let offset : Operand ←
    match layout.elemOffset with
    | .nothing =>
      if !layout.offsetFactor.isNumber 0 then
        pure (.expr (.var (← freshVar (layout.name ++ "_elem_offset"))))
      else pure (.number (.int 0))
    | x => pure x
  let dtype ← layout.dtype.resolve
  let shape ← shape.mapM (Expr.convert ·)
  let strides ← layout.strides.mapM (Expr.convert ·)
  let elemOffset ← Expr.convert offset
  return ⟨data, dtype, shape, strides, elemOffset, layout.name, layout.scope, layout.alignment,
    layout.offsetFactor⟩

/-- The sum of the indices times the strides. -/
def stridedOffset (strides : List Expr) (indices : List Operand) : Except Error Expr := do
  let zero ← Expr.ofInt 0 .int32
  (indices.zip strides).foldlM (fun sum (i, s) => do Expr.add sum (← Expr.mul i s)) zero

/-- The offset in rows that are stored one after the other. -/
def compactOffset (shape : List Expr) : List Operand → Except Error Expr
  | [] => Expr.ofInt 0 .int32
  | i :: is => do
    let first ← Expr.convert i
    (is.zip (shape.drop 1)).foldlM (fun sum (i, extent) => do
      Expr.add (← Expr.mul sum extent) i) first

/-- The place in memory of the element at the given indices. -/
def offsetOf (b : Buffer) (indices : List Operand) : Except Error Expr := do
  if indices.length != b.shape.length then
    throw (.bufferRank b.name b.shape.length indices.length)
  let offset ←
    if indices.isEmpty || b.strides.isEmpty then compactOffset b.shape indices
    else stridedOffset b.strides indices
  if b.elemOffset.isConstInt 0 then return offset
  Expr.add offset b.elemOffset

/-- Loads an element. -/
def load (b : Buffer) (indices : List Operand) (spec : TypeSpec) : Except Error Expr := do
  let t ←
    match spec with
    | .unspecified => pure b.dtype
    | spec => spec.resolve
  return .load t (.var b.data) (← b.offsetOf indices) none

/-- Stores an element. -/
def store (b : Buffer) (indices : List Operand) (value : Operand) : Except Error Stmt := do
  let value ← Expr.convert value
  return .store (.var b.data) value (← b.offsetOf indices) none

/-- The number of elements of a shape. -/
def sizeOf (shape : List Expr) : Except Error Expr := do
  let one ← Expr.ofInt 1 .int32
  shape.foldlM (fun (n d : Expr) => Expr.mul n d) one

/-- The address of a buffer from an offset on, for reading, writing or both. -/
def accessPtr (b : Buffer) (mask : Int) (offset : Operand) : Except Error Expr := do
  let extent ← sizeOf b.shape
  let element ← Expr.ofInt 0 b.dtype.element
  let start ← Expr.add b.elemOffset offset
  let mask ← Expr.ofInt mask .int32
  return Expr.intrinsic .handle "xte_access_ptr" [element, .var b.data, start, extent, mask]

end Buffer

end TensorNest
