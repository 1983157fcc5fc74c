import TensorNest.Graph.Basic

/-!
# Tensors

A tensor is one output of an operation. Reading a tensor takes one index for each dimension: an
iteration variable, an integer or an expression of an integer type.
-/

namespace TensorNest

/-- An output of an operation. -/
structure Tensor where
  op : Operation
  index : Nat
  deriving Inhabited

namespace Tensor

def ref (t : Tensor) : TensorRef := ⟨t.op.ref, t.index⟩
def name (t : Tensor) : String := t.ref.name
def shape (t : Tensor) : List Expr := t.op.shape
def dtype (t : Tensor) : DataType := t.op.outputType t.index

/-- Whether two tensors are the same output of the same operation. -/
def same (s t : Tensor) : Bool := s.ref.same t.ref

def text (t : Tensor) : String :=
  "Tensor(name=" ++ t.name ++ ", shape=(" ++ commaList (t.shape.map (·.text)) ++ "), dtype=" ++
    t.dtype.text ++ ")"

/-- The index that an operand stands for at a position. -/
def asIndex (t : Tensor) (position : Nat) (x : Operand) : Except Error Expr :=
  match x with
  | .axis iv => .ok (.var iv.var)
  | .number (.bool b) => .error (.flagIndex t.name (Number.bool b).text position)
  | .number (.int _) | .callKind _ | .iterKind _ => Expr.convert x
  | .expr e =>
    if e.dtype.isInteger then .ok e
    else .error (.indexKind t.name position e.text e.kindName)
  | x => .error (.indexKind t.name position x.shown x.kindName)

/-- Reads a tensor at one index for each dimension. -/
def read (t : Tensor) (indices : List Operand) : Except Error Expr := do
  if indices.length != t.shape.length then
    throw (.tensorRank t.name t.shape.length indices.length)
  let args ← indices.mapIdx (fun i x => (i, x)) |>.mapM fun (i, x) => t.asIndex i x
  return .call t.dtype t.op.name args .tensorRead (some t.op.ref) (t.index : Int)

end Tensor

namespace Operation

/-- An output of an operation, which has to be one. -/
def output (o : Operation) (i : Int) : Except Error Tensor := do
  return ⟨o, (← TensorRef.of o.ref i).index⟩

/-- All outputs of an operation. -/
def outputs (o : Operation) : List Tensor :=
  (List.range o.numOutputs).map fun i => ⟨o, i⟩

end Operation

/-- The tensor that a reference names. -/
def tensorOf (r : TensorRef) : Build Tensor := do
  return ⟨← operationOf r.op, r.index⟩

end TensorNest
