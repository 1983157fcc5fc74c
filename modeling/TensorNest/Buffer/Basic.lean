import TensorNest.Expr.Print
import TensorNest.Expr.Same
import TensorNest.Setting

/-!
# The layout of buffers

The memory layout of a tensor: its shape, its strides in elements (none if compact, rows last), the
offset of its first element and the variable of its data.
-/

namespace TensorNest

/-- A buffer. -/
structure Buffer where
  data : Var
  dtype : DataType
  shape : List Expr
  strides : List Expr
  elemOffset : Expr
  name : String
  scope : String
  alignment : Setting
  offsetFactor : Setting
  deriving Inhabited

def Buffer.text (b : Buffer) : String :=
  "buffer(" ++ b.name ++ ", " ++ b.data.name ++ ")"

/-- Whether two buffers match. -/
def Matching.buffer (k : Matching) (a b : Buffer) : Bool :=
  k.var a.data b.data && a.dtype == b.dtype && k.exprs a.shape b.shape &&
    k.exprs a.strides b.strides && k.expr a.elemOffset b.elemOffset && a.name == b.name &&
    a.scope == b.scope && a.alignment.same k.loose b.alignment &&
    a.offsetFactor.same k.loose b.offsetFactor

end TensorNest
