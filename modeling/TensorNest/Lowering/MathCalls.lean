import TensorNest.Expr.Build
import TensorNest.Func
import TensorNest.Stmt.Rebuild
import TensorNest.Target

/-!
# Calls of mathematical functions

Each family of targets has its own names for the mathematical functions, some of them by the width of
their result. `mathBase` gives back the function that such a name stands for.
-/

namespace TensorNest

/-- The mathematical functions that every target has. -/
def mathFunctions : List String :=
  ["exp", "log", "sqrt", "tanh", "pow", "fabs", "floor", "ceil", "trunc", "round"]

/-- The names of the mathematical functions on a target: one for all types, or one for each width. -/
inductive MathNaming where
  | plain
  | cuda
  | rocm
  deriving DecidableEq, Repr

namespace MathNaming

/-- The naming on a target. -/
def ofTarget (t : Target) : MathNaming :=
  match t.name with
  | "cuda" | "nvptx" => cuda
  | "rocm" => rocm
  | _ => plain

/-- The name of a mathematical function for a type; only those for floating-point numbers are renamed
    by width. -/
def mathName? (k : MathNaming) (name : String) (t : DataType) : Option String :=
  match k with
  | plain => some name
  | cuda =>
    if !t.isFloat then none
    else if t.bits != 32 then some name
    else some (if name == "exp" then "__expf" else name ++ "f")
  | rocm =>
    if !t.isFloat then none
    else some ("__ocml_" ++ name ++ (if t.bits = 32 then "_f32" else "_f64"))

/-- The name of the function that counts bits. -/
def popcountName (k : MathNaming) (t : DataType) : String :=
  match k with
  | plain => "popcount"
  | cuda => if t.bits = 64 then "__popcll" else "__popc"
  | rocm => if t.bits = 64 then "__ockl_popcount_u64" else "__ockl_popcount_u32"

/-- The name of a function of a target that is called in place of an intrinsic. -/
def name? (k : MathNaming) (name : String) (t : DataType) : Option String :=
  if mathFunctions.contains name then k.mathName? name t
  else if name == "popcount" then some (k.popcountName t)
  else none

end MathNaming

namespace Expr

/-- The call of a function of a target in place of an intrinsic, if the target has one. -/
def externMath (k : MathNaming) (t : DataType) (name : String) (args : List Expr)
    (kind : CallKind) (func : Option OpRef) (index : Ordinal) : Expr :=
  match k.name? name t with
  | some name => callOf .pureExternal t name args
  | none => call t name args kind func index

/-- The logistic function, by the exponential function of a target. -/
def logistic (k : MathNaming) (x : Expr) : Except Error Expr := do
  let one ← ofInt 1 x.dtype.element
  let exp := externMath k x.dtype "exp" [← neg x] .pureIntrinsic none 0
  div one (← add one exp)

/-- Lowers one call of a mathematical function. -/
def lowerMathCall (k : MathNaming) : Expr → Except Error Expr
  | call t name args kind func index =>
    if kind != .intrinsic && kind != .pureIntrinsic then .ok (call t name args kind func index)
    else
      match name, args with
      | "sigmoid", x :: _ => logistic k x
      | name, args => .ok (externMath k t name args kind func index)
  | e => .ok e

end Expr

/-- Lowers the calls of mathematical functions of a function for a target. -/
def Func.lowerMath (target : String) (f : Func) : Except Error Func := do
  let k := MathNaming.ofTarget (← Target.parse target)
  let body ← f.body.mapExprsM fun e => e.rebuildM (Expr.lowerMathCall k)
  return { f with body }

/-- A text without the first of several beginnings that it has. -/
def dropStart (starts : List String) (s : String) : String :=
  match starts.find? (s.startsWith ·) with
  | some start => String.ofList (s.toList.drop start.length)
  | none => s

/-- A text without the first of several endings that it has. -/
def dropEnding (endings : List String) (s : String) : String :=
  match endings.find? (s.endsWith ·) with
  | some ending => String.ofList (s.toList.take (s.length - ending.length))
  | none => s

/-- The mathematical function that a name on some target stands for. -/
def mathBase (name : String) : String :=
  let stem := dropEnding ["_f32", "_f64", "_u32", "_u64"] (dropStart ["__ocml_", "__ockl_", "__"] name)
  let base := if stem == "popc" || stem == "popcll" then "popcount" else stem
  let short := dropEnding ["f"] base
  if !mathFunctions.contains base && mathFunctions.contains short then short else base

end TensorNest
