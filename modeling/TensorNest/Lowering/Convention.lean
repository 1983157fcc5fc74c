import TensorNest.Expr.Simplify
import TensorNest.Func
import TensorNest.Graph.Tensor
import TensorNest.Stmt.Visit

/-!
# The calling convention

A body becomes a function by a prologue that reads its arguments by their position. A variable that
stands for an argument, the data of a buffer, an extent, a stride or an offset is bound where it is met
first; where it is met again, and where a constant is expected, the prologue checks.
-/

namespace TensorNest

/-- What is given for an argument. -/
inductive Argument where
  | tensor (t : Tensor)
  | buffer (b : Buffer)
  | var (v : Var)
  | other (x : Operand)
  deriving Inhabited

/-- The kind of an argument, as shown in messages. -/
def Argument.kindName : Argument → String
  | tensor _ => "Tensor"
  | buffer _ => "Buffer"
  | var _ => "Var"
  | other x => x.kindName

/-- The bindings and the checks of a prologue. -/
structure Prologue where
  defs : List (Var × Expr) := []
  checks : List (Expr × String) := []

namespace Prologue

/-- Adds a check, unless it always succeeds. -/
def check (p : Prologue) (cond : Expr) (message : String) : Except Error Prologue := do
  match ← cond.simplify with
  | .const v t =>
    return if v.truthy then p else { p with checks := p.checks ++ [(.const v t, message)] }
  | cond => return { p with checks := p.checks ++ [(cond, message)] }

/-- Whether a variable is bound. -/
def binds (p : Prologue) (v : Var) : Bool :=
  p.defs.any (·.1.id == v.id)

/-- Binds a variable to the value that it has to have; checks any other expression, and a variable
    that is bound already. -/
def bind (p : Prologue) (name : String) (expected value : Expr) (what : String) :
    Except Error Prologue := do
  let value ← Expr.castTo expected.dtype value
  let constraint : Except Error Prologue := do
    p.check (← Expr.eq value expected)
      (name ++ ": Argument " ++ what ++ " has an unsatisfied constraint")
  match expected with
  | .var v => if p.binds v then constraint else return { p with defs := p.defs ++ [(v, value)] }
  | _ => constraint

/-- A property of the argument at a position. -/
def query (t : DataType) (property : String) (args : List Nat) : Expr :=
  Expr.intrinsic t property (args.map fun (n : Nat) => Expr.int32 n)

/-- The check of the element type of a buffer. -/
def typeCheck (t : DataType) (i : Nat) : Except Error Expr := do
  let code ← Expr.eq (query ⟨.uint, 8, 1⟩ "xte_arg_type_code" [i]) (t.code.toNat : Int)
  let bits ← Expr.eq (query ⟨.uint, 8, 1⟩ "xte_arg_type_bits" [i]) (t.bits : Int)
  let lanes ← Expr.eq (query ⟨.uint, 16, 1⟩ "xte_arg_type_lanes" [i]) t.lanes
  Expr.logicalAnd (← Expr.logicalAnd code bits) lanes

/-- Checks that the strides of an argument are those of a compact buffer of a shape. -/
def checkCompact (p : Prologue) (name : String) (b : Buffer) (i : Nat) : Except Error Prologue := do
  let one ← Expr.ofInt 1 .int32
  let (p, _) ← b.shape.zipIdx.foldrM (fun (extent, dim) ((p, expected) : Prologue × Expr) => do
    let stride := query .int32 "xte_arg_stride" [i, dim]
    let p ← p.check (← Expr.eq stride expected)
      (name ++ ": Argument " ++ b.name ++ ".strides: expected to be compact array")
    return (p, ← Expr.mul expected extent)) (p, one)
  return p

/-- Binds expressions to a property of each dimension of an argument. -/
def bindDims (p : Prologue) (name property what : String) (i : Nat) (es : List Expr) :
    Except Error Prologue :=
  es.zipIdx.foldlM (fun p (e, dim) =>
    p.bind name e (query .int32 property [i, dim]) (what ++ "[" ++ toString dim ++ "]")) p

/-- Binds and checks all that a buffer says about the argument at a position. -/
def bindBuffer (p : Prologue) (name : String) (b : Buffer) (i : Nat) : Except Error Prologue := do
  let p ← p.bind name (.var b.data) (query .handle "xte_arg_data" [i]) (b.name ++ ".data")
  let rank := b.shape.length
  let p ← p.check (← Expr.eq (query .int32 "xte_arg_ndim" [i]) (rank : Int))
    s!"{name}: arg{i}.ndim is expected to equal {rank}"
  let p ← p.check (← typeCheck b.dtype i)
    s!"{name}: Argument arg{i}.dtype expected to be {b.dtype}"
  let p ← p.bindDims name "xte_arg_shape" (b.name ++ ".shape") i b.shape
  let p ←
    if b.strides.isEmpty then p.checkCompact name b i
    else p.bindDims name "xte_arg_stride" (b.name ++ ".strides") i b.strides
  p.bind name b.elemOffset (query .int32 "xte_arg_elem_offset" [i]) (b.name ++ ".elem_offset")

/-- Binds the argument at a position to a parameter. -/
def bindParam (p : Prologue) (name : String) (a : Param) (i : Nat) : Except Error Prologue :=
  match a with
  | .buffer b => p.bindBuffer name b i
  | .var v => p.bind name (.var v) (query v.dtype "xte_arg_value" [i]) v.name

/-- A body after the prologue: bindings first, then checks. -/
def wrap (p : Prologue) (body : Stmt) : Stmt :=
  let checked := p.checks.foldr (fun (c, m) s => .assert c (.str m) s) body
  p.defs.foldr (fun (v, e) s => .bind v e s) checked

end Prologue

/-- The element types of the memory that buffers point to. -/
def handlesOf (params : List Param) : List (Var × DataType) :=
  handleTypes (params.filterMap fun
    | .buffer b => some (b.data, b.dtype)
    | .var _ => none)

/-- Whether a statement has thread regions. -/
def Stmt.hasThreads (s : Stmt) : Bool :=
  s.stmts.any fun
    | .attr _ "thread_extent" _ _ => true
    | _ => false

/-- The parameter of an argument. -/
def Argument.param (name : String) : Argument → Except Error Param
  | buffer b => .ok (.buffer b)
  | var v => .ok (.var v)
  | a => .error (.parameterKind name a.kindName)

/-- The prologue of a function with some arguments, and the parameters of these. -/
def Prologue.ofArgs (name : String) (args : List Argument) :
    Except Error (Prologue × List Param) := do
  let start ← ({} : Prologue).check
    (← Expr.eq (Prologue.query .int32 "xte_num_args" []) (args.length : Int))
    s!"{name}: num_args should be {args.length}"
  args.zipIdx.foldlM (fun ((p, params) : Prologue × List Param) (a, i) => do
    let param ← a.param name
    return (← p.bindParam name param i, params ++ [param])) (start, [])

/-- The function of a body. All variables of the body have to be bound by its arguments. -/
def Func.ofBody (body : Stmt) (name : String) (args : List Argument) (restricted : Setting) :
    Except Error Func := do
  let (p, params) ← Prologue.ofArgs name args
  let stmt := p.wrap body
  match stmt.freeVars with
  | [] =>
    return { name, params, body := stmt, restricted
             kind := if body.hasThreads then .mixed else .host
             handles := handlesOf params }
  | vs => throw (.unboundVars name (vs.map (·.name)))

end TensorNest
