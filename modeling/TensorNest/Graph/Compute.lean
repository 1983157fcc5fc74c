import TensorNest.DataType.Element
import TensorNest.Graph.Axis
import TensorNest.Graph.Tensor

/-!
# Defining tensors

Placeholders, tensors computed from an index rule, and reductions. A rule is given by its parameters
and by what it gives for their values; it may itself build expressions and operations.
-/

namespace TensorNest

/-- The parameters of a rule: their names, or any number of them. -/
inductive Params where
  | named (names : List String)
  | any
  deriving Inhabited

/-- A rule over the computations of `m`. -/
structure Rule (m : Type → Type) where
  params : Params
  apply : List Expr → m Operand

/-- The names of the parameters of a rule that has to take `count` arguments. -/
def Params.names (p : Params) (count : Nat) (what stem : String) : Except Error (List String) :=
  match p with
  | any => .ok ((List.range count).map fun i => stem ++ toString i)
  | named names =>
    if names.length = count then .ok names
    else .error (.ruleArity what names.length count)

/-- The extents of a shape. -/
def shapeOf (x : Operand) : Except Error (List Expr) := do
  (← x.dims).mapM (Expr.convert ·)

/-- An input of a shape and a type. -/
def placeholder (shape : Operand) (name : String) (spec : TypeSpec) : Build Tensor := do
  let shape ← shapeOf shape
  let o ← addOperation name "" [] (spec.resolve.map (.placeholder shape))
  return ⟨o, 0⟩

/-- The data parallel axis over an extent. -/
def dataAxis (name : String) (extent : Expr) : Build IterVar := do
  let zero ← Expr.ofInt 0 extent.dtype
  return ⟨some ⟨zero, extent⟩, ← freshVar name extent.dtype, .dataParallel, ""⟩

/-- The numbers of the axes of a reduction. -/
def Expr.reductionAxes? : Expr → Option (List Nat)
  | .reduce _ _ axes _ _ => some (axes.map (·.id))
  | _ => none

/-- If an output is a reduction, all have to be reductions over the same axes. -/
def checkReductions (name : String) (bodies : List Expr) : Except Error Unit :=
  let reductions := bodies.filterMap (·.reductionAxes?)
  match reductions with
  | [] => .ok ()
  | axes :: _ =>
    if reductions.length = bodies.length && reductions.all (· == axes) then .ok ()
    else .error (.mixedReductions name bodies.length reductions.length)

section

variable {m : Type → Type} [Monad m] [MonadLiftT Build m]

/-- A step that can fail, as a step of a computation. -/
def lifted {α : Type} (x : Except Error α) : m α :=
  liftM (liftM x : Build α)

/-- The operation whose elements a rule defines, over one axis for each extent of a shape. The rule
    gives one expression, or a list with one for each output. -/
def compute (shape : Operand) (rule : Rule m) (name tag : String)
    (attrs : List (String × Nat)) : m Operation := do
  let shape ← lifted (shapeOf shape)
  let names ← lifted (rule.params.names shape.length ("compute " ++ name) "i")
  let axes ← (liftM ((names.zip shape).mapM fun (n, d) => dataAxis n d : Build (List IterVar)) :
    m (List IterVar))
  let given ← rule.apply (axes.map fun iv => .var iv.var)
  let bodies ← lifted <|
    match given with
    | .list xs => xs.mapM (Expr.convert ·)
    | x => do return [← Expr.convert x]
  lifted (checkReductions name bodies)
  liftM (addCompute name tag attrs axes bodies : Build Operation)

/-- The axes of a reduction, which have to be of that kind. -/
def reductionAxesOf (axes : Operand) : Except Error (List IterVar) := do
  let given ←
    match axes with
    | .axis iv => pure [.axis iv]
    | x => x.items
  given.mapM fun
    | .axis iv => if iv.kind = .reduction then .ok iv else .error (.notReduceAxis iv.text)
    | x => .error (.notReduceAxis x.plainText)

/-- Whether an operand is a single source of a reduction. -/
def Operand.isSource : Operand → Bool
  | .expr _ => true
  | x => x.number?.isSome

/-- The sources of a reduction, brought to its type. -/
def reductionSources (t : DataType) (sources : Operand) : Except Error (List Expr) := do
  let given ← if sources.isSource then pure [sources] else sources.items
  given.mapM fun x => do Expr.castTo t (← Expr.convert x (.exact t))

/-- The reduction that starts from `identity` and combines an accumulator with the sources at every
    point of the axes that satisfies the condition. -/
def reduction (combine : Rule m) (identity : Operand) (spec : TypeSpec) (sources axes cond : Operand) :
    m Expr := do
  let t ← lifted spec.resolve
  let sources ← lifted (reductionSources t sources)
  let axes ← lifted (reductionAxesOf axes)
  let names ← lifted (combine.params.names (1 + sources.length) "commutative_reduce" "v")
  let vars ← (liftM (names.mapM (freshVar · t) : Build (List Var)) : m (List Var))
  let result ← lifted (Expr.convert (← combine.apply (vars.map .var)))
  if result.dtype != t then lifted (.error (.combinerType result.dtype t))
  let start ← lifted <|
    match identity with
    | .expr e => .ok e
    | x => Expr.typedConst x (.exact t)
  if start.dtype != t then lifted (.error (.identityType start.dtype t))
  let combiner : Reducer := ⟨vars.take 1, vars.drop 1, [result], [start]⟩
  let cond ← lifted <|
    match cond with
    | .nothing => .ok none
    | x => some <$> Expr.convert x
  return .reduce combiner sources axes cond 0

end

/-- The rule of a binary operation. -/
def BinOp.rule (op : BinOp) (a b : String) : Rule Build where
  params := .named [a, b]
  apply
    | [x, y] => do return .expr (← Expr.binary op x y)
    | _ => throw .invalidOperand

/-- The reduction of one source by a binary operation. -/
def reduceBy (op : BinOp) (a b : String) (identity : DataType → Except Error Number)
    (source axes cond : Operand) : Build Expr := do
  let e ← Expr.convert source
  let identity ← identity e.dtype
  reduction (op.rule a b) (.number identity) (.exact e.dtype) (.list [e]) axes cond

/-- The bounds of an integer type that memory can hold. -/
def integerBounds (t : DataType) : Except Error (Int × Int) := do
  match ← t.elemType with
  | .bool => throw (.invalidValue "Invalid integer data type 'b'.")
  | et => return (et.least, et.greatest)

/-- The least value of a type. -/
def lowest (t : DataType) : Except Error Number := do
  if t.isFloat then return .float Binary.negInfinity
  return .int (← integerBounds t).1

/-- The greatest value of a type. -/
def highest (t : DataType) : Except Error Number := do
  if t.isFloat then return .float Binary.infinity
  return .int (← integerBounds t).2

def sum (source axes cond : Operand) : Build Expr :=
  reduceBy .add "acc" "value" (fun _ => .ok (.int 0)) source axes cond

def reduceMax (source axes cond : Operand) : Build Expr :=
  reduceBy .max "a" "b" lowest source axes cond

def reduceMin (source axes cond : Operand) : Build Expr :=
  reduceBy .min "a" "b" highest source axes cond

/-- Nested bindings of expressions, the first one outermost. A value, or the body, may depend on the
    variables bound before it. -/
def letBindings {m : Type → Type} [Monad m] [MonadLiftT Build m]
    (bindings : List (String × (List (String × Var) → m Operand)))
    (body : List (String × Var) → m Operand) : m Expr := do
  let (bound, lets) ← bindings.foldlM (fun (bound, lets) (name, value) => do
    let e ← lifted (Expr.convert (← value bound))
    let v ← (liftM (freshVar name e.dtype : Build Var) : m Var)
    return (bound ++ [(name, v)], lets ++ [(v, e)])) (([] : List (String × Var)), ([] : List (Var × Expr)))
  let result ← lifted (Expr.convert (← body bound))
  return lets.foldr (fun (v, e) r => .bind v e r) result

end TensorNest
