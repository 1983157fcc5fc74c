import TensorNest.Expr.Build
import TensorNest.Expr.Visit

/-!
# Operations

An operation produces tensors: a placeholder stands for an input, a compute operation defines its
outputs element by element. The operations form a graph, since the bodies of compute operations read
the outputs of earlier operations. Each operation has the number at which it was added to the graph.
-/

namespace TensorNest

/-- What an operation produces. -/
inductive Definition where
  | placeholder (shape : List Expr) (dtype : DataType)
  | compute (axes : List IterVar) (body : List Expr)
  deriving Inhabited

/-- An operation. Its attributes are named by the numbers under which they are kept. -/
structure Operation where
  idx : Nat
  name : String
  tag : String
  attrs : List (String × Nat)
  definition : Definition
  deriving Inhabited

/-- The operations made so far, each at its number, and the next number for variables and other things
    that are told apart by a number. An operation that could not be completed leaves its number unused. -/
structure Graph where
  ops : Array (Option Operation) := #[]
  next : Nat := 1
  deriving Inhabited

/-- A computation that makes variables and operations and can fail. What it made before it failed
    stays. -/
abbrev Build := ExceptT Error (StateM Graph)

/-- A number that nothing else has. -/
def freshNumber : Build Nat := do
  let g ← get
  set { g with next := g.next + 1 }
  return g.next

/-- A variable that differs from all others. -/
def freshVar (name : String) (dtype : DataType := .int32) : Build Var := do
  return ⟨← freshNumber, name, dtype⟩

/-- A number that tells an allocation from all others. -/
def freshSite : Build Nat :=
  freshNumber

/-- A literal of a floating-point number. Those that are no numbers differ from each other. -/
def floatLiteral (s : String) : Build Number := do
  let x ← Number.readFloat s
  if Binary.isNaN x then return .unknown (← freshNumber)
  return .float x

namespace Operation

/-- The data parallel axes. -/
def axes (o : Operation) : List IterVar :=
  match o.definition with
  | .placeholder .. => []
  | .compute axes _ => axes

/-- The defining expressions, one for each output. -/
def body (o : Operation) : List Expr :=
  match o.definition with
  | .placeholder .. => []
  | .compute _ body => body

/-- The axes reduced over, read off the first output. -/
def reduceAxes (o : Operation) : List IterVar :=
  match o.body with
  | .reduce _ _ axes _ _ :: _ => axes
  | _ => []

/-- The data parallel axes followed by those reduced over. -/
def rootAxes (o : Operation) : List IterVar :=
  o.axes ++ o.reduceAxes

def isCompute (o : Operation) : Bool :=
  match o.definition with
  | .placeholder .. => false
  | .compute .. => true

def numOutputs (o : Operation) : Nat :=
  match o.definition with
  | .placeholder .. => 1
  | .compute _ body => body.length

/-- The reference by which expressions name an operation. -/
def ref (o : Operation) : OpRef :=
  ⟨o.idx, o.name, o.isCompute, o.numOutputs⟩

def shape (o : Operation) : List Expr :=
  match o.definition with
  | .placeholder shape _ => shape
  | .compute axes _ => axes.filterMap (·.extent?)

/-- The type of an output. -/
def outputType (o : Operation) (i : Nat) : DataType :=
  match o.definition with
  | .placeholder _ dtype => dtype
  | .compute _ body => ((body[i]?).map (·.dtype)).getD .float32

/-- Whether the operation is a reduction. -/
def isReduction (o : Operation) : Bool :=
  match o.body with
  | .reduce .. :: _ => true
  | _ => false

end Operation

/-- An output of an operation, by reference. -/
structure TensorRef where
  op : OpRef
  index : Nat
  deriving DecidableEq, Repr, Inhabited

namespace TensorRef

def name (t : TensorRef) : String := t.op.outputName t.index

/-- The reference to an output, which has to be one. -/
def of (r : OpRef) (i : Int) : Except Error TensorRef :=
  if 0 ≤ i && i < r.numOutputs then .ok ⟨r, i.toNat⟩
  else .error (.assertion s!"output index {i} out of range for {r.name}")

/-- Whether two references name the same output of the same operation. -/
def same (s t : TensorRef) : Bool :=
  s.op.idx == t.op.idx && s.index == t.index

end TensorRef

/-- The tensors that expressions read, in the order of the first read. -/
def tensorsRead (es : List Expr) : Except Error (List TensorRef) :=
  (es.flatMap (·.tensorReads)).foldlM (fun found (op, i, _) => do
    let t ← TensorRef.of op i
    return if found.any (·.same t) then found else found ++ [t]) []

/-- The tensors that an operation reads. -/
def Operation.inputs (o : Operation) : Except Error (List TensorRef) :=
  tensorsRead o.body

namespace Graph

/-- The operation of a number. -/
def op? (g : Graph) (idx : Nat) : Option Operation :=
  (g.ops[idx]?).join

end Graph

/-- The name of the operation of a number. -/
def nameOfOperation (i : Int) : Build String := do
  let g : Graph ← get
  match if 0 ≤ i then g.op? i.toNat else none with
  | some o => return o.name
  | none => throw (.missingKey (toString i))

/-- The operation that a reference names. -/
def operationOf (r : OpRef) : Build Operation := do
  match (← get).op? r.idx with
  | some o => return o
  | none => throw (.missingKey (toString r.idx))

/-- Adds an operation to the graph. Its number is taken also if its definition fails. -/
def addOperation (name tag : String) (attrs : List (String × Nat))
    (definition : Except Error Definition) : Build Operation := do
  let g ← get
  let idx := g.ops.size
  match definition with
  | .ok d =>
    let o : Operation := ⟨idx, name, tag, attrs, d⟩
    set { g with ops := g.ops.push (some o) }
    return o
  | .error e =>
    set { g with ops := g.ops.push none }
    throw e

/-- Adds a compute operation to the graph; it needs at least one output. -/
def addCompute (name tag : String) (attrs : List (String × Nat)) (axes : List IterVar)
    (body : List Expr) : Build Operation :=
  addOperation name tag attrs <|
    if body.isEmpty then .error (.assertion s!"no body in compute {name}")
    else .ok (.compute axes body)

/-- Adds a copy of a compute operation with another body. -/
def Operation.withBody (o : Operation) (body : List Expr) : Build Operation :=
  addCompute o.name o.tag o.attrs o.axes body

end TensorNest
