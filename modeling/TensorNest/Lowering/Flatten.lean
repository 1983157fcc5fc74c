import TensorNest.Buffer
import TensorNest.Graph.Tensor
import TensorNest.Stmt.Rebuild

/-!
# Flat memory

Reads and writes of tensors become loads and stores of flat buffers. A tensor that is an argument
uses the buffer bound to it. Any other tensor gets a compact buffer over the region that is realized,
allocated where it is realized, in the storage scope asked for.
-/

namespace TensorNest

/-- The buffer of a tensor, and the indices at which its region starts, none if at zero. -/
structure FlatEntry where
  buffer : Buffer
  mins : List Expr

/-- What is known while a statement is flattened: the buffers of tensors, by operation and output,
    and the storage scopes asked for, by operation. The first entry counts. -/
structure FlatState where
  entries : List ((Nat × Int) × FlatEntry) := []
  scopes : List (Nat × String) := []

/-- The buffers of argument tensors. -/
abbrev TensorBuffers := List (TensorRef × Buffer)

/-- The buffer of an argument tensor. -/
def TensorBuffers.find? (bs : TensorBuffers) (t : TensorRef) : Option Buffer :=
  (List.find? (·.1.same t) bs).map (·.2)

namespace FlatEntry

/-- Indices relative to the start of the region. -/
def relative (e : FlatEntry) (args : List Expr) : Except Error (List Operand) :=
  if e.mins.isEmpty then .ok (args.map .expr)
  else (args.zip e.mins).mapM fun ((a, lo) : Expr × Expr) => Operand.expr <$> Expr.sub a lo

end FlatEntry

/-- Flattening changes the buffers known and can make variables and fail. -/
abbrev Flatten := StateT FlatState Build

namespace FlatState

/-- The buffer that an output of an operation has to have. -/
def entry (s : FlatState) (op : OpRef) (output : Int) : Except Error FlatEntry :=
  match s.entries.find? (·.1 == (op.idx, output)) with
  | some (_, e) => .ok e
  | none => .error (.outsideRealize op.name)

def setEntry (s : FlatState) (op : OpRef) (output : Int) (e : FlatEntry) : FlatState :=
  { s with entries := ((op.idx, output), e) :: s.entries }

def setScope (s : FlatState) (op : OpRef) (scope : String) : FlatState :=
  { s with scopes := (op.idx, scope) :: s.scopes }

def scopeOf (s : FlatState) (op : OpRef) : String :=
  ((s.scopes.find? (·.1 == op.idx)).map (·.2)).getD ""

end FlatState

/-- Loads in place of the tensor reads in an expression. -/
def Expr.flatten (s : FlatState) (e : Expr) : Except Error Expr :=
  e.rebuildM fun
    | .call t _ args .tensorRead (some f) index => do
      let entry ← s.entry f index.toInt
      entry.buffer.load (← entry.relative args) (.exact t)
    | e => .ok e

/-- Loads in place of the tensor reads in an expression of the statement at hand. -/
def flattenExpr (e : Expr) : Flatten Expr := do
  let s ← get
  liftM (e.flatten s)

namespace Stmt

/-- The storage scope that a constant or a text names; zero names none. -/
def scopeText : Expr → String
  | .const v _ => if v.truthy then v.text else ""
  | e => e.literalText

/-- The indices that a prefetch touches, one in each cache line of the last dimension. -/
def prefetchIndices (lanes : Int) (bounds : List Range) (vars : List Var) :
    Except Error (List Expr) :=
  (bounds.zip vars).zipIdx.mapM fun ((r, v), dim) => do
    if dim + 1 = bounds.length then
      Expr.add r.min (← Expr.mul (.var v : Expr) lanes)
    else Expr.add r.min (.var v : Expr)

/-- The loops over the cache lines of a region. -/
def prefetchLoops (lanes : Int) (bounds : List Range) (vars : List Var) (body : Stmt) :
    Except Error Stmt :=
  (bounds.zip vars).zipIdx.foldrM (fun ((r, v), dim) s => do
    let extent ← if dim + 1 = bounds.length then Expr.ceilDiv r.extent lanes else pure r.extent
    return .loop v (Expr.int32 0) extent .serial s) body

/-- The elements of a type in a cache line. -/
def lineLanes (line : Int) (t : DataType) : Int :=
  max 1 (Int.fdiv line t.bytes)

/-- A prefetch of each cache line of a region of a buffer. -/
def flattenPrefetch (entry : FlatEntry) (line : Int) (t : DataType) (bounds : List Range) :
    Build Stmt := do
  let b := entry.buffer
  let lanes := lineLanes line t
  let vars ← (List.range bounds.length).mapM fun i =>
    freshVar ("prefetch." ++ b.name ++ "." ++ toString i)
  let indices ← prefetchIndices lanes bounds vars
  let offset ← b.offsetOf (← entry.relative indices)
  let start ← Expr.sub offset b.elemOffset
  let ptr ← b.accessPtr 1 start
  let call := Expr.intrinsic .int32 "prefetch" [ptr, Expr.int32 0, Expr.int32 3, Expr.int32 1]
  prefetchLoops lanes bounds vars (.eval call)

/-- The buffer over a realized region. -/
def regionBuffer (op : OpRef) (output : Int) (t : DataType) (bounds : List Range) (scope : String) :
    Build Buffer := do
  let name := op.outputName output
  let data ← freshVar name .handle
  Buffer.declare (bounds.map fun r => .expr r.extent)
    { dtype := .exact t, name, data := some data, scope }

/-- Flattens a statement, given the buffers of arguments and the size of a cache line. -/
def flattenWith (args : TensorBuffers) (line : Int) : Stmt → Flatten Stmt
  | bind v value body => do
    let value ← flattenExpr value
    return bind v value (← body.flattenWith args line)
  | attr subject key value body => do
    match key, subject with
    | "realize_scope", .op r =>
      modify (·.setScope r (scopeText value))
      body.flattenWith args line
    | "double_buffer_scope", .op r =>
      let entry ← (← get).entry r 0
      return attr (.var entry.buffer.data) key value (← body.flattenWith args line)
    | _, _ =>
      let value ← flattenExpr value
      return attr subject key value (← body.flattenWith args line)
  | assert cond message body => do
    let cond ← flattenExpr cond
    let message ← flattenExpr message
    return assert cond message (← body.flattenWith args line)
  | loop v min extent kind body => do
    let min ← flattenExpr min
    let extent ← flattenExpr extent
    return loop v min extent kind (← body.flattenWith args line)
  | store buffer value index pred => do
    let buffer ← flattenExpr buffer
    let value ← flattenExpr value
    let index ← flattenExpr index
    return store buffer value index (← mapGuardM flattenExpr pred)
  | provide op output value indices => do
    let entry ← (← get).entry op output
    let value ← flattenExpr value
    let indices ← indices.mapM flattenExpr
    liftM (do entry.buffer.store (← entry.relative indices) (.expr value) : Except Error Stmt)
  | allocate site buffer dtype extents cond body => do
    let extents ← extents.mapM flattenExpr
    let cond ← flattenExpr cond
    return allocate site buffer dtype extents cond (← body.flattenWith args line)
  | realize op output dtype bounds cond body => do
    let t ← TensorRef.of op output
    match args.find? t with
    | some b =>
      modify (·.setEntry op output ⟨b, []⟩)
      body.flattenWith args line
    | none =>
      let scope := (← get).scopeOf op
      let b ← regionBuffer op output dtype bounds scope
      modify (·.setEntry op output ⟨b, bounds.map (·.min)⟩)
      let body ← body.flattenWith args line
      return attr (.var b.data) "storage_scope" (.str (if scope.isEmpty then "global" else scope))
        (allocate b.data.id b.data dtype (bounds.map (·.extent)) cond body)
  | prefetch op output dtype bounds => do
    let entry ← (← get).entry op output
    flattenPrefetch entry line dtype bounds
  | seq ss => do return seq (← onList args line ss)
  | branch cond onTrue none => do
    let cond ← flattenExpr cond
    return branch cond (← onTrue.flattenWith args line) none
  | branch cond onTrue (some onFalse) => do
    let cond ← flattenExpr cond
    let onTrue ← onTrue.flattenWith args line
    return branch cond onTrue (some (← onFalse.flattenWith args line))
  | eval e => do return eval (← flattenExpr e)
where
  /-- Flattens several statements. -/
  onList (args : TensorBuffers) (line : Int) : List Stmt → Flatten (List Stmt)
    | [] => return []
    | s :: ss => do
      let s ← s.flattenWith args line
      return s :: (← onList args line ss)

/-- The buffers known at the start: those of the arguments. -/
def flatStart (args : TensorBuffers) : FlatState where
  entries := args.map fun (t, b) => ((t.op.idx, (t.index : Int)), ⟨b, []⟩)

/-- Flattens a statement, given the buffers of arguments and the size of a cache line. -/
def flatten (args : TensorBuffers) (line : Int) (s : Stmt) : Build Stmt := do
  return (← (s.flattenWith args line).run (flatStart args)).1

end Stmt

end TensorNest
