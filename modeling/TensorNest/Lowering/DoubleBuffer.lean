import TensorNest.Expr.Simplify
import TensorNest.Graph.Basic
import TensorNest.Setting
import TensorNest.Stmt.Rebuild

/-!
# Double buffers

A buffer that is filled in each iteration of a loop, and for which two copies are asked for, is
allocated twice as large around the loop, and the iterations alternate between its halves. If the loop
is split by an even factor that divides its extent, each copy of the body uses a fixed half.
-/

namespace TensorNest

/-- A buffer to be doubled: its allocation, its storage scope and the depth of the loop it is
    allocated in. -/
structure Doubled where
  site : Nat
  buffer : Var
  dtype : DataType
  extents : List Expr
  cond : Expr
  scope : String := "global"
  depth : Nat

/-- The buffers to be doubled that have been met, in the order of their allocation. -/
abbrev DoubledBuffers := List Doubled

namespace DoubledBuffers

/-- Adds a buffer, in the place of an earlier allocation of it. -/
def insert (d : Doubled) : DoubledBuffers → DoubledBuffers
  | [] => [d]
  | e :: es => if e.buffer.id == d.buffer.id then d :: es else e :: insert d es

/-- Sets the storage scope of a buffer that has to be known. -/
def setScope (ds : DoubledBuffers) (v : Var) (scope : String) : Except Error DoubledBuffers :=
  if ds.any (·.buffer.id == v.id) then
    .ok (List.map (fun d => if d.buffer.id == v.id then { d with scope } else d) ds)
  else .error (.missingKey v.name)

end DoubledBuffers

/-- The number of elements of an allocation. -/
def elementCount (extents : List Expr) : Except Error Expr := do
  let one ← Expr.ofInt 1 .int32
  extents.foldlM (fun (n e : Expr) => Expr.mul n e) one

/-- Doubling changes the buffers known and can make variables and fail. -/
abbrev Doubling := StateT DoubledBuffers Build

namespace Expr

/-- Moves the loads of a buffer by an offset. -/
def shiftLoads (v : Var) (offset : Expr) (e : Expr) : Except Error Expr :=
  e.rebuildM fun
    | .load t buffer index pred => do
      if buffer.isVar v then return .load t buffer (← Expr.add index offset) pred
      else return .load t buffer index pred
    | e => return e

end Expr

namespace Stmt

/-- Moves all accesses of a buffer by an offset. -/
def shiftAccesses (v : Var) (offset : Expr) (s : Stmt) : Except Error Stmt :=
  s.rebuildM (Expr.shiftLoads v offset) fun
    | store buffer value index pred => do
      if buffer.isVar v then return store buffer value (← Expr.add index offset) pred
      else return store buffer value index pred
    | s => return s

/-- Moves the accesses of buffers to the half given by `switch`. -/
def switchHalves (ds : List Doubled) (switch : Expr) (s : Stmt) : Except Error Stmt :=
  ds.foldlM (fun s d => do
    let size ← elementCount d.extents
    s.shiftAccesses d.buffer (← Expr.mul switch size)) s

/-- A copy of the body of a loop for the iteration `outer * factor + k`, with fixed halves. -/
def switchedCopy (ds : List Doubled) (v outer : Var) (min : Expr) (factor k : Nat) (body : Stmt) :
    Except Error Stmt := do
  let position ← Expr.add (← Expr.mul (.var outer : Expr) (factor : Int)) (k : Int)
  let value ← Expr.add min position
  (body.subst [(v, value)]).switchHalves ds (Expr.int32 (k % 2 : Nat))

/-- The constant extent of a loop that is to be split and the factor to split it by, which has to be even
    and to divide the extent. -/
def splitFactor? (factor : Setting) (extent : Expr) : Except Error (Option (Int × Int)) := do
  let f ← factor.toNumber
  if f.le (.int 1) || !(← f.floorMod (.int 2)).eq (.int 0) then return none
  match extent.constInt? with
  | none => return none
  | some n =>
    if !(← (Number.int n).floorMod f).eq (.int 0) then return none
    match f.asInt? with
    | some k => return some (n, k)
    | none => throw .invalidOperand

/-- The loop around doubled buffers, split if `factor` is even and divides its extent. -/
def alternate (factor : Setting) (ds : List Doubled) (v : Var) (min extent : Expr)
    (kind : LoopKind) (body : Stmt) : Build Stmt := do
  match ← splitFactor? factor extent with
  | some (n, factor) =>
    let outer ← freshVar (v.name ++ ".outer") v.dtype
    let copies ← (List.range factor.toNat).mapM fun k =>
      liftM (switchedCopy ds v outer min factor.toNat k body)
    let zero ← Expr.ofInt 0 v.dtype
    return loop outer zero (← Expr.ofInt (n / factor) v.dtype) kind (ofList copies)
  | none =>
    let switch ← Expr.mod (← Expr.sub (.var v : Expr) min) (2 : Int)
    return loop v min extent kind (← body.switchHalves ds (← switch.simplify))

/-- The allocation of two copies of a buffer around a statement. -/
def allocateTwice (d : Doubled) (s : Stmt) : Except Error Stmt := do
  let size ← elementCount d.extents
  let twice ← (← Expr.mul size (2 : Int)).simplify
  return attr (.var d.buffer) "storage_scope" (.str d.scope)
    (allocate d.site d.buffer d.dtype [twice] d.cond s)

/-- Doubles the target buffers that are allocated in loops, `depth` counting the loops around a
    statement. -/
def doubleIn (targets : List Nat) (factor : Setting) (depth : Nat) : Stmt → Doubling Stmt
  | bind v value body => do return bind v value (← body.doubleIn targets factor depth)
  | attr subject key value body => do
    match key, subject with
    | "double_buffer_scope", _ => body.doubleIn targets factor depth
    | "storage_scope", .var v =>
      if targets.contains v.id && 0 < depth then
        let body ← body.doubleIn targets factor depth
        set (← (← get).setScope v value.literalText)
        return body
      else return attr subject key value (← body.doubleIn targets factor depth)
    | _, _ => return attr subject key value (← body.doubleIn targets factor depth)
  | assert cond message body => do
    return assert cond message (← body.doubleIn targets factor depth)
  | loop v min extent kind body => do
    let body ← body.doubleIn targets factor (depth + 1)
    let ds ← get
    match ds.filter (·.depth == depth + 1) with
    | [] => return loop v min extent kind body
    | hoisted =>
      let s ← alternate factor hoisted v min extent kind body
      set (ds.filter (·.depth != depth + 1))
      hoisted.foldlM (fun s d => liftM (allocateTwice d s)) s
  | allocate site buffer dtype extents cond body => do
    if targets.contains buffer.id && 0 < depth then
      modify (DoubledBuffers.insert { site, buffer, dtype, extents, cond, depth })
      body.doubleIn targets factor depth
    else return allocate site buffer dtype extents cond (← body.doubleIn targets factor depth)
  | realize op output dtype bounds cond body => do
    return realize op output dtype bounds cond (← body.doubleIn targets factor depth)
  | seq ss => do return seq (← onList targets factor depth ss)
  | branch cond onTrue none => do
    return branch cond (← onTrue.doubleIn targets factor depth) none
  | branch cond onTrue (some onFalse) => do
    let onTrue ← onTrue.doubleIn targets factor depth
    return branch cond onTrue (some (← onFalse.doubleIn targets factor depth))
  | s => return s
where
  /-- Doubles the target buffers in several statements. -/
  onList (targets : List Nat) (factor : Setting) (depth : Nat) : List Stmt → Doubling (List Stmt)
    | [] => return []
    | s :: ss => do
      let s ← s.doubleIn targets factor depth
      return s :: (← onList targets factor depth ss)

/-- What two copies are asked for. -/
def doubleSubjects (s : Stmt) : List Subject :=
  s.stmts.filterMap fun
    | attr subject "double_buffer_scope" _ _ => some subject
    | _ => none

/-- Doubles the buffers for which that is asked, the loops around them split by `factor`. -/
def doubleBuffers (factor : Setting) (s : Stmt) : Build Stmt := do
  match s.doubleSubjects with
  | [] => return s
  | subjects =>
    let targets := subjects.filterMap fun | .var v => some v.id | _ => none
    return (← (s.doubleIn targets factor 0).run []).1

end Stmt

end TensorNest
