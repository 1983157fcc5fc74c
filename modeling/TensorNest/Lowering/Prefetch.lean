import TensorNest.Expr.Interval
import TensorNest.Graph.Tensor
import TensorNest.Stmt.Rebuild

/-!
# Prefetches

A request to prefetch a tensor in a loop becomes a prefetch of the region that the body of the loop
reads a number of iterations ahead.
-/

namespace TensorNest

namespace Stmt

/-- The interval that a statement binds a variable to, if it is a loop or a thread region. -/
def boundInterval? : Stmt → Except Error (Option (Var × Interval))
  | loop v min extent _ _ => do
    return some (v, .span min (← Expr.sub (← Expr.add min extent) (1 : Int)))
  | attr (.axis iv) key value _ => do
    if key != "thread_extent" && key != "virtual_thread" then return none
    return some (iv.var, .span (← Expr.ofInt 0 value.dtype) (← Expr.sub value (1 : Int)))
  | _ => return none

/-- The intervals of the variables of the loops and thread regions in a statement. -/
def innerDomains (s : Stmt) : Except Error Interval.Domains :=
  s.stmts.foldlM (fun d t => do
    match ← t.boundInterval? with
    | some (v, i) => return Interval.insert d v i
    | none => return d) []

/-- The indices at which a tensor is read in a statement. -/
def readsOf (s : Stmt) (op : OpRef) (index : Int) : List (List Expr) :=
  s.exprs.filterMap fun
    | .call _ _ args .tensorRead (some f) i =>
      if f.idx == op.idx && i.toInt == index then some args else none
    | _ => none

/-- The range that covers an index of all reads. The whole extent is taken where no bound is known. -/
def coveredRange (d : Interval.Domains) (extent : Expr) (indices : List Expr) :
    Except Error Range := do
  let intervals ← indices.mapM fun e => do
    match ← Interval.eval? e d with
    | some i => return i
    | none => return (← Expr.ofInt 0 .int32, ← Expr.sub extent (1 : Int))
  let (lo, hi) ← intervals.tail.foldlM (fun ((lo, hi) : Expr × Expr) ((l, h) : Expr × Expr) => do
    let lo ← Expr.minimum lo l
    return (lo, ← Expr.maximum hi h)) (intervals.headD default)
  let lo ← lo.simplify
  return ⟨lo, ← (← Expr.add (← Expr.sub hi lo) (1 : Int)).simplify⟩

/-- The prefetch of what a body reads of a tensor `offset` iterations of the loop over `v` ahead, none
    if it reads nothing of it. -/
def prefetchAhead (t : Tensor) (v : Var) (offset : Expr) (body : Stmt) :
    Except Error (Option Stmt) := do
  let d ← body.innerDomains
  let ahead ← Expr.add (.var v : Expr) offset
  let d := Interval.insert d v (.point ahead)
  match body.readsOf t.op.ref t.index with
  | [] => return none
  | reads =>
    let bounds ← t.shape.zipIdx.mapM fun (extent, dim) =>
      coveredRange d extent (reads.filterMap (·[dim]?))
    return some (.prefetch t.op.ref t.index t.dtype bounds)

/-- Replaces the requests to prefetch in a statement, `v` being the variable of the innermost loop
    around it. -/
def injectPrefetchIn (v : Option Var) : Stmt → Build Stmt
  | bind w value body => do return bind w value (← body.injectPrefetchIn v)
  | attr subject key value body => do
    let body ← body.injectPrefetchIn v
    if key != "prefetch_scope" then return attr subject key value body
    match v, subject with
    | none, _ => throw (.assertion "prefetch outside of a loop")
    | some v, .tensor op index =>
      let t ← tensorOf (← TensorRef.of op index)
      match ← prefetchAhead t v value body with
      | some s => return ofList [s, body]
      | none => return body
    | some v, _ =>
      let _ ← body.innerDomains
      let _ ← Expr.add (.var v : Expr) value
      return body
  | assert cond message body => do return assert cond message (← body.injectPrefetchIn v)
  | loop w min extent kind body => do
    return loop w min extent kind (← body.injectPrefetchIn (some w))
  | allocate site buffer dtype extents cond body => do
    return allocate site buffer dtype extents cond (← body.injectPrefetchIn v)
  | realize op output dtype bounds cond body => do
    return realize op output dtype bounds cond (← body.injectPrefetchIn v)
  | seq ss => do return seq (← onList v ss)
  | branch cond onTrue none => do return branch cond (← onTrue.injectPrefetchIn v) none
  | branch cond onTrue (some onFalse) => do
    let onTrue ← onTrue.injectPrefetchIn v
    return branch cond onTrue (some (← onFalse.injectPrefetchIn v))
  | s => return s
where
  /-- Replaces the requests in several statements. -/
  onList (v : Option Var) : List Stmt → Build (List Stmt)
    | [] => return []
    | s :: ss => do
      let s ← s.injectPrefetchIn v
      return s :: (← onList v ss)

/-- Replaces the requests to prefetch in a statement by prefetches. -/
def injectPrefetch (s : Stmt) : Build Stmt :=
  s.injectPrefetchIn none

end Stmt

end TensorNest
