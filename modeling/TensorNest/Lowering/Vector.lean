import TensorNest.Expr.Build
import TensorNest.Revised
import TensorNest.Stmt.Rebuild

/-!
# Vectors and virtual threads

A loop marked vectorized, of a constant extent above one, is replaced by its body in which the loop
variable is a ramp; loads, stores and operations then work on all lanes at once. A loop whose body
can not be written with vectors is kept as a serial loop. Virtual threads run one after the other.
-/

namespace TensorNest

/-- Why a body is not widened: it can not be written with vectors, or widening it fails. -/
inductive Obstacle where
  | scalar
  | error (e : Error)

/-- A loop variable and the ramp of its values on the lanes. -/
structure Lanes where
  var : Var
  ramp : Expr

/-- A step of widening. -/
abbrev Widen := Except Obstacle

/-- A step that can fail, as a step of widening. -/
def widening {α : Type} (x : Except Error α) : Widen α :=
  x.mapError .error

namespace Expr

/-- An expression of as many lanes; a scalar is repeated. -/
def toLanes (lanes : Int) (e : Expr) : Except Error Expr :=
  if e.dtype.lanes = lanes then .ok e
  else if e.dtype.lanes = 1 then .ok (.broadcast e lanes)
  else .error (.assertion s!"can not widen {e.dtype} to {lanes} lanes")

/-- The greatest number of lanes of expressions. -/
def maxLanes (es : List Expr) : Int :=
  es.tail.foldl (fun n e => max n e.dtype.lanes) ((es.headD default).dtype.lanes)

/-- A call with widened arguments: only pure calls can be widened. -/
def widenCall (t : DataType) (name : String) (args : List Expr) (kind : CallKind)
    (func : Option OpRef) (index : Ordinal) : Widen Expr := do
  if kind != .pureIntrinsic && kind != .pureExternal then throw .scalar
  let lanes := maxLanes args
  return call (t.withLanes lanes) name (← args.mapM fun a => widening (a.toLanes lanes)) kind func
    index

/-- Widens an expression, a variable taking the values of a ramp on the lanes. -/
def widen (l : Lanes) : Expr → Widen (Revised Expr)
  | var w => return if w.id == l.var.id then ⟨l.ramp, true⟩ else .kept (var w)
  | const x t => return .kept (const x t)
  | str s => return .kept (str s)
  | cast t a => do
    let x ← a.widen l
    if !x.changed then return .kept (cast t a)
    return ⟨cast (t.withLanes x.term.dtype.lanes) x.term, true⟩
  | bin op a b => do
    let x ← a.widen l
    let y ← b.widen l
    if !x.changed && !y.changed then return .kept (bin op a b)
    return ⟨← widening (binary op x.term y.term), true⟩
  | not a => do
    let x ← a.widen l
    return ⟨not x.term, x.changed⟩
  | select c t f => do
    let x ← c.widen l
    let y ← t.widen l
    let z ← f.widen l
    if !x.changed && !y.changed && !z.changed then return .kept (select c t f)
    let lanes := maxLanes [x.term, y.term, z.term]
    let c ← widening (x.term.toLanes lanes)
    let t ← widening (y.term.toLanes lanes)
    return ⟨select c t (← widening (z.term.toLanes lanes)), true⟩
  | call t name args kind func index => do
    let (es, changed) ← onList args
    if !changed then return .kept (call t name args kind func index)
    return ⟨← widenCall t name es kind func index, true⟩
  | bind w value body => do
    let x ← value.widen l
    if x.term.dtype.lanes != 1 then throw .scalar
    let y ← body.widen l
    return ⟨bind w x.term y.term, x.changed || y.changed⟩
  | load t buffer index pred => do
    let x ← index.widen l
    if !x.changed then return .kept (load t buffer index pred)
    return ⟨load (t.withLanes x.term.dtype.lanes) buffer x.term pred, true⟩
  | ramp base stride lanes => do
    let x ← base.widen l
    let y ← stride.widen l
    return ⟨ramp x.term y.term lanes, x.changed || y.changed⟩
  | broadcast a lanes => do
    let x ← a.widen l
    return ⟨broadcast x.term lanes, x.changed⟩
  | reduce combiner sources axes cond index => do
    let (_, changed) ← onList sources
    let c ← onOption cond
    if changed || c then throw .scalar
    return .kept (reduce combiner sources axes cond index)
where
  /-- Widens expressions, left to right, and tells whether one depends on the lane. -/
  onList : List Expr → Widen (List Expr × Bool)
    | [] => return ([], false)
    | e :: es => do
      let x ← e.widen l
      let (xs, changed) ← onList es
      return (x.term :: xs, x.changed || changed)
  /-- Whether an expression that may be missing depends on the lane. -/
  onOption : Option Expr → Widen Bool
    | none => return false
    | some e => do return (← e.widen l).changed

end Expr

namespace Stmt

/-- Widens the indices and values of a statement; loops, conditions, bindings and allocations must
    not depend on the lane. -/
def widen (l : Lanes) : Stmt → Widen (Revised Stmt)
  | bind w value body => do
    let x ← value.widen l
    let y ← body.widen l
    scalarOnly (x.changed || y.changed) (bind w value body)
  | attr subject key value body => do
    let x ← value.widen l
    let y ← body.widen l
    scalarOnly (x.changed || y.changed) (attr subject key value body)
  | assert cond message body => do
    let x ← cond.widen l
    let y ← message.widen l
    let z ← body.widen l
    scalarOnly (x.changed || y.changed || z.changed) (assert cond message body)
  | loop w min extent kind body => do
    let x ← min.widen l
    let y ← extent.widen l
    let z ← body.widen l
    scalarOnly (x.changed || y.changed || z.changed) (loop w min extent kind body)
  | store buffer value index pred => do
    let x ← value.widen l
    let y ← index.widen l
    if !x.changed && !y.changed then return .kept (store buffer value index pred)
    if y.term.dtype.lanes = 1 then throw .scalar
    return ⟨store buffer (← widening (x.term.toLanes y.term.dtype.lanes)) y.term pred, true⟩
  | provide op output value args => do
    let x ← value.widen l
    let (es, changed) ← Expr.widen.onList l args
    return ⟨provide op output x.term es, x.changed || changed⟩
  | allocate site buffer dtype extents cond body => do
    let (_, x) ← Expr.widen.onList l extents
    let y ← cond.widen l
    let z ← body.widen l
    scalarOnly (x || y.changed || z.changed) (allocate site buffer dtype extents cond body)
  | realize op output dtype bounds cond body => do
    let rs ← bounds.mapM (widenRange l)
    let y ← cond.widen l
    let z ← body.widen l
    return ⟨realize op output dtype (rs.map (·.term)) y.term z.term,
      rs.any (·.changed) || y.changed || z.changed⟩
  | prefetch op output dtype bounds => do
    let rs ← bounds.mapM (widenRange l)
    return ⟨prefetch op output dtype (rs.map (·.term)), rs.any (·.changed)⟩
  | seq ss => do
    let (ts, changed) ← onList ss
    return ⟨seq ts, changed⟩
  | branch cond onTrue none => do
    let x ← cond.widen l
    let y ← onTrue.widen l
    scalarOnly (x.changed || y.changed) (branch cond onTrue none)
  | branch cond onTrue (some onFalse) => do
    let x ← cond.widen l
    let y ← onTrue.widen l
    let z ← onFalse.widen l
    scalarOnly (x.changed || y.changed || z.changed) (branch cond onTrue (some onFalse))
  | eval e => do
    let x ← e.widen l
    scalarOnly x.changed (eval e)
where
  /-- A statement that must not depend on the lane. -/
  scalarOnly (changed : Bool) (s : Stmt) : Widen (Revised Stmt) :=
    if changed then throw .scalar else return .kept s
  /-- Widens a range. -/
  widenRange (l : Lanes) (r : Range) : Widen (Revised Range) := do
    let x ← r.min.widen l
    let y ← r.extent.widen l
    return ⟨⟨x.term, y.term⟩, x.changed || y.changed⟩
  /-- Widens several statements, and tells whether one depends on the lane. -/
  onList : List Stmt → Widen (List Stmt × Bool)
    | [] => return ([], false)
    | s :: ss => do
      let x ← s.widen l
      let (xs, changed) ← onList ss
      return (x.term :: xs, x.changed || changed)

/-- A loop over lanes as a statement on vectors, or a serial loop if that is not possible. -/
def vectorizeLoop (v : Var) (min extent : Expr) (body : Stmt) : Except Error Stmt := do
  let serial := loop v min extent .serial body
  match extent.constInt? with
  | none => return serial
  | some lanes =>
    if lanes ≤ 1 then return serial
    let one ← Expr.ofInt 1 min.dtype
    match body.widen ⟨v, .ramp min one lanes⟩ with
    | .ok w => return w.term
    | .error .scalar => return serial
    | .error (.error e) => throw e

/-- Carries out the loops marked vectorized. -/
def vectorize (s : Stmt) : Except Error Stmt :=
  s.rebuildM pure fun
    | loop v min extent .vectorized body => vectorizeLoop v min extent body
    | s => return s

/-- Runs virtual threads one after the other. -/
def serializeThreads (s : Stmt) : Except Error Stmt :=
  s.rebuildM pure fun
    | attr (.axis iv) "virtual_thread" value body => do
      return loop iv.var (← Expr.ofInt 0 iv.dtype) value .serial body
    | s => return s

end Stmt

end TensorNest
