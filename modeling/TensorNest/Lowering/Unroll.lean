import TensorNest.Expr.Build
import TensorNest.Revised
import TensorNest.Setting
import TensorNest.Stmt.Rebuild

/-!
# Unrolled loops

Loops marked unrolled, and innermost serial loops of constant extent that are small enough, are
replaced by one copy of their body for each iteration, or only marked if that is asked for. A sequence
in which nothing changes is kept as it is.
-/

namespace TensorNest

/-- What limits unrolling: the number of steps, the depth of nesting and the extent up to which loops
    are unrolled, and whether copies are made. -/
structure UnrollLimits where
  maxStep : Setting := (0 : Int)
  maxDepth : Setting := (8 : Int)
  maxExtent : Setting := (0 : Int)
  explicit : Setting := true

/-- What has been counted inside a loop: steps, nested unrolled loops and nested other loops. -/
structure UnrollCount where
  steps : Int := 0
  unrolled : Int := 0
  normal : Int := 0
  deriving Inhabited

/-- Unrolling counts and can fail. -/
abbrev Unroll := StateT UnrollCount (Except Error)

namespace Stmt

/-- The body of a loop once for each iteration. -/
def copies (v : Var) (min : Expr) (n : Nat) (body : Stmt) : Except Error Stmt := do
  let steps ← (List.range n).mapM fun (i : Nat) => do
    let value ← Expr.add min (← Expr.ofInt i v.dtype)
    return body.subst [(v, value)]
  return ofList steps

/-- Whether a serial loop of an extent is unrolled without being marked. -/
def autoUnrolls (limits : UnrollLimits) (c : UnrollCount) (extent : Int) : Except Error Bool := do
  if extent < 0 || c.normal != 0 then return false
  if !(← limits.maxDepth.allows c.unrolled) then return false
  if ← limits.maxStep.allows (extent * c.steps) then return true
  limits.maxExtent.allows extent

/-- Whether a loop of an extent is replaced by copies only because of its extent. -/
def copiesSingle (limits : UnrollLimits) (extent : Int) : Except Error Bool := do
  if extent < 0 then return false
  return (← limits.maxExtent.allows extent) && limits.maxExtent.isNumber 1

/-- Unrolls a loop whose body is done. -/
def unrollLoop (limits : UnrollLimits) (v : Var) (min extent : Expr) (kind : LoopKind)
    (body : Revised Stmt) : Unroll (Revised Stmt) := do
  let c ← get
  let n := extent.constInt?.getD (-1)
  if kind = .unrolled && n < 0 then throw (.unrollSymbolic v.name)
  let unrolls ← if kind = .serial then liftM (autoUnrolls limits c n) else pure (kind = .unrolled : Bool)
  set (if unrolls then { c with steps := c.steps * n, unrolled := c.unrolled + 1 }
    else { c with normal := c.normal + 1 })
  let copied ← if unrolls && limits.explicit.truthy then pure true else liftM (copiesSingle limits n)
  if copied then
    return ⟨← copies v min n.toNat body.term, true⟩
  else if unrolls && kind != .unrolled then
    return ⟨loop v min extent .unrolled body.term, true⟩
  else return ⟨loop v min extent kind body.term, body.changed⟩

/-- The counts of a sequence whose items were counted apart. -/
def UnrollCount.join (before after : UnrollCount) : UnrollCount where
  steps := after.steps + before.steps
  unrolled := max after.unrolled before.unrolled
  normal := max after.normal before.normal

/-- Unrolls loops, and tells whether anything changed. -/
def unrolled (limits : UnrollLimits) : Stmt → Unroll (Revised Stmt)
  | bind v value body => do
    let b ← body.unrolled limits
    return ⟨bind v value b.term, b.changed⟩
  | attr subject key value body => do
    let b ← body.unrolled limits
    return ⟨attr subject key value b.term, b.changed⟩
  | assert cond message body => do
    let b ← body.unrolled limits
    return ⟨assert cond message b.term, b.changed⟩
  | loop v min extent kind body => do
    let b ← body.unrolled limits
    unrollLoop limits v min extent kind b
  | store buffer value index pred => do
    modify fun c => { c with steps := c.steps + 1 }
    return ⟨store buffer value index pred, false⟩
  | allocate site buffer dtype extents cond body => do
    let b ← body.unrolled limits
    return ⟨allocate site buffer dtype extents cond b.term, b.changed⟩
  | realize op output dtype bounds cond body => do
    let b ← body.unrolled limits
    return ⟨realize op output dtype bounds cond b.term, b.changed⟩
  | seq [] => throw .invalidOperand
  | seq (s :: ss) => do
    let first ← s.unrolled limits
    let rest ← onRest limits ss
    let all := first :: rest
    if all.any (·.changed) then return ⟨ofList (all.map (·.term)), true⟩
    return ⟨seq (s :: ss), false⟩
  | branch cond onTrue none => do
    let t ← onTrue.unrolled limits
    return ⟨branch cond t.term none, t.changed⟩
  | branch cond onTrue (some onFalse) => do
    let t ← onTrue.unrolled limits
    let f ← onFalse.unrolled limits
    return ⟨branch cond t.term (some f.term), t.changed || f.changed⟩
  | eval e => do
    modify fun c => { c with steps := c.steps + 1 }
    return ⟨eval e, false⟩
  | s => return ⟨s, false⟩
where
  /-- Unrolls the loops of the later items of a sequence, each counted apart. -/
  onRest (limits : UnrollLimits) : List Stmt → Unroll (List (Revised Stmt))
    | [] => return []
    | s :: ss => do
      let before ← get
      set ({} : UnrollCount)
      let x ← s.unrolled limits
      modify (UnrollCount.join before)
      return x :: (← onRest limits ss)

/-- Unrolls loops. -/
def unroll (limits : UnrollLimits) (s : Stmt) : Except Error Stmt := do
  let (u, _) ← (s.unrolled limits).run {}
  return u.term

end Stmt

end TensorNest
