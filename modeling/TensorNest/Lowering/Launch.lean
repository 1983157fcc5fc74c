import TensorNest.Expr.Simplify
import TensorNest.Func
import TensorNest.Stmt.Visit

/-!
# Device functions

The outermost thread regions of a function become functions of their own, which run on the device. Their
parameters are the variables that a region takes from outside, handles first. In place of the region
stands the launch of its function over the extents of its thread axes.
-/

namespace TensorNest

/-- The axis and the extent of each thread tag, in the order in which the tags are met. -/
abbrev LaunchAxes := List (String × IterVar × Expr)

namespace LaunchAxes

/-- Adds a thread region; the extent of a tag is the greatest one. -/
def insert (iv : IterVar) (extent : Expr) : LaunchAxes → Except Error LaunchAxes
  | [] => return [(iv.tag, iv, extent)]
  | (tag, axis, e) :: rest =>
    if tag == iv.tag then do return (tag, axis, ← Expr.maximum e extent) :: rest
    else do return (tag, axis, e) :: (← insert iv extent rest)

/-- The axes of the thread regions in a statement, inner ones first. -/
def ofStmt (s : Stmt) : Except Error LaunchAxes :=
  s.stmts.foldlM (fun axes => fun
    | .attr (.axis iv) "thread_extent" extent _ => axes.insert iv extent
    | _ => return axes) []

end LaunchAxes

namespace Func

/-- The function of a thread region, and the statement that launches it. -/
def kernel (f : Func) (n : Nat) (region : Stmt) : Except Error (Func × Stmt) := do
  let name := s!"{f.name}_kernel{n}"
  let free := region.freeVars
  let params := free.filter (·.dtype.isHandle) ++ free.filter (!·.dtype.isHandle)
  let axes ← LaunchAxes.ofStmt region
  let launch ← axes.mapM fun (_, _, extent) => extent.simplify
  let device : Func :=
    { name, body := region, kind := .device, restricted := f.restricted
      params := params.map .var
      threadAxes := axes.map (·.2.1)
      handles := f.handles.filter fun (v, _) => params.any (·.id == v.id) }
  let call := Expr.intrinsic .int32 "xte_call_device" (.str name :: params.map .var ++ launch)
  return (device, .eval call)

/-- The device functions split off so far. -/
abbrev Split := StateT (List Func) (Except Error)

/-- Splits a thread region off a function. -/
def splitRegion (f : Func) (region : Stmt) : Split Stmt := do
  let devices ← get
  let (device, launch) ← f.kernel devices.length region
  set (devices ++ [device])
  return launch

/-- Splits the outermost thread regions off a statement. -/
def splitStmt (f : Func) : Stmt → Split Stmt
  | .bind v value body => do return .bind v value (← f.splitStmt body)
  | .attr subject key value body =>
    if key == "thread_extent" then f.splitRegion (.attr subject key value body)
    else do return .attr subject key value (← f.splitStmt body)
  | .assert cond message body => do return .assert cond message (← f.splitStmt body)
  | .loop v min extent kind body => do return .loop v min extent kind (← f.splitStmt body)
  | .allocate site buffer dtype extents cond body => do
    return .allocate site buffer dtype extents cond (← f.splitStmt body)
  | .realize op output dtype bounds cond body => do
    return .realize op output dtype bounds cond (← f.splitStmt body)
  | .seq ss => do return .seq (← onList ss)
  | .branch cond onTrue none => do return .branch cond (← f.splitStmt onTrue) none
  | .branch cond onTrue (some onFalse) => do
    let onTrue ← f.splitStmt onTrue
    return .branch cond onTrue (some (← f.splitStmt onFalse))
  | s => return s
where
  /-- Splits the thread regions off several statements. -/
  onList : List Stmt → Split (List Stmt)
    | [] => return []
    | s :: ss => do
      let s ← f.splitStmt s
      return s :: (← onList ss)

/-- The host function and the device functions that a function is split into. -/
def splitDevice (f : Func) : Except Error (Func × List Func) := do
  let (body, devices) ← (f.splitStmt f.body).run []
  return ({ f with body, kind := .host }, devices)

end Func

end TensorNest
