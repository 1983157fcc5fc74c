import TensorNest.Expr.Same
import TensorNest.Expr.Simplify
import TensorNest.Graph.Basic
import TensorNest.Lowering.Barrier
import TensorNest.Stmt.Rebuild

/-!
# Calls of the host

On the host, large allocations of global memory use the workspace of the device, and the launch of a
device function becomes a call of a function that is looked up first. Looked up functions are kept in
variables, so that each is looked up once.
-/

namespace TensorNest

/-- The greatest number of bytes of an allocation on the stack. -/
def maxStackBytes : Int := 1024

namespace Expr

/-- The call of a looked up function in place of a launch. -/
def lowerLaunch : Expr → Expr
  | e@(.call t _ (name :: args) _ _ _) =>
    if e.isIntrinsic "xte_call_device" then
      let func := intrinsic .handle "xte_thread_context"
        [intrinsic .handle "xte_get_func_from_env" [name]]
      intrinsic t "xte_call_packed_lowered" (func :: args)
    else e
  | e => e

/-- The calls of looked up functions in place of all launches in an expression. -/
def lowerLaunches (e : Expr) : Expr :=
  Id.run (e.rebuildM fun e => pure (lowerLaunch e))

end Expr

/-- The type of the device that allocations are made on, and the storage scopes met so far. -/
structure HostContext where
  deviceType : Expr := Expr.int32 1
  scopes : StorageScopes := []

/-- Lowering for the host notes storage scopes and can fail. -/
abbrev HostLowering := StateT HostContext (Except Error)

namespace Stmt

/-- The number of bytes of an allocation. -/
def allocationBytes (dtype : DataType) (extents : List Expr) : Except Error Expr := do
  let start ← Expr.ofInt (dtype.bytes * dtype.lanes) .int32
  let bytes ← extents.foldlM (fun (n e : Expr) => Expr.mul n e) start
  bytes.simplify

/-- An allocation in the workspace of the device, freed after the body. -/
def workspace (deviceType : Expr) (buffer : Var) (dtype : DataType) (bytes : Expr) (body : Stmt) :
    Except Error Stmt := do
  let bytes ← Expr.castTo ⟨.int, 64, 1⟩ bytes
  let code ← Expr.ofInt dtype.code.toNat .int32
  let bits ← Expr.ofInt dtype.bits .int32
  let alloc := Expr.intrinsic .handle "xte_alloc_workspace" [deviceType, bytes, code, bits]
  let free := Expr.intrinsic .int32 "xte_free_workspace" [deviceType, .var buffer]
  return bind buffer alloc (ofList [body, eval free])

/-- An allocation around a body that is done: on the stack if it is small or not global. -/
def hostAllocate (c : HostContext) (site : Nat) (buffer : Var) (dtype : DataType) (extents : List Expr)
    (cond : Expr) (body : Stmt) : Except Error Stmt := do
  let kept := allocate site buffer dtype extents cond body
  if !c.scopes.isIn (.text "global") buffer && !c.scopes.isIn (.text "") buffer then return kept
  let bytes ← allocationBytes dtype extents
  match bytes.constInt? with
  | some n => if n ≤ maxStackBytes then return kept else workspace c.deviceType buffer dtype bytes body
  | none => workspace c.deviceType buffer dtype bytes body

/-- Lowers the allocations and launches in a statement. The extents of an allocation are left as they
    are. -/
def lowerHost : Stmt → HostLowering Stmt
  | bind v value body => do return bind v value.lowerLaunches (← body.lowerHost)
  | attr subject key value body => do
    let c ← get
    if key == "device_type" then
      set { c with deviceType := value }
      let body ← body.lowerHost
      modify fun c' => { c' with deviceType := c.deviceType }
      return attr subject key value.lowerLaunches body
    set { c with scopes := c.scopes.note subject key value }
    return attr subject key value.lowerLaunches (← body.lowerHost)
  | assert cond message body => do
    return assert cond.lowerLaunches message.lowerLaunches (← body.lowerHost)
  | loop v min extent kind body => do
    return loop v min.lowerLaunches extent.lowerLaunches kind (← body.lowerHost)
  | allocate site buffer dtype extents cond body => do
    let body ← body.lowerHost
    hostAllocate (← get) site buffer dtype extents cond body
  | realize op output dtype bounds cond body => do
    let bounds := bounds.map fun r => ⟨r.min.lowerLaunches, r.extent.lowerLaunches⟩
    return realize op output dtype bounds cond.lowerLaunches (← body.lowerHost)
  | seq ss => do return seq (← onList ss)
  | branch cond onTrue none => do return branch cond.lowerLaunches (← onTrue.lowerHost) none
  | branch cond onTrue (some onFalse) => do
    let onTrue ← onTrue.lowerHost
    return branch cond.lowerLaunches onTrue (some (← onFalse.lowerHost))
  | s => return s.mapExprs Expr.lowerLaunches
where
  /-- Lowers the allocations and launches in several statements. -/
  onList : List Stmt → HostLowering (List Stmt)
    | [] => return []
    | s :: ss => do
      let s ← s.lowerHost
      return s :: (← onList ss)

end Stmt

/-- The contexts met so far: the variable that holds each and the call that gives it. -/
abbrev ContextCache := List (Var × Expr)

namespace ContextCache

/-- The variable of a context with the same arguments. -/
def find? (cache : ContextCache) (args : List Expr) : Option Var :=
  (List.find? (fun
    | (_, .call _ _ as _ _ _) => Matching.identity.exprs as args
    | _ => false) cache).map (·.1)

end ContextCache

/-- Puts the variable that holds a context for the call that gives it. -/
def Expr.combineContext : Expr → StateT ContextCache Build Expr
  | e@(.call _ _ args _ _ _) => do
    if !e.isIntrinsic "xte_thread_context" then return e
    let cache ← get
    match cache.find? args with
    | some v => return .var v
    | none =>
      let v ← freshVar s!"ctx_cache_{cache.length}" .handle
      set (cache ++ [(v, e)] : ContextCache)
      return .var v
  | e => return e

namespace Func

/-- States the type of the device that a function works with. -/
def bindDevice (deviceType : Int) (f : Func) : Except Error Func := do
  let value ← Expr.ofInt deviceType .int32
  return { f with body := .attr (.other (.expr (.str f.name))) "device_type" value f.body }

/-- Lowers the allocations and launches of a function. -/
def lowerHost (f : Func) : Except Error Func := do
  let (body, _) ← f.body.lowerHost.run {}
  return { f with body }

/-- Gets every context that a function uses once, at its start. -/
def combineContexts (f : Func) : Build Func := do
  let (body, cache) ← (f.body.mapExprsM fun e => e.rebuildM Expr.combineContext).run []
  return { f with body := cache.foldr (fun (v, call) s => .bind v call s) body }

end Func

end TensorNest
