import TensorNest.Lowering.Access
import TensorNest.Lowering.Barrier
import TensorNest.Lowering.DoubleBuffer
import TensorNest.Lowering.HostCalls
import TensorNest.Lowering.Launch
import TensorNest.Lowering.MathCalls
import TensorNest.Lowering.Partition
import TensorNest.Lowering.Prefetch
import TensorNest.Lowering.StorageReuse
import TensorNest.Lowering.ThreadReduction
import TensorNest.Lowering.Unroll
import TensorNest.Lowering.Vector
import TensorNest.Stmt.Simplify
import TensorNest.Stmt.Tidy

/-!
# Passes

The passes of lowering by name, and how one of them is applied alone. A pass on statements can be applied
to an expression or a range too, of which most passes change nothing.
-/

namespace TensorNest

/-- A pass of lowering. -/
inductive Pass where
  | bindDeviceType
  | canonicalSimplify
  | combineContextCall
  | injectDoubleBuffer
  | injectPrefetch
  | injectVirtualThread
  | loopPartition
  | lowerBuiltin
  | lowerIntrin
  | lowerStorageAccess
  | lowerThreadReduction
  | makeApi
  | removeNoOp
  | guardSelects
  | simplify
  | splitHostDevice
  | storageFlatten
  | reuseStorage
  | threadSync
  | unroll
  | vectorize
  deriving DecidableEq, Repr, Inhabited

namespace Pass

/-- All passes with their names, sorted by name. -/
def table : List (String × Pass) := [
  ("bind_device_type", bindDeviceType),
  ("canonical_simplify", canonicalSimplify),
  ("combine_context_call", combineContextCall),
  ("inject_double_buffer", injectDoubleBuffer),
  ("inject_prefetch", injectPrefetch),
  ("inject_virtual_thread", injectVirtualThread),
  ("loop_partition", loopPartition),
  ("lower_builtin", lowerBuiltin),
  ("lower_intrin", lowerIntrin),
  ("lower_storage_access_info", lowerStorageAccess),
  ("lower_thread_allreduce", lowerThreadReduction),
  ("make_api", makeApi),
  ("remove_no_op", removeNoOp),
  ("rewrite_unsafe_select", guardSelects),
  ("simplify", simplify),
  ("split_host_device", splitHostDevice),
  ("storage_flatten", storageFlatten),
  ("storage_rewrite", reuseStorage),
  ("thread_sync", threadSync),
  ("unroll", unroll),
  ("vectorize", vectorize)]

/-- The names of all passes, sorted. -/
def names : List String := table.map (·.1)

/-- The pass of a name. -/
def ofName (name : String) : Except Error Pass :=
  match table.find? (·.1 == name) with
  | some (_, p) => .ok p
  | none => .error (.unknownPass name)

/-- What a pass is applied to and gives. -/
inductive Program where
  | expr (e : Expr)
  | range (r : Range)
  | stmt (s : Stmt)
  | func (f : Func)
  | funcs (fs : List Func)

/-- A pass on statements, with its options: whether to partition constant loops, the factor by which
    double buffered loops are split, and the limits of unrolling. -/
def onStmt? (p : Pass) (options : List Operand) : Option (Stmt → Build Stmt) :=
  let option (i : Nat) (default : Setting) : Setting := ((options[i]?).map Operand.setting).getD default
  match p with
  | injectPrefetch => some fun s => s.injectPrefetch
  | canonicalSimplify => some fun s => liftM s.canonical
  | simplify => some fun s => liftM s.simplify
  | removeNoOp => some fun s => liftM s.tidy
  | loopPartition => some fun s => s.partition (option 0 false).truthy
  | vectorize => some fun s => liftM s.vectorize
  | injectVirtualThread => some fun s => liftM s.serializeThreads
  | injectDoubleBuffer => some fun s => s.doubleBuffers (option 0 (1 : Int))
  | reuseStorage => some fun s => return s.reuseStorage
  | unroll => some fun s => liftM (s.unroll
      ⟨option 0 (0 : Int), option 1 (8 : Int), option 2 (0 : Int), option 3 true⟩)
  | lowerStorageAccess => some fun s => return s.lowerAccess
  | guardSelects => some fun s => return s.guardSelects
  | _ => none

/-- A pass on functions, with its option: the scope of barriers, the size of a warp, the type of a device
    or the name of a target. -/
def onFunc? (p : Pass) (options : List Operand) : Option (Func → Build Program) :=
  let int : Except Error Int := ((options.head?).map Operand.toInt).getD (.ok 0)
  let setting : Setting := ((options.head?).map Operand.setting).getD .nothing
  let text : Except Error String :=
    match options with
    | .text s :: _ => .ok s
    | _ => .error .invalidOperand
  match p with
  | threadSync => some fun f => return .func (f.insertBarriers setting)
  | lowerThreadReduction => some fun f => do return .func (← f.lowerReductions setting)
  | splitHostDevice => some fun f => do
    let (host, devices) ← f.splitDevice
    return .funcs (host :: devices)
  | bindDeviceType => some fun f => do return .func (← f.bindDevice (← int))
  | lowerBuiltin => some fun f => do return .func (← f.lowerHost)
  | lowerIntrin => some fun f => do return .func (← f.lowerMath (← text))
  | combineContextCall => some fun f => do return .func (← f.combineContexts)
  | _ => none

/-- What a pass on statements makes of an expression. -/
def onExpr (p : Pass) (e : Expr) : Except Error Expr :=
  match p with
  | canonicalSimplify | simplify => e.simplify
  | lowerStorageAccess => .ok (e.rebuild Expr.lowerAccess)
  | guardSelects => .ok (e.rebuild Expr.guardSelect)
  | _ => .ok e

/-- The least and the greatest number of options of a pass. -/
def optionCounts : Pass → Nat × Nat
  | loopPartition | injectDoubleBuffer => (0, 1)
  | unroll => (0, 4)
  | threadSync | lowerThreadReduction | bindDeviceType | lowerIntrin => (1, 1)
  | _ => (0, 0)

/-- Whether a pass takes a number of options. -/
def takes (p : Pass) (count : Nat) : Bool :=
  p.optionCounts.1 ≤ count && count ≤ p.optionCounts.2

/-- Applies a pass that needs nothing but its options. -/
def apply (p : Pass) (options : List Operand) (x : Program) : Build Program := do
  if !p.takes options.length then throw .invalidOperand
  match x, p.onStmt? options, p.onFunc? options with
  | .stmt s, some f, _ => .stmt <$> f s
  | .expr e, some _, _ => do return .expr (← p.onExpr e)
  | .range r, some _, _ => do return .range ⟨← p.onExpr r.min, ← p.onExpr r.extent⟩
  | .func f, _, some g => g f
  | _, _, _ => throw .invalidOperand

end Pass

end TensorNest
