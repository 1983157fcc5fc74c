import TensorNest.Config
import TensorNest.Lowering.Access
import TensorNest.Lowering.Convention
import TensorNest.Lowering.DoubleBuffer
import TensorNest.Lowering.Flatten
import TensorNest.Lowering.Partition
import TensorNest.Lowering.Prefetch
import TensorNest.Lowering.StorageReuse
import TensorNest.Lowering.Unroll
import TensorNest.Lowering.Vector
import TensorNest.Schedule.Nest
import TensorNest.Stmt.Simplify
import TensorNest.Stmt.Tidy

/-!
# Lowering a schedule

A schedule becomes a statement, and the statement a function, in phases of a fixed order. Each phase
takes the statement of the one before. The phases that have been completed are kept together with their
statements, also if a later one fails.
-/

namespace TensorNest

/-- A completed phase. -/
structure Phase where
  name : String
  stmt : Stmt

/-- A schedule that is being lowered, and the phases completed so far. -/
structure Lowering where
  schedule : Schedule
  phases : List Phase := []

/-- The size of a cache line in bytes. -/
def cacheLine : Int := 64

/-- The buffers of tensors, in the order in which they were bound. -/
abbrev Bindings := List (Tensor × Buffer)

namespace Bindings

/-- The buffer of a tensor. -/
def find? (bs : Bindings) (t : Tensor) : Option Buffer :=
  (List.find? (fun p => p.1.same t) bs).map (·.2)

/-- Sets the buffer of a tensor, in its place if it has one. -/
def set (t : Tensor) (b : Buffer) : Bindings → Bindings
  | [] => [(t, b)]
  | (u, c) :: bs => if u.same t then (u, b) :: bs else (u, c) :: set t b bs

/-- The buffers by reference. -/
def refs (bs : Bindings) : TensorBuffers :=
  bs.map fun (t, b) => (t.ref, b)

end Bindings

namespace Schedule

/-- The tensor that now computes a tensor; a tensor of another schedule stands for itself. -/
def scheduledTensor (s : Schedule) (t : Tensor) : Except Error Tensor :=
  if (s.find? t.op.idx).isSome then s.tensorOf t.ref else .ok t

/-- The arguments with buffers in the place of tensors, and the buffers of all bound tensors. A tensor
    without a buffer gets a compact one of its name. -/
def bindArguments (s : Schedule) (args : List Argument) (c : Config) (given : Bindings) :
    Build (List Argument × Bindings) := do
  let start ← given.foldlM (fun bs (t, b) => do return Bindings.set (← s.scheduledTensor t) b bs)
    ([] : Bindings)
  args.foldlM (fun (done, bs) a => do
    match a with
    | .tensor t =>
      let t ← s.scheduledTensor t
      match bs.find? t with
      | some b => return (done ++ [.buffer b], bs)
      | none =>
        let layout : Layout :=
          { dtype := .exact t.dtype, name := t.name, alignment := c.dataAlignment
            offsetFactor := c.offsetFactor }
        let b ← Buffer.declare (t.shape.map .expr) layout
        return (done ++ [.buffer b], Bindings.set t b bs)
    | .other x => throw (.argumentKind x.kindName x.detail?)
    | a => return (done ++ [a], bs)) ([], start)

end Schedule

namespace Lowering

/-- Runs a change of the schedule. -/
def onSchedule {α : Type} (e : Edit Schedule α) : Edit Lowering α := do
  Edit.onPart (← get).schedule (fun schedule l => { l with schedule }) e

/-- Completes a phase. -/
def complete (name : String) (stmt : Stmt) : Edit Lowering Stmt := do
  modify fun l => { l with phases := l.phases ++ [⟨name, stmt⟩] }
  return stmt

/-- How a schedule is lowered: the arguments and the name of the function, the options, the buffers of
    some tensors, and whether only the statement is wanted. -/
structure Request where
  args : List Argument
  name : String := "default_function"
  config : ConfigSpec := .unspecified
  bindings : Bindings := []
  simple : Bool := false
  deriving Inhabited

/-- The statement of a schedule over flat memory. -/
def flatStmt (bindings : Bindings) : Edit Lowering Stmt := do
  let ranges ← onSchedule Schedule.inferBounds
  let s ← complete "schedule_ops" (← onSchedule (Schedule.realize ranges))
  let s ← complete "inject_prefetch" (← s.injectPrefetch)
  complete "storage_flatten" (← s.flatten bindings.refs cacheLine)

/-- The phases that work on flat memory. -/
def optimize (c : Config) (simple : Bool) (s : Stmt) : Edit Lowering Stmt := do
  let s ← complete "canonical_simplify" (← s.canonical)
  let s ←
    if simple then pure s
    else complete "loop_partition" (← s.partition c.partitionConstLoops.truthy)
  let s ← complete "vectorize" (← s.vectorize)
  let s ← complete "inject_virtual_thread" (← s.serializeThreads)
  let s ← complete "inject_double_buffer" (← s.doubleBuffers c.doubleBufferSplit)
  let s ← complete "storage_rewrite" s.reuseStorage
  let limits : UnrollLimits :=
    ⟨c.unrollMaxStep, c.unrollMaxDepth, c.unrollMaxExtent, c.unrollExplicit⟩
  let s ← complete "unroll" (← s.unroll limits)
  let s ← complete "simplify" (← s.simplify)
  let s ← complete "lower_storage_access_info" s.lowerAccess
  let s ← complete "remove_no_op" (← s.tidy)
  complete "rewrite_unsafe_select" s.guardSelects

/-- What lowering gives: a function, or its bare statement. -/
inductive Lowered where
  | func (f : Func)
  | stmt (s : Stmt)
  deriving Inhabited

/-- Lowers a schedule. -/
def run (r : Request) : Edit Lowering Lowered := do
  let c ← r.config.resolve
  onSchedule Schedule.normalize
  let (args, bindings) ← (← get).schedule.bindArguments r.args c r.bindings
  let s ← optimize c r.simple (← flatStmt bindings)
  if r.simple then return .stmt s
  return .func (← Func.ofBody s r.name args c.restricted)

end Lowering

namespace Schedule

/-- The function of a schedule. -/
def lower (r : Lowering.Request) : Edit Schedule Lowering.Lowered := do
  Edit.onPart ({ schedule := ← get } : Lowering) (fun l _ => l.schedule) (Lowering.run r)

/-- The function of a schedule as text of its statement, without the calling convention. -/
def lowerText (args : List Argument) : Edit Schedule String := do
  match ← lower { args, simple := true } with
  | .stmt s => return s.text
  | .func f => return f.text

end Schedule

end TensorNest
