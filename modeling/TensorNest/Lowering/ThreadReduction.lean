import TensorNest.Expr.Simplify
import TensorNest.Graph.Basic
import TensorNest.Lowering.Barrier
import TensorNest.Target

/-!
# Reductions across threads

The threads that reduce one value together hold their parts in a row of a shared buffer, one row for
each group of the other threads. The row is reduced as a tree: in each step the first half of the active
threads combine their value with the one half a row further, and a barrier ends the step. All threads
then read the result from the start of their row.
-/

namespace TensorNest

/-- A thread axis and its constant extent. -/
structure ThreadExtent where
  axis : IterVar
  extent : Int

namespace ThreadExtent

/-- The order of the axes of one kind: the first dimension is the fastest. -/
def dimension (tag : String) : Nat :=
  match String.ofList ((tag.toList.dropWhile (· != '.')).drop 1) with
  | "x" => 0
  | "y" => 1
  | "z" => 2
  | _ => 3

/-- The kind of a thread axis. -/
def family (tag : String) : String :=
  String.ofList (tag.toList.takeWhile (· != '.'))

/-- Whether an axis is not slower than another. -/
def notSlower (a b : ThreadExtent) : Bool :=
  let s := a.axis.tag
  let t := b.axis.tag
  family s < family t || (family s == family t && dimension s ≤ dimension t)

/-- The index of a thread among those of several axes, and their number. -/
def linearize (threads : List ThreadExtent) : Except Error (Expr × Int) := do
  let zero ← Expr.ofInt 0 .int32
  let (index, total) ← (threads.mergeSort notSlower).foldlM
    (fun ((index, total) : Expr × Int) t => do
      let step ← Expr.mul (.expr (.var t.axis.var)) total
      return (← Expr.add index step, total * t.extent)) (zero, 1)
  return (← index.simplify, total)

end ThreadExtent

/-- A thread region: its axis and its extent. -/
abbrev ThreadRegion := IterVar × Expr

/-- The constant extent that the axis of a reduction has to have. -/
def constExtent (name : String) (region : ThreadRegion) : Except Error ThreadExtent := do
  let extent ← region.2.simplify
  match extent.constInt? with
  | some n => return ⟨region.1, n⟩
  | none => throw (.threadExtent name region.1.tag extent.text)

/-- The axes that a reduction goes over, and the other thread axes of its block. -/
structure ReductionThreads where
  reduced : List ThreadExtent := []
  group : List ThreadExtent := []

/-- Sorts the enclosing thread regions by whether their variable is reduced over. -/
def reductionThreads (name : String) (regions : List ThreadRegion) (ids : List Nat) :
    Except Error ReductionThreads :=
  regions.foldlM (fun threads region => do
    if ids.contains region.1.id then
      return { threads with reduced := threads.reduced ++ [← constExtent name region] }
    else if region.1.tag.startsWith "threadIdx" then
      return { threads with group := threads.group ++ [← constExtent name region] }
    else return threads) {}

/-- The places of a reduction in its buffer: that of a thread, the start of its row, the index of the
    thread in the row and the length of the row. -/
structure ReductionRow where
  buffer : Expr
  dtype : DataType
  slot : Expr
  base : Expr
  index : Expr
  length : Int

namespace ReductionRow

/-- One step of the tree: the first `offset` threads combine their value with the one `offset` places
    further, where the row is that long. -/
def step (row : ReductionRow) (combiner : Reducer) (result : Expr) (offset : Int) :
    Except Error Stmt := do
  let other ← Expr.add row.slot offset
  let operands : Subst :=
    (combiner.rhs.take 1).map (fun v => (v, .load row.dtype row.buffer other none)) ++
    (combiner.lhs.take 1).map (fun v => (v, .load row.dtype row.buffer row.slot none))
  let first ← Expr.lt row.index offset
  let inside ← Expr.lt (← Expr.add row.index offset) row.length
  let active ← (← Expr.logicalAnd first inside).simplify
  return .branch active (.store row.buffer (result.subst operands) row.slot none) none

/-- The steps of the tree for rows of up to `2 ^ k` values, with a barrier after each. -/
def steps (row : ReductionRow) (combiner : Reducer) (result : Expr) (sync : Stmt) :
    Nat → Except Error (List Stmt)
  | 0 => return []
  | k + 1 => do
    let s ← row.step combiner result (Nat.pow 2 k : Nat)
    return s :: sync :: (← row.steps combiner result sync k)

end ReductionRow

namespace Stmt

/-- The state of lowering: the thread regions around a statement, innermost last, and the number of
    reductions lowered. -/
structure ReductionState where
  regions : List ThreadRegion := []
  count : Nat := 0

/-- Lowering a reduction makes variables and can fail. -/
abbrev LowerReduction := StateT ReductionState Build

/-- The statement that carries out a reduction across threads. -/
def treeReduction (name : String) (warp : Setting) (combiner : Reducer) (args : List Expr) :
    LowerReduction Stmt := do
  match args, combiner.result, combiner.identity with
  | _ :: value :: cond :: target :: vars, result :: _, identity :: _ =>
    let ids := ((vars.filterMap Expr.asVar?).map (·.id)).eraseDups
    let threads ← reductionThreads name (← get).regions ids
    if vars.any (·.asVar?.isNone) || threads.reduced.length != ids.length then
      throw (.outsideThreads name)
    let (index, length) ← ThreadExtent.linearize threads.reduced
    let (group, groups) ← ThreadExtent.linearize threads.group
    let n := (← get).count
    modify fun s => { s with count := n + 1 }
    let buffer ← freshVar s!"red_buf{n}" .handle
    let base ← (← Expr.mul group length).simplify
    let slot ← (← Expr.add base index).simplify
    let sync := barrier (if ← liftM (warp.allows length) then "warp" else "shared")
    let row : ReductionRow := ⟨.var buffer, result.dtype, slot, base, index, length⟩
    let start := store row.buffer (← Expr.choose cond value identity) slot none
    let width ← nextPow2 length
    let steps ← row.steps combiner result sync width.log2
    let zero ← Expr.ofInt 0 .int32
    let finish := store target (.load result.dtype row.buffer base none) zero none
    let body := ofList (start :: sync :: steps ++ [finish, sync])
    let size ← Expr.ofInt (length * groups) .int32
    return attr (.var buffer) "storage_scope" (.str "shared")
      (allocate buffer.id buffer result.dtype [size] (Expr.bool true) body)
  | _, _, _ => throw .invalidOperand

/-- Runs a step inside a thread region. -/
def inRegion {α : Type} (region : ThreadRegion) (x : LowerReduction α) : LowerReduction α := do
  let outer := (← get).regions
  modify fun s => { s with regions := outer ++ [region] }
  let a ← x
  modify fun s => { s with regions := outer }
  return a

/-- Lowers the reductions across threads in a statement. -/
def lowerReductions (name : String) (warp : Setting) : Stmt → LowerReduction Stmt
  | bind v value body => do return bind v value (← body.lowerReductions name warp)
  | attr subject key value body => do
    match subject, key, body with
    | .axis iv, "thread_extent", body =>
      return attr subject key value (← inRegion (iv, value) (body.lowerReductions name warp))
    | .reducer combiner, "reduce_scope", eval e =>
      match e with
      | .call _ _ args _ _ _ =>
        if e.isIntrinsic "xte_thread_allreduce" then treeReduction name warp combiner args
        else return attr subject key value (eval e)
      | e => return attr subject key value (eval e)
    | _, _, body => return attr subject key value (← body.lowerReductions name warp)
  | assert cond message body => do return assert cond message (← body.lowerReductions name warp)
  | loop v min extent kind body => do
    return loop v min extent kind (← body.lowerReductions name warp)
  | allocate site buffer dtype extents cond body => do
    return allocate site buffer dtype extents cond (← body.lowerReductions name warp)
  | realize op output dtype bounds cond body => do
    return realize op output dtype bounds cond (← body.lowerReductions name warp)
  | seq ss => do return seq (← onList ss)
  | branch cond onTrue none => do return branch cond (← onTrue.lowerReductions name warp) none
  | branch cond onTrue (some onFalse) => do
    let onTrue ← onTrue.lowerReductions name warp
    return branch cond onTrue (some (← onFalse.lowerReductions name warp))
  | s => return s
where
  /-- Lowers the reductions in several statements. -/
  onList : List Stmt → LowerReduction (List Stmt)
    | [] => return []
    | s :: ss => do
      let s ← s.lowerReductions name warp
      return s :: (← onList ss)

end Stmt

/-- Lowers the reductions across threads of a function, for a number of threads that run in step. -/
def Func.lowerReductions (warp : Setting) (f : Func) : Build Func := do
  let (body, _) ← (f.body.lowerReductions f.name warp).run {}
  return { f with body }

end TensorNest
