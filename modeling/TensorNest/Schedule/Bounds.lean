import TensorNest.Expr.Interval
import TensorNest.Schedule.Normalize

/-!
# Bounds

The ranges of the axes of all stages of a normal schedule. The axes of a stage that is computed on
its own cover their domain; those of a stage computed inside a loop of another stage cover what its
readers read while that loop, and the loops around it, stand still. The ranges of derived axes follow
from those of the axes they are derived from, and start at zero.
-/

namespace TensorNest

/-- Ranges of axes, by the numbers of these. The first entry of an axis counts. -/
abbrev Ranges := List (Nat × Range)

namespace Ranges

def find? (m : Ranges) (iv : IterVar) : Option Range :=
  (List.find? (·.1 == iv.id) m).map (·.2)

/-- The range that an axis has to have. -/
def get (m : Ranges) (iv : IterVar) : Except Error Range :=
  match m.find? iv with
  | some r => .ok r
  | none => .error (.missingKey iv.text)

def insert (m : Ranges) (iv : IterVar) (r : Range) : Ranges :=
  (iv.id, r) :: m

/-- Sets the range of an axis to its domain. -/
def insertDomain (m : Ranges) (iv : IterVar) : Ranges :=
  match iv.dom with
  | some r => m.insert iv r
  | none => m

/-- The range from zero of an extent, for an axis. -/
def fromZero (iv : IterVar) (extent : Expr) : Except Error Range := do
  return ⟨← Expr.ofInt 0 iv.dtype, extent⟩

/-- Sets the ranges of the axes that a relation derives. -/
def derive (m : Ranges) : Relation → Except Error Ranges
  | .split parent outer inner factor nparts => do
    let (o, i) ← Stage.splitExtents (← m.get parent).extent factor nparts
    let m := m.insert outer (← fromZero outer (← o.simplify))
    return m.insert inner (← fromZero inner (← i.simplify))
  | .fuse outer inner fused => do
    let extent ← Expr.mul (← m.get outer).extent (← m.get inner).extent
    return m.insert fused (← fromZero fused (← extent.simplify))
  | .rebase parent rebased => do
    return m.insert rebased (← fromZero rebased (← m.get parent).extent)

/-- Sets the ranges of all derived axes of a stage. -/
def deriveAll (m : Ranges) (st : Stage) : Except Error Ranges :=
  st.relations.foldlM derive m

end Ranges

/-- Values of axes, by the numbers of these. The first entry of an axis counts. -/
abbrev AxisValues := List (Nat × Expr)

namespace AxisValues

/-- The value that an axis has to have. -/
def get (m : AxisValues) (iv : IterVar) : Except Error Expr :=
  match List.find? (·.1 == iv.id) m with
  | some (_, e) => .ok e
  | none => .error (.missingKey iv.text)

/-- The values of the leaf axes of a stage: their variables. -/
def ofLeaves (st : Stage) : AxisValues :=
  (st.leaves.map fun leaf => (leaf.id, Expr.var (st.leafVar leaf))).reverse

/-- Sets the values of the axes that a relation derives others from. -/
def recover (m : AxisValues) (ranges : Ranges) : Relation → Except Error AxisValues
  | .split parent outer inner _ _ => do
    let scaled ← Expr.mul (← m.get outer) (← ranges.get inner).extent
    return (parent.id, ← Expr.add scaled (← m.get inner)) :: m
  | .fuse outer inner fused => do
    let extent := (← ranges.get inner).extent
    let o ← Expr.div (← m.get fused) extent
    let i ← Expr.mod (← m.get fused) extent
    return (inner.id, i) :: (outer.id, o) :: m
  | .rebase parent rebased => do
    return (parent.id, ← m.get rebased) :: m

/-- The values of all axes of a stage, each relative to the start of its range. -/
def ofStage (st : Stage) (ranges : Ranges) : Except Error AxisValues :=
  st.relations.reverse.foldlM (fun m r => m.recover ranges r) (ofLeaves st)

end AxisValues

namespace Stage

/-- The values of the axes of the operation of a stage, in terms of its leaf axes. -/
def rootValues (st : Stage) (ranges : Ranges) : Except Error Subst := do
  let values ← AxisValues.ofStage st ranges
  let pairs ← st.op.rootAxes.mapM fun iv => do
    let e ← Expr.add (← ranges.get iv).min (← values.get iv)
    return (iv.var, ← e.simplify)
  return Subst.ofList pairs

/-- Whether storage in a scope is shared by the threads that a leaf axis is bound to. -/
def threadShared (st : Stage) (leaf : IterVar) (scope : Setting) : Bool :=
  match st.thread? leaf with
  | none => false
  | some t =>
    match scope with
    | .text "shared" => isThreadTag t.tag
    | .text name => name == "" || name == "global"
    | _ => false

end Stage

/-- The indices at which an operation is read by another. -/
def Operation.readsOf (consumer producer : Operation) : List (List Expr) :=
  (consumer.body.flatMap (·.tensorReads)).filterMap fun (f, _, args) =>
    if f.idx == producer.idx then some args else none

/-- The interval from zero to before an extent, for a variable. -/
def loopInterval (v : Var) (extent : Expr) : Except Error Interval := do
  return .span (← Expr.ofInt 0 v.dtype) (← Expr.sub extent (1 : Int))

namespace Schedule

/-- The stages that read each stage: pairs of the producer's number and the reader. -/
def consumers (s : Schedule) : Except Error (List (Nat × Stage)) := do
  let pairs ← s.stages.mapM fun st => do
    match st.attach with
    | .inlined => return []
    | _ =>
      let inputs ← st.op.inputs
      return inputs.filterMap fun t => (s.find? t.op.idx).map fun p => (p.id, st)
  return pairs.flatten

/-- The position of the loop of `consumer` that a stage is attached to. -/
def attachPosition (consumer : Stage) (attach : Attach) : Except Error (Option Nat) :=
  match attach with
  | .inside id axis =>
    if id == consumer.id then
      match consumer.leaves.findIdx? (·.id == axis.id) with
      | some i => .ok (some i)
      | none => .error (.invalidValue (axis.text ++ " is not in list"))
    else .ok none
  | _ => .ok none

/-- The intervals of the variables of the leaf axes of `consumer` that move while `st` is computed. -/
def movingLeaves (st consumer : Stage) (position : Option Nat) (m : Ranges) :
    Except Error Interval.Domains :=
  consumer.leaves.zipIdx.foldlM (fun d (leaf, pos) => do
    let moves :=
      match position with
      | none => true
      | some p => p < pos || consumer.threadShared leaf st.scope
    if moves then
      let v := consumer.leafVar leaf
      return Interval.insert d v (← loopInterval v (← m.get leaf).extent)
    else return d) []

/-- The interval of an index of a read; the whole domain if no bound is known. -/
def indexInterval (axis : Option IterVar) (e : Expr) (d : Interval.Domains) :
    Except Error (Expr × Expr) := do
  match ← Interval.eval? e d, axis.bind (·.dom) with
  | some i, _ => return i
  | none, some dom =>
    return (dom.min, ← Expr.sub (← Expr.add dom.min dom.extent) (1 : Int))
  | none, none => throw .invalidOperand

/-- The intervals of the indices at which `consumer` reads a stage, for each read. -/
def readIntervals (st consumer : Stage) (m : Ranges) : Except Error (List (List (Expr × Expr))) := do
  let position ← attachPosition consumer st.attach
  let d ← movingLeaves st consumer position m
  let σ ← consumer.rootValues m
  (consumer.op.readsOf st.op).mapM fun args =>
    args.zipIdx.mapM fun (arg, dim) => indexInterval st.op.axes[dim]? (arg.subst σ) d

/-- The range that covers intervals; the domain of the axis if there are none. -/
def coveringRange (iv : IterVar) : List (Expr × Expr) → Except Error (Option Range)
  | [] => .ok iv.dom
  | first :: rest => do
    let (lo, hi) ← rest.foldlM (fun (lo, hi) (l, h) => do
      let lo ← Expr.minimum (lo : Expr) (l : Expr)
      let hi ← Expr.maximum (hi : Expr) (h : Expr)
      return (lo, hi)) first
    let lo ← lo.simplify
    let extent ← Expr.add (← Expr.sub hi lo) (1 : Int)
    return some ⟨lo, ← extent.simplify⟩

/-- The ranges of the axes of an attached stage: what its consumers read. -/
def requiredRegion (st : Stage) (consumers : List Stage) (m : Ranges) :
    Except Error (List (IterVar × Option Range)) := do
  let reads := (← consumers.mapM fun c => readIntervals st c m).flatten
  st.op.axes.zipIdx.mapM fun (iv, dim) => do
    return (iv, ← coveringRange iv (reads.filterMap (·[dim]?)))

/-- The ranges of the axes of the operation of a stage. -/
def rootRanges (st : Stage) (readers : List (Nat × Stage)) (m : Ranges) :
    Except Error Ranges := do
  match st.attach, st.isOutput with
  | .inside .., false =>
    let mine := (readers.filter (·.1 == st.id)).map (·.2)
    let region ← requiredRegion st mine m
    return region.foldl (fun m (iv, r) => (r.map (m.insert iv)).getD m) m
  | _, _ => return st.op.axes.foldl Ranges.insertDomain m

/-- Adds the ranges of the axes of a stage and of the thread axes that they are bound to. -/
def addStageRanges (readers : List (Nat × Stage)) (m : Ranges) (st : Stage) :
    Except Error Ranges := do
  if !st.op.isCompute then return m
  let m ← rootRanges st readers m
  let m := st.op.reduceAxes.foldl Ranges.insertDomain m
  let m ← m.deriveAll st
  st.leaves.foldlM (fun m leaf => do
    let r ← Ranges.get m leaf
    match st.thread? leaf with
    | some t => return Ranges.insert m t r
    | none => return m) m

/-- The ranges of all axes of a normal schedule. -/
def rangesOf (s : Schedule) : Except Error Ranges := do
  let readers ← s.consumers
  s.stages.reverse.foldlM (addStageRanges readers) []

/-- Makes a schedule normal and gives the ranges of all its axes. -/
def inferBounds : Edit Schedule Ranges := do
  normalize
  liftM (← get).rangesOf

end Schedule

end TensorNest
