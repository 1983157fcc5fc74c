import TensorNest.Schedule.Basic
import TensorNest.Target

/-!
# Ready-made schedules

Schedules of operations whose elements are computed independently of each other.
-/

namespace TensorNest

namespace Schedule

/-- Fuses all axes of an operation, or the given ones. -/
def fuseAll (op : OpRef) (axes : Option (List Operand)) : Edit Schedule (Stage × IterVar) := do
  let st ← (← get).stageOf op
  let axes := axes.getD (st.op.axes.map .axis)
  let fused ← onStage st.id (Stage.fuse axes)
  return (st, fused)

/-- Splits an axis by the width of the vector registers and vectorizes the inner part, if the width
    divides the extent. -/
def vectorizeBy (lanes : Nat) (st : Stage) (axis : IterVar) : Edit Schedule IterVar := do
  match axis.dom with
  | some dom =>
    if 1 < lanes then
      let width : Operand := .number (.int lanes)
      if ← (← Expr.eq (← Expr.mod dom.extent width) (0 : Int)).canProve then
        let (outer, inner) ← onStage st.id (Stage.split (.axis axis) width .nothing)
        onStage st.id (Stage.vectorize (.axis inner))
        return outer
    return axis
  | none => return axis

/-- Runs the fused axes of an operation in parallel, vectorized inside if asked for. -/
def cpuInjective (p : Processor) (op : OpRef) (axes : Option (List Operand)) (vectorize : Bool) :
    Edit Schedule Unit := do
  let (st, fused) ← fuseAll op axes
  let axis ←
    if vectorize then do vectorizeBy (← p.vectorLanes (st.op.outputType 0)) st fused
    else pure fused
  onStage st.id (Stage.parallel (.axis axis))

/-- Runs the fused axes of an operation on blocks of threads. -/
def gpuInjective (op : OpRef) (threads : Operand) (axes : Option (List Operand)) :
    Edit Schedule Unit := do
  let (st, fused) ← fuseAll op axes
  let (outer, inner) ← onStage st.id (Stage.split (.axis fused) threads .nothing)
  discard <| onStage st.id (Stage.bindGpu [.axis outer] [.axis inner])

end Schedule

end TensorNest
