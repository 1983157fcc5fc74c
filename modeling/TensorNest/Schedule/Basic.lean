import TensorNest.Expr.Rebuild
import TensorNest.Schedule.Stage

/-!
# Schedules

A schedule holds the stages of all operations that its outputs depend on, producers first. Stages are
found by the operations that they compute, or once computed: an operation that is cached, or into which
others are inlined, leads to the stage of the operation that took its place.
-/

namespace TensorNest

/-- A schedule. `places` gives the number of the stage of an operation, by its number. -/
structure Schedule where
  outputs : List Operation
  stages : List Stage := []
  places : List (Nat × Nat) := []
  nextStage : Nat := 0
  normalized : Bool := false
  deriving Inhabited

namespace Schedule

/-- The stage of a number. -/
def stage? (s : Schedule) (id : Nat) : Option Stage :=
  s.stages.find? (·.id == id)

/-- The stage that computes an operation. -/
def find? (s : Schedule) (idx : Nat) : Option Stage := do
  let (_, id) ← s.places.find? (·.1 == idx)
  s.stage? id

/-- The stage that has to compute an operation. -/
def stageOf (s : Schedule) (op : OpRef) : Except Error Stage :=
  match s.find? op.idx with
  | some st => .ok st
  | none => .error (.noStage op.name)

/-- Notes the stage of an operation. -/
def setPlace (s : Schedule) (idx id : Nat) : Schedule :=
  { s with places := (idx, id) :: s.places }

/-- Replaces the stage of the same number. -/
def setStage (s : Schedule) (st : Stage) : Schedule :=
  { s with stages := s.stages.map fun t => if t.id == st.id then st else t }

/-- Adds the stage of an operation as the last one. -/
def addStage (s : Schedule) (op : Operation) : Schedule :=
  let st := Stage.ofOperation s.nextStage op
  ({ s with stages := s.stages ++ [st], nextStage := s.nextStage + 1 } : Schedule).setPlace op.idx st.id

/-- Adds the stages of an operation and of all that it depends on, producers first, following reads
    to a depth of `depth`. -/
def visit (g : Graph) : Nat → List Nat × Schedule → Operation → Except Error (List Nat × Schedule)
  | 0, acc, _ => .ok acc
  | depth + 1, (visited, s), op =>
    if visited.contains op.idx then .ok (visited, s)
    else do
      let inputs ← op.inputs
      let (visited, s) ← inputs.foldlM (fun acc t =>
        match g.op? t.op.idx with
        | some producer => visit g depth acc producer
        | none => .error (.missingKey (toString t.op.idx))) (op.idx :: visited, s)
      return (visited, s.addStage op)

/-- The schedule of some output operations. An operation reads only operations made before it, so
    that its number bounds the depth of its reads. -/
def create (outputs : List Operation) : Build Schedule := do
  let g ← get
  let (_, s) ← outputs.foldlM (fun acc op => liftM (visit g (g.ops.size + 1) acc op))
    (([] : List Nat), ({ outputs } : Schedule))
  return { s with
    stages := s.stages.map fun st => { st with isOutput := outputs.any (·.idx == st.op.idx) } }

/-- Runs a change of one stage. -/
def onStage {α : Type} (id : Nat) (e : Edit Stage α) : Edit Schedule α := do
  match (← get).stage? id with
  | some st => Edit.onPart st (fun st s => s.setStage st) e
  | none => throw (.missingKey (toString id))

/-- Computes a stage inside the loop of an axis of another stage, `none` standing for anything that
    is no stage of the schedule. -/
def computeAt (id : Nat) (parent : Option Nat) (axis : Operand) : Edit Schedule Unit := do
  let s ← get
  match s.stage? id, parent.bind s.stage? with
  | some st, some p =>
    if p.id == st.id then throw (.attachSelf st.name)
    if st.isOutput then throw (.attachOutput st.name)
    let iv ← p.legal .computeAt axis
    set (s.setStage { st with attach := .inside p.id iv })
  | some st, none => throw (.attachOutside st.name)
  | none, _ => throw (.missingKey (toString id))

/-- The tensor that now computes a tensor. -/
def tensorOf (s : Schedule) (t : TensorRef) : Except Error Tensor := do
  (← s.stageOf t.op).op.output t.index

/-- A new axis of the same domain, kind and name. -/
def copyAxis (iv : IterVar) : Build IterVar := do
  return ⟨iv.dom, ← freshVar iv.name iv.dtype, iv.kind, ""⟩

/-- The body of an operation over new axes, and the new data parallel axes. -/
def copyBody (op : Operation) : Build (List IterVar × Expr) := do
  let axes ← op.axes.mapM copyAxis
  let pairs := (op.axes.zip axes).map fun (old, new) => (old.var, Expr.var new.var)
  match op.body.headD default with
  | .reduce combiner sources reduced cond index =>
    let reduced' ← reduced.mapM copyAxis
    let pairs := pairs ++ (reduced.zip reduced').map fun (old, new) => (old.var, .var new.var)
    let σ := Subst.ofList pairs
    return (axes, .reduce combiner (sources.map (·.subst σ)) reduced' (cond.map (·.subst σ)) index)
  | body => return (axes, body.subst (Subst.ofList pairs))

/-- Inserts a stage before the stage of a number. -/
def insertBefore (new : Stage) (id : Nat) : List Stage → List Stage
  | [] => [new]
  | st :: rest => if st.id == id then new :: st :: rest else st :: insertBefore new id rest

/-- Computes an operation into a cache stored in a scope; its stage becomes a copy of the cache. -/
def cacheWrite (target : OpRef) (scope : Setting) : Edit Schedule Tensor := do
  let stage ← (← get).stageOf target
  let op := stage.op
  if !op.isCompute || op.numOutputs != 1 then throw (.cacheOutputs op.name)
  if !stage.relations.isEmpty || !stage.annotations.isEmpty then throw (.cacheLate op.name)
  let (axes, body) ← copyBody op
  let cache ← addCompute (op.name ++ "." ++ scope.plainText) op.tag op.attrs axes [body]
  let copyAxes ← op.axes.mapM fun iv => liftM (copyAxis iv)
  let read ← (⟨cache, 0⟩ : Tensor).read (copyAxes.map fun iv => .expr (.var iv.var))
  let copy ← addCompute op.name op.tag op.attrs copyAxes [read]
  modify fun s =>
    let cacheStage := { Stage.ofOperation s.nextStage cache with scope }
    let s := { s with
      stages := insertBefore cacheStage stage.id s.stages
      nextStage := s.nextStage + 1 }
    let s := (s.setPlace cache.idx cacheStage.id).setPlace copy.idx stage.id
    s.setStage { stage with op := copy, all := copyAxes, leaves := copyAxes }
  return ⟨cache, 0⟩

/-- Reads are not cached. -/
def cacheRead : Except Error Tensor :=
  .error .cacheRead

end Schedule

end TensorNest
