import TensorNest.Schedule.Bounds
import TensorNest.Stmt.Rebuild

/-!
# Loop nests

The statement that computes a normal schedule. Each stage becomes a nest of loops over its leaf axes
around the statements that provide its outputs, inside the realizations of these. A stage that is
computed inside a loop of another stage is realized there, before the rest of the body. Loops over
axes that are bound to threads become thread regions. Where a split does not divide an extent, or
where the region required of an attached stage may leave its domain, guards keep to the domain.
-/

namespace TensorNest

/-- What the nests of a schedule are made from: the stages, the ranges of the axes, the stages
    attached to the loop of an axis, and the intervals of all leaf variables. -/
structure NestContext where
  ranges : Ranges
  attached : List (Nat × Stage)
  leafDomains : Interval.Domains

namespace NestContext

/-- The stages attached to the loop of an axis. -/
def attachedTo (c : NestContext) (axis : IterVar) : List Stage :=
  (c.attached.filter (·.1 == axis.id)).map (·.2)

/-- The stages attached to loops; none may be attached to an inlined stage. -/
def attachments (s : Schedule) : Except Error (List (Nat × Stage)) := do
  let pairs ← s.stages.mapM fun st => do
    match st.attach with
    | .inside id axis =>
      match s.stage? id with
      | some parent =>
        match parent.attach with
        | .inlined => throw (.attachedToInlined st.name parent.name)
        | _ => return [(axis.id, st)]
      | none => return [(axis.id, st)]
    | _ => return []
  return pairs.flatten

/-- Adds the interval of the variable of a leaf axis, unless it has one. -/
def addLeafDomain (m : Ranges) (st : Stage) (d : Interval.Domains) (leaf : IterVar) :
    Except Error Interval.Domains := do
  let v := st.leafVar leaf
  let i ← loopInterval v (← m.get leaf).extent
  return if (Interval.find? d v).isSome then d else Interval.insert d v i

/-- The context of a schedule with the ranges of its axes. -/
def ofSchedule (s : Schedule) (m : Ranges) : Except Error NestContext := do
  let attached ← attachments s
  let computed := s.stages.filter fun st =>
    match st.attach with
    | .inlined => false
    | _ => st.op.isCompute
  let leafDomains ← computed.foldlM (fun d st => st.leaves.foldlM (addLeafDomain m st) d) []
  return ⟨m, attached, leafDomains⟩

/-- The kind of loop of a kind of axis. -/
def loopKind : IterKind → LoopKind
  | .unrolled => .unrolled
  | .vectorized => .vectorized
  | .parallelized => .parallel
  | _ => .serial

/-- The loop of a leaf axis around a body. -/
def loop (c : NestContext) (st : Stage) (leaf : IterVar) (body : Stmt) : Except Error Stmt := do
  let extent := (← c.ranges.get leaf).extent
  let note := (st.annotation? leaf).getD {}
  let body := (note.prefetched.zip note.prefetchOffsets).foldl (fun body (subject, offset) =>
    Stmt.attr subject "prefetch_scope" offset body) body
  match note.thread with
  | some t =>
    let key := if t.tag.startsWith "vthread" then "virtual_thread" else "thread_extent"
    return .attr (.axis t) key extent body
  | none =>
    let kind := note.kind.getD leaf.kind
    return .loop leaf.var (← Expr.ofInt 0 leaf.dtype) extent (loopKind kind) body

/-- Conditions around a statement, the first one outermost. -/
def guarded (guards : List Expr) (body : Stmt) : Stmt :=
  guards.foldr (fun g s => .branch g s none) body

/-- The guards of the splits of data axes, or of reduction axes, that may not divide their extent. -/
def splitGuards (c : NestContext) (st : Stage) (values : AxisValues) (reduction : Bool) :
    Except Error (List Expr) := do
  let guards ← st.relations.mapM fun
    | .split parent _ _ factor nparts => do
      if (parent.kind == .reduction) != reduction then return []
      let extent := (← c.ranges.get parent).extent
      let divisor := (factor.orElse fun _ => nparts).getD extent
      if ← (← Expr.eq (← Expr.mod extent divisor) (0 : Int)).canProve then return []
      return [← Expr.likely (← Expr.lt (← values.get parent) extent)]
    | _ => return []
  return guards.flatten

/-- The guards that keep the axis of an attached stage inside its domain. -/
def axisGuards (c : NestContext) (σ : Subst) (iv : IterVar) : Except Error (List Expr) := do
  let r ← c.ranges.get iv
  let dom := iv.dom.getD default
  let value := (σ.find? iv.var).getD (.var iv.var)
  let stop ← Expr.add dom.min dom.extent
  let low ← Interval.eval? r.min c.leafDomains
  let high ← Interval.eval? (← Expr.add r.min r.extent) c.leafDomains
  let lowFits ←
    match low with
    | some (lo, _) => do (← Expr.ge lo dom.min).canProve
    | none => pure false
  let below ← if lowFits then pure [] else do pure [← Expr.likely (← Expr.ge value dom.min)]
  let highFits ←
    match high with
    | some (_, hi) => do (← Expr.le hi stop).canProve
    | none => pure false
  let above ← if highFits then pure [] else do pure [← Expr.likely (← Expr.lt value stop)]
  return below ++ above

/-- The guards that keep a stage that is attached inside its domain. -/
def domainGuards (c : NestContext) (st : Stage) (σ : Subst) : Except Error (List Expr) := do
  match st.attach with
  | .inside .. => return (← st.op.axes.mapM (c.axisGuards σ)).flatten
  | _ => return []

/-- The parts of a reduction: combiner, sources and condition. -/
def reductionOf (op : Operation) : Reducer × List Expr × Option Expr :=
  match op.body with
  | .reduce combiner sources _ cond _ :: _ => (combiner, sources, cond)
  | _ => (default, [], none)

/-- The values after a step of a reduction, the accumulators being the outputs at `args`. -/
def updates (op : Operation) (args : List Expr) (σ : Subst) : List Expr :=
  let (combiner, sources, _) := reductionOf op
  let accumulators := combiner.lhs.zipIdx.map fun (v, i) =>
    (v, Expr.call (op.outputType i) op.name args .tensorRead (some op.ref) (i : Int))
  let values := (combiner.rhs.zip sources).map fun (v, e) => (v, e.subst σ)
  combiner.result.map (·.subst (Subst.ofList (accumulators ++ values)))

/-- The statements that provide values of the outputs at `args`. -/
def provides (op : Operation) (args : List Expr) (values : List Expr) : Stmt :=
  Stmt.ofList (values.zipIdx.map fun (v, i) => .provide op.ref i v args)

/-- A statement under the condition of a reduction. -/
def underCondition (cond : Option Expr) (σ : Subst) (body : Stmt) : Stmt :=
  match cond with
  | none => body
  | some c => .branch (c.subst σ) body none

/-- The leaf axes inside the first reduction axis that are no reduction axes. -/
def initLeaves (st : Stage) : List IterVar :=
  (st.leaves.dropWhile (·.kind != .reduction)).filter (·.kind != .reduction)

/-- The statement that starts a reduction, with loops of its own over the data axes that are inside
    the reduction. -/
def initNest (c : NestContext) (st : Stage) (args guards : List Expr) : Build Stmt := do
  let op := st.op
  let leaves := initLeaves st
  let vars ← leaves.mapM fun leaf => freshVar (leaf.name ++ ".init") leaf.dtype
  let σ := Subst.ofList ((leaves.zip vars).map fun (leaf, v) => (st.leafVar leaf, .var v))
  let init := guarded guards (provides op args (reductionOf op).1.identity)
  let init ← leaves.foldrM (fun leaf s => do
    let v := ((σ.find? (st.leafVar leaf)).bind Expr.asVar?).getD leaf.var
    return .loop v (← Expr.ofInt 0 leaf.dtype) (← c.ranges.get leaf).extent .serial s) init
  return init.subst σ

/-- Puts the loops of leaf axes around a body, by `wrap`, the statement `first` being placed before
    the loop at a position. -/
def wrapLoops (wrap : IterVar → Stmt → Build Stmt) (first : Option (Nat × Stmt)) (body : Stmt)
    (leaves : List IterVar) : Build Stmt :=
  leaves.zipIdx.foldrM (fun (leaf, pos) s => do
    let s ← wrap leaf s
    match first with
    | some (p, t) => return if p == pos then Stmt.ofList [t, s] else s
    | none => return s) body

/-- The body of a reduction over threads: each thread reduces its share, the shares are combined over
    the threads, and the result is provided. -/
def crossThreadBody (c : NestContext) (st : Stage) (args dataGuards reduceGuards : List Expr)
    (σ : Subst) : Build Stmt := do
  let op := st.op
  if op.numOutputs != 1 then throw (.crossThreadOutputs op.name)
  let (combiner, sources, cond) := reductionOf op
  let t := op.outputType 0
  let isReduced (leaf : IterVar) := leaf.kind == .reduction
  let serial := st.leaves.filter fun leaf => isReduced leaf && !st.isBound leaf
  let threads := (st.leaves.filter fun leaf => isReduced leaf && st.isBound leaf).map fun leaf =>
    Expr.var (st.leafVar leaf)
  let acc ← freshVar (op.name ++ ".normal_reduce") .handle
  let result ← freshVar (op.name ++ ".reduce_temp") .handle
  let zero := Expr.int32 0
  let accumulator := combiner.lhs.headD default
  let value := (combiner.result.headD default).subst (Subst.ofList
    ((accumulator, .load t (.var acc) zero none) ::
      (combiner.rhs.zip sources).map fun (v, e) => (v, e.subst σ)))
  let step := guarded reduceGuards (underCondition cond σ (.store (.var acc) value zero none))
  let step ← serial.foldrM (fun leaf s => liftM (c.loop st leaf s)) step
  let share ← Expr.ofInt 1 ⟨.uint, 32, 1⟩
  let combine := Stmt.eval (Expr.intrinsic .handle "xte_thread_allreduce"
    ([share, .load t (.var acc) zero none, Expr.bool true, .var result] ++ threads))
  let body := Stmt.ofList [
    .store (.var acc) (combiner.identity.headD default) zero none,
    step,
    .attr (.reducer combiner) "reduce_scope" zero combine,
    guarded dataGuards (.provide op.ref 0 (.load t (.var result) zero none) args)]
  let one := [Expr.int32 1]
  let localTo (v : Var) (s : Stmt) : Stmt :=
    .attr (.var v) "storage_scope" (.str "local") (.allocate v.id v t one (Expr.bool true) s)
  return localTo acc (localTo result body)

/-- The loop nest of a stage, `wrap` putting the loop of a leaf axis around a body. Only operations that
    compute have one. -/
def computeNest (c : NestContext) (st : Stage) (wrap : IterVar → Stmt → Build Stmt) :
    Build Stmt := do
  let op := st.op
  if !op.isCompute then throw (.assertion s!"no loop nest for {op.name}")
  let values ← AxisValues.ofStage st c.ranges
  let σ ← st.rootValues c.ranges
  let args := op.axes.map fun iv => (σ.find? iv.var).getD (.var iv.var)
  let splits ← c.splitGuards st values false
  let dataGuards := splits ++ (← c.domainGuards st σ)
  if op.reduceAxes.isEmpty then
    let bodies ← op.body.mapM fun e => liftM (e.subst σ).simplify
    wrapLoops wrap none (guarded dataGuards (provides op args bodies)) st.leaves
  else
    let reduceGuards ← c.splitGuards st values true
    if st.leaves.any fun leaf => leaf.kind == .reduction && st.isBound leaf then
      let body ← c.crossThreadBody st args dataGuards reduceGuards σ
      let outer := st.leaves.filter fun leaf => leaf.kind != .reduction || st.isBound leaf
      wrapLoops wrap none body outer
    else
      let cond := (reductionOf op).2.2
      let update := guarded (dataGuards ++ reduceGuards)
        (underCondition cond σ (provides op args (updates op args σ)))
      let init ← c.initNest st args dataGuards
      let first := st.leaves.findIdx (·.kind == .reduction)
      wrapLoops wrap (some (first, init)) update st.leaves

/-- The realization of a stage around its nest and the statements that consume it, with stages nested
    in one another to a depth of `depth`. -/
def pipeline (c : NestContext) : Nat → Stage → Option Stmt → Build Stmt
  | 0, _, _ => throw .overflow
  | depth + 1, st, consumer => do
    let op := st.op
    let produce ← c.computeNest st fun leaf body => do
      let body ← (c.attachedTo leaf).foldrM (fun child s => c.pipeline depth child (some s)) body
      c.loop st leaf body
    let produce :=
      if st.doubleBuffered then .attr (.op op.ref) "double_buffer_scope" (Expr.int32 1) produce
      else produce
    let body := Stmt.ofList (produce :: consumer.toList)
    let bounds ← op.axes.mapM fun iv => c.ranges.get iv
    let body := (List.range op.numOutputs).foldr (fun (i : Nat) s =>
      Stmt.realize op.ref i (op.outputType i) bounds (Expr.bool true) s) body
    return if !st.scope.truthy then body
      else .attr (.op op.ref) "realize_scope" (.str st.scope.plainText) body

end NestContext

namespace Schedule

/-- The statement that computes a normal schedule, given the ranges of its axes. -/
def nest (s : Schedule) (m : Ranges) : Build Stmt := do
  let c ← NestContext.ofSchedule s m
  let roots := s.stages.filter fun st =>
    match st.attach with
    | .root => st.op.isCompute
    | _ => false
  let body ← roots.foldrM (fun st (s' : Option Stmt) => do
    return some (← c.pipeline (s.stages.length + 1) st s')) none
  return Stmt.ofList body.toList

/-- Makes a schedule normal and gives the statement that computes it. -/
def realize (m : Ranges) : Edit Schedule Stmt := do
  normalize
  (← get).nest m

end Schedule

end TensorNest
