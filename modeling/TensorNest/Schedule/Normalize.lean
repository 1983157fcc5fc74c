import TensorNest.Schedule.Basic

/-!
# Normal schedules

In a normal schedule no operation reads an inlined stage or an operation that was replaced, and every
leaf axis that is not bound to a thread starts at zero. A schedule is made normal once.
-/

namespace TensorNest

/-- An attachment with an axis of a stage replaced. -/
def Attach.moved (stage : Nat) (leaf rebased : IterVar) : Attach → Attach
  | .inside id axis => if id == stage && axis.id == leaf.id then .inside id rebased else .inside id axis
  | a => a

namespace Schedule

/-- A read of a tensor led to the operation that now computes it, or replaced by its definition if
    that is inlined. Tells whether the read has changed. -/
def redirectRead (s : Schedule) (e : Expr) : Expr × Bool :=
  match e with
  | .call t _ args .tensorRead (some f) index =>
    match s.find? f.idx with
    | none => (e, false)
    | some stage =>
      match stage.attach with
      | .inlined =>
        let σ := Subst.ofList ((stage.op.axes.map (·.var)).zip args)
        (((itemAt? stage.op.body index.toInt).getD e).subst σ, true)
      | _ =>
        if stage.op.idx == f.idx then (e, false)
        else (.call t stage.op.name args .tensorRead (some stage.op.ref) index, true)
  | e => (e, false)

/-- An expression with all its reads redirected, and whether one has changed. -/
def redirect (s : Schedule) (e : Expr) : Expr × Bool :=
  (e.rebuildM (m := StateM Bool) fun e => do
    let (e, changed) := s.redirectRead e
    if changed then set true
    return e).run false

/-- Redirects the reads of the operation of a stage. -/
def redirectStage (id : Nat) : Edit Schedule Unit := do
  let s ← get
  match s.stage? id with
  | none => pure ()
  | some st =>
    if st.op.isCompute then
      let bodies := st.op.body.map s.redirect
      if bodies.any (·.2) then
        let op ← st.op.withBody (bodies.map (·.1))
        set ((s.setPlace op.idx id).setStage { st with op })

/-- Whether a leaf axis has to be replaced by one that starts at zero. -/
def needsRebase (st : Stage) (leaf : IterVar) : Bool :=
  match leaf.dom with
  | none => false
  | some dom => !dom.min.isConstInt 0 && !st.isBound leaf

/-- A stage with a leaf axis replaced by one that starts at zero. -/
def rebasedStage (st : Stage) (pos : Nat) (leaf rebased : IterVar) : Stage :=
  { st with
    relations := st.relations ++ [.rebase leaf rebased]
    all := st.all ++ [rebased]
    leaves := st.leaves.set pos rebased
    annotations := st.annotations.map fun (ids, a) =>
      (if ids.contains leaf.id then rebased.id :: ids else ids, a)
    attach :=
      match st.attach with
      | .inside id axis => .inside id (if axis.id == leaf.id then rebased else axis)
      | a => a }

/-- A schedule in which what is attached to a leaf axis of a stage is attached to another one. -/
def moveAttached (s : Schedule) (id : Nat) (leaf rebased : IterVar) : Schedule :=
  { s with
    stages := s.stages.map fun st =>
      { st with attach := st.attach.moved id leaf rebased } }

/-- Replaces a leaf axis of a stage by one that starts at zero, if it does not. -/
def rebaseLeaf (id pos : Nat) (leaf : IterVar) : Edit Schedule Unit := do
  let s ← get
  match s.stage? id with
  | none => pure ()
  | some st =>
    if needsRebase st leaf then
      let zero ← Expr.ofInt 0 leaf.dtype
      let dom := leaf.dom.map fun d => (⟨zero, d.extent⟩ : Range)
      let rebased : IterVar := ⟨dom, ← freshVar leaf.name leaf.dtype, leaf.kind, ""⟩
      let s := s.setStage (rebasedStage st pos leaf rebased)
      set (s.moveAttached id leaf rebased)

/-- Replaces the leaf axes of a stage that do not start at zero. -/
def rebaseStage (id : Nat) : Edit Schedule Unit := do
  match (← get).stage? id with
  | none => pure ()
  | some st => (st.leaves.zipIdx).forM fun (leaf, pos) => rebaseLeaf id pos leaf

/-- Makes a schedule normal. -/
def normalize : Edit Schedule Unit := do
  let s ← get
  if !s.normalized then
    let ids := s.stages.map (·.id)
    ids.forM redirectStage
    ids.forM rebaseStage
    modify fun s => { s with normalized := true }

end Schedule

end TensorNest
