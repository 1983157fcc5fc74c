import TensorNest.Expr.Simplify
import TensorNest.Graph.Axis
import TensorNest.Graph.Tensor
import TensorNest.Stmt.Basic

/-!
# Stages

A stage is the loop nest of an operation: its leaf axes, from the outermost to the innermost, the
relations by which these are derived from the axes of the operation, annotations of axes, and the
place where the operation is computed. The transforms of this module change one stage.
-/

namespace TensorNest

/-- How axes are derived from others. -/
inductive Relation where
  | split (parent outer inner : IterVar) (factor nparts : Option Expr)
  | fuse (outer inner fused : IterVar)
  | rebase (parent rebased : IterVar)
  deriving Inhabited

/-- What is noted about an axis: how its loop runs, the thread axis it is bound to, and the tensors
    to prefetch in its loop, each with the number of iterations ahead. -/
structure Annotation where
  kind : Option IterKind := none
  thread : Option IterVar := none
  prefetched : List Subject := []
  prefetchOffsets : List Expr := []
  deriving Inhabited

/-- Where a stage is computed: on its own, at each use, or inside a loop of another stage. -/
inductive Attach where
  | root
  | inlined
  | inside (stage : Nat) (axis : IterVar)
  deriving Inhabited

/-- A stage. An annotation is kept with the numbers of the axes that share it. -/
structure Stage where
  id : Nat
  op : Operation
  origin : Operation
  all : List IterVar
  leaves : List IterVar
  relations : List Relation := []
  annotations : List (List Nat × Annotation) := []
  attach : Attach := .root
  scope : Setting := ""
  isOutput : Bool := false
  doubleBuffered : Bool := false
  deriving Inhabited

/-- A change of a state of type `σ` that can make variables and operations, and can fail. What was
    changed before it failed stays. -/
abbrev Edit (σ : Type) := ExceptT Error (StateT σ (StateM Graph))

instance (priority := low) {σ : Type} : MonadLift Build (Edit σ) where
  monadLift x := ExceptT.mk (liftM x.run)

/-- Runs a change of a part of the state. -/
def Edit.onPart {σ τ α : Type} (part : τ) (put : τ → σ → σ) (e : Edit τ α) : Edit σ α := do
  let (r, part) ← (liftM (e.run.run part) : StateT σ (StateM Graph) _)
  modify (put part)
  liftM r

/-- The actions on axes. -/
inductive Action where
  | split
  | fuse
  | reorder
  | vectorize
  | parallel
  | unroll
  | bind
  | computeAt
  deriving DecidableEq, Repr

/-- The name of an action. -/
def Action.name : Action → String
  | split => "split"
  | fuse => "fuse"
  | reorder => "reorder"
  | vectorize => "vectorize"
  | parallel => "parallel"
  | unroll => "unroll"
  | bind => "bind"
  | computeAt => "compute_at"

/-- The kinds of axes that an action is not allowed on. -/
def Action.forbidden : Action → List IterKind
  | split | fuse => [.threadIndex, .opaqueAxis]
  | reorder => [.threadIndex, .ordered, .opaqueAxis]
  | vectorize | parallel => [.threadIndex, .reduction, .ordered, .opaqueAxis]
  | unroll | bind | computeAt => [.opaqueAxis]

namespace Stage

/-- The stage of an operation before any transform. -/
def ofOperation (id : Nat) (op : Operation) : Stage where
  id := id
  op := op
  origin := op
  all := op.rootAxes
  leaves := op.rootAxes

def name (s : Stage) : String := s.op.name

def text (s : Stage) : String :=
  "stage(" ++ s.op.name ++ ", " ++ toString s.op.idx ++ ")"

/-- The annotation of an axis. -/
def annotation? (s : Stage) (axis : IterVar) : Option Annotation :=
  (s.annotations.find? (·.1.contains axis.id)).map (·.2)

/-- The thread axis that an axis is bound to. -/
def thread? (s : Stage) (axis : IterVar) : Option IterVar :=
  (s.annotation? axis).bind (·.thread)

/-- Whether an axis is bound to a thread axis. -/
def isBound (s : Stage) (axis : IterVar) : Bool :=
  (s.thread? axis).isSome

/-- The kind of an axis; one bound to a thread axis counts as a thread axis. -/
def kindOf (s : Stage) (axis : IterVar) : IterKind :=
  if s.isBound axis then .threadIndex else axis.kind

/-- The variable that holds the value of a leaf axis. -/
def leafVar (s : Stage) (leaf : IterVar) : Var :=
  match s.thread? leaf with
  | some t => t.var
  | none => leaf.var

/-- The position of a leaf axis. -/
def leafIndex (s : Stage) (axis : Operand) : Except Error Nat :=
  let i? :=
    match axis with
    | .axis iv => s.leaves.findIdx? (·.id == iv.id)
    | _ => none
  match i? with
  | some i => .ok i
  | none => .error (.notLeaf s.name axis.plainText)

/-- The leaf axis that an operand is. -/
def leaf (s : Stage) (axis : Operand) : Except Error IterVar := do
  let i ← s.leafIndex axis
  match s.leaves[i]? with
  | some iv => return iv
  | none => throw (.notLeaf s.name axis.plainText)

/-- The leaf axis that an operand is, if an action is allowed on it. -/
def legal (s : Stage) (action : Action) (axis : Operand) : Except Error IterVar := do
  let iv ← s.leaf axis
  let kind := s.kindOf iv
  if action.forbidden.contains kind then
    throw (.forbidden s.name action.name kind.token iv.name)
  return iv

/-- The leaf axes that operands are, if an action is allowed on each of them. -/
def legals (s : Stage) (action : Action) (axes : List Operand) : Except Error (List IterVar) :=
  axes.mapM (s.legal action)

/-- The positions of leaf axes. -/
def leafIndices (s : Stage) (axes : List Operand) : Except Error (List Nat) :=
  axes.mapM s.leafIndex

/-- Changes the annotation of an axis. -/
def annotate (s : Stage) (axis : IterVar) (f : Annotation → Annotation) : Stage :=
  if (s.annotation? axis).isSome then
    { s with
      annotations := s.annotations.map fun (ids, a) => (ids, if ids.contains axis.id then f a else a) }
  else { s with annotations := s.annotations ++ [([axis.id], f {})] }

/-- An expression that can be a split factor or a number of parts: a positive integer, as far as
    that is known. -/
def factor (s : Stage) (what : String) (x : Operand) : Except Error Expr := do
  let e ← Expr.convert x
  if !e.dtype.isInteger then throw (.factorType s.name what e.dtype)
  match e with
  | .const v _ =>
    if v.le (.int 0) then throw (.factorSign s.name what v.text)
    return e
  | e => return e

/-- Whether an operand is given. -/
def given : Operand → Bool
  | .nothing => false
  | _ => true

/-- The axis to split and the factor or the number of parts, exactly one of which is given. -/
def splitArgs (s : Stage) (parent factor nparts : Operand) : Except Error (IterVar × Expr) := do
  let iv ← s.legal .split parent
  if given factor == given nparts then throw (.factorChoice s.name)
  if given factor then return (iv, ← s.factor "factor" factor)
  return (iv, ← s.factor "nparts" nparts)

/-- The extents of the outer and the inner axis of a split of an extent. -/
def splitExtents (extent : Expr) (factor nparts : Option Expr) : Except Error (Expr × Expr) := do
  match factor, nparts with
  | some f, _ => return (← Expr.ceilDiv extent f, f)
  | none, some n => return (n, ← Expr.ceilDiv extent n)
  | none, none => return (extent, extent)

/-- A list with the items from a position on replaced. -/
def splice {α : Type} (xs : List α) (pos count : Nat) (ys : List α) : List α :=
  xs.take pos ++ ys ++ xs.drop (pos + count)

/-- Splits an axis into an outer and an inner one. -/
def split (parent factor nparts : Operand) : Edit Stage (IterVar × IterVar) := do
  let s ← get
  let (iv, value) ← s.splitArgs parent factor nparts
  let byFactor := given factor
  let factor? := if byFactor then some value else none
  let nparts? := if byFactor then none else some value
  let doms : Option (Range × Range) ←
    match iv.dom with
    | none => pure none
    | some dom => do
      let (outer, inner) ← splitExtents dom.extent factor? nparts?
      let zero ← Expr.ofInt 0 iv.dtype
      pure (some (⟨zero, ← outer.simplify⟩, ⟨zero, ← inner.simplify⟩))
  let outer : IterVar :=
    ⟨doms.map (·.1), ← freshVar (iv.name ++ ".outer") iv.dtype, iv.kind, ""⟩
  let inner : IterVar :=
    ⟨doms.map (·.2), ← freshVar (iv.name ++ ".inner") iv.dtype, iv.kind, ""⟩
  let pos ← s.leafIndex parent
  set { s with
    leaves := splice s.leaves pos 1 [outer, inner]
    all := s.all ++ [outer, inner]
    relations := s.relations ++ [Relation.split iv outer inner factor? nparts?] }
  return (outer, inner)

/-- Fuses two axes, of which the second is inside the first. -/
def fusePair (outer inner : IterVar) : Edit Stage IterVar := do
  let dom : Option Range ←
    match outer.dom, inner.dom with
    | some a, some b => do
      let zero ← Expr.ofInt 0 outer.dtype
      pure (some ⟨zero, ← (← Expr.mul a.extent b.extent).simplify⟩)
    | _, _ => pure none
  let v ← freshVar (outer.name ++ "." ++ inner.name ++ ".fused") outer.dtype
  let fused : IterVar := ⟨dom, v, outer.kind, ""⟩
  modify fun s => { s with
    relations := s.relations ++ [.fuse outer inner fused]
    all := s.all ++ [fused] }
  return fused

/-- Fuses adjacent axes, given from the outermost to the innermost. One axis is left as it is. -/
def fuse (axes : List Operand) : Edit Stage IterVar := do
  let s ← get
  match axes with
  | [] => throw (.fuseNothing s.name)
  | [axis] => s.leaf axis
  | axes =>
    let ivs ← s.legals .fuse axes
    let positions ← s.leafIndices axes
    let start := positions.headD 0
    if positions != (List.range axes.length).map (start + ·) then
      throw (.fuseOrder s.name (ivs.map (·.name)))
    let flags := ivs.map (·.kind == .reduction)
    if flags.any (· != flags.headD false) then
      throw (.fuseKinds s.name (ivs.map (·.name)))
    let fused ← ivs.tail.foldlM fusePair (ivs.headD default)
    modify fun s => { s with leaves := splice s.leaves start axes.length [fused] }
    return fused

/-- Puts axes at positions, each at the next one. -/
def place (leaves : List IterVar) : List (Nat × IterVar) → List IterVar
  | [] => leaves
  | (pos, iv) :: rest => place (leaves.set pos iv) rest

/-- Reorders the given leaf axes among their positions. -/
def reorder (axes : List Operand) : Edit Stage Unit := do
  let s ← get
  let ivs ← s.legals .reorder axes
  if !decide (ivs.map (·.id)).Nodup then throw (.duplicateAxes s.name)
  let positions := (← s.leafIndices axes).mergeSort
  set { s with leaves := place s.leaves (positions.zip ivs) }

/-- Whether two operands given for axes are the same. -/
def sameAxis : Operand → Operand → Bool
  | .axis a, .axis b => a.id == b.id
  | .expr (.var v), .expr (.var w) => v.id == w.id
  | .number a, .number b => a.same b
  | .nothing, .nothing => true
  | _, _ => false

/-- Splits two axes and puts both outer axes outside both inner ones. -/
def tile (x y xFactor yFactor : Operand) : Edit Stage (List IterVar) := do
  let s ← get
  if sameAxis x y then throw (.tileSame s.name)
  discard <| liftM (s.splitArgs x xFactor .nothing)
  discard <| liftM (s.splitArgs y yFactor .nothing)
  discard <| liftM (s.legal .reorder x)
  discard <| liftM (s.legal .reorder y)
  let (xo, xi) ← split x xFactor .nothing
  let (yo, yi) ← split y yFactor .nothing
  reorder [.axis xo, .axis yo, .axis xi, .axis yi]
  return [xo, yo, xi, yi]

/-- Notes how the loop of an axis runs. -/
def mark (action : Action) (kind : IterKind) (axis : Operand) : Edit Stage Unit := do
  let s ← get
  let iv ← s.legal action axis
  set (s.annotate iv fun a => { a with kind := some kind })

def parallel (axis : Operand) : Edit Stage Unit := mark .parallel .parallelized axis
def vectorize (axis : Operand) : Edit Stage Unit := mark .vectorize .vectorized axis
def unroll (axis : Operand) : Edit Stage Unit := mark .unroll .unrolled axis

/-- Whether a thread axis runs over the threads of a block. -/
def isThreadTag (tag : String) : Bool :=
  tag.startsWith "threadIdx"

/-- Binds an axis to a thread axis. Reductions can only run over the threads of a block. -/
def bind (axis thread : Operand) : Edit Stage Unit := do
  let s ← get
  match thread with
  | .axis t =>
    if t.kind != .threadIndex then throw (.bindTarget s.name)
    let iv ← s.legal .bind axis
    if iv.kind = .reduction && !isThreadTag t.tag then
      throw (.bindReduction s.name iv.name t.tag)
    set (s.annotate iv fun a => { a with thread := some t })
  | _ => throw (.bindTarget s.name)

/-- Binds axes to new thread axes of a family, the last one to `x`. -/
def bindFamily (family : String) (axes : List Operand) : Edit Stage (List IterVar) :=
  (axes.zip (["z", "y", "x"].drop (3 - axes.length))).mapM fun (axis, suffix) => do
    let tag := family ++ "." ++ suffix
    let thread : IterVar := ⟨none, ← freshVar tag, .threadIndex, tag⟩
    bind axis (.axis thread)
    return thread

/-- Binds at most three axes to the blocks and at most three to the threads of a block. -/
def bindGpu (blocks threads : List Operand) : Edit Stage (List IterVar × List IterVar) := do
  let s ← get
  if 3 < blocks.length then throw (.bindTooMany s.name "block" blocks.length)
  if 3 < threads.length then throw (.bindTooMany s.name "thread" threads.length)
  let ivs ← s.legals .bind (blocks ++ threads)
  (ivs.take blocks.length).forM fun iv =>
    if iv.kind = .reduction then throw (.bindBlock s.name iv.name) else pure ()
  let bs ← bindFamily "blockIdx" blocks
  let ts ← bindFamily "threadIdx" threads
  return (bs, ts)

/-- Computes the operation at each use instead of storing it. -/
def computeInline : Edit Stage Unit := do
  let s ← get
  if !s.op.isCompute || !s.op.reduceAxes.isEmpty then throw (.inlineReduction s.name)
  if s.isOutput then throw (.inlineOutput s.name)
  set { s with attach := .inlined }

/-- Computes the operation on its own. -/
def computeRoot : Edit Stage Unit :=
  modify fun s => { s with attach := .root }

/-- Sets where the storage of the operation is kept. -/
def setScope (scope : Setting) : Edit Stage Unit :=
  modify fun s => { s with scope }

/-- Asks for two copies of the storage of the operation. -/
def doubleBuffer : Edit Stage Unit :=
  modify fun s => { s with doubleBuffered := true }

/-- Prefetches a tensor some iterations ahead in the loop of an axis. That it is one is seen when the
    prefetch is made. -/
def prefetch (tensor : Subject) (axis offset : Operand) : Edit Stage Unit := do
  let iv ← (← get).leaf axis
  modify (·.annotate iv fun a => { a with prefetched := a.prefetched ++ [tensor] })
  let e ← Expr.convert offset
  modify (·.annotate iv fun a => { a with prefetchOffsets := a.prefetchOffsets ++ [e] })

end Stage

end TensorNest
