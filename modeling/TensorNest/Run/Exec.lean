import TensorNest.Run.Eval
import TensorNest.Run.Suspension

/-!
# Execution of statements

A thread executes a statement with variables and storage scopes of its own, over a machine that it shares
with the other threads of its launch. A barrier makes it wait. A statement that binds a variable removes it
when it ends, also when it ends by a failure; it does not give back what the variable was bound to before.
-/

namespace TensorNest

/-- What a thread has of its own: the values of its variables and the storage scopes of its buffers. -/
structure Local where
  env : Env := []
  scopes : List (Nat × String) := []

/-- A thread. Its own state survives a failure. -/
abbrev Thread := ExceptT Error (StateT Local (Suspension Machine))

namespace Thread

/-- A step that does not wait. -/
def ofRun {α : Type} (x : Run α) : Thread α :=
  ExceptT.mk (liftM (Suspension.step x.run) : StateT Local (Suspension Machine) (Except Error α))

instance (priority := low) : MonadLift Run Thread := ⟨ofRun⟩

/-- Waits until the other threads have come to wait too. -/
def await : Thread Unit :=
  ExceptT.lift (liftM (Suspension.wait : Suspension Machine Unit) : StateT Local (Suspension Machine) Unit)

/-- The value of an expression. -/
def value (f : Frame) (e : Expr) : Thread Value := do
  ofRun (e.eval f (← get).env)

/-- Whether the value of an expression counts as true. -/
def holds (f : Frame) (e : Expr) : Thread Bool := do
  let v ← value f e
  ofRun do v.truth (← get).memory

/-- The value of an expression as an integer. -/
def integer (f : Frame) (e : Expr) : Thread Int := do
  let v ← value f e
  ofRun do v.toInt (← get).memory

/-- Binds a variable. -/
def bind (v : Var) (x : Value) : Thread Unit :=
  modify fun (l : Local) => { l with env := l.env.set v x }

/-- Removes a variable, if it is bound. -/
def unbind (v : Var) : Thread Unit :=
  modify fun (l : Local) => { l with env := l.env.erase v }

/-- Removes a variable, which has to be bound. -/
def release (v : Var) : Thread Unit := do
  let l : Local ← get
  match l.env.get? v with
  | some _ => unbind v
  | none => throw (.missingKey v.name)

/-- Does something after a thread has ended, also by a failure. A failure of the last takes the place of
    that of the thread. -/
def ensuring (body last : Thread Unit) : Thread Unit := do
  let r ← ExceptT.lift body.run
  last
  liftM r

/-- Does something for a number of consecutive integers. -/
def forRange (body : Int → Thread Unit) (start : Int) : Nat → Thread Unit
  | 0 => return ()
  | n + 1 => do
    body start
    forRange body (start + 1) n

/-- The product of the values of expressions and a number. -/
def product (f : Frame) (n : Int) : List Expr → Thread Int
  | [] => return n
  | e :: es => do
    let k ← integer f e
    product f (n * k) es

/-- The scope that an attribute gives. -/
def scopeName : Expr → String
  | .str s => s
  | e => e.text

/-- The buffer of an allocation. On a device the threads of a block share the buffers of shared memory,
    and all threads of a launch those of global memory; the first thread to come adds the buffer. -/
def buffer (f : Frame) (s : Stmt) (v : Var) (e : ElemType) (size : Nat) : Thread View := do
  let l : Local ← get
  let scope := (l.scopes.lookup v.id).getD "global"
  ofRun do
    let m : Machine ← get
    let fresh : Run View := onMemory fun memory => memory.addZeros e size
    let known? (buffers : List (Stmt × View)) : Option View :=
      (buffers.find? fun b => Matching.exact.stmt b.1 s).map (·.2)
    if f.coords.isSome && scope == "shared" then
      match known? m.blockBuffers with
      | some a => return a
      | none =>
        let a ← fresh
        modify fun m => { m with blockBuffers := (s, a) :: m.blockBuffers }
        return a
    else if f.coords.isSome && (scope == "global" || scope == "") then
      match known? m.launchBuffers with
      | some a => return a
      | none =>
        let a ← fresh
        modify fun m => { m with launchBuffers := (s, a) :: m.launchBuffers }
        return a
    else fresh

/-- The coordinate of the thread on an axis. -/
def coordinate (f : Frame) (iv : IterVar) : Except Error Nat :=
  match f.coords with
  | none => .error (f.failure ("thread region " ++ iv.tag ++ " outside of a device"))
  | some coords =>
    match coords.lookup iv.tag with
    | some c => .ok c
    | none => .error (f.failure ("thread axis " ++ iv.tag ++ " is not launched"))

end Thread

open Thread in
/-- Executes a statement. -/
def Stmt.exec (f : Frame) : Stmt → Thread Unit
  | bind v e body => do
    let x ← value f e
    Thread.bind v (← ofRun (place x))
    ensuring (body.exec f) (release v)
  | attr subject key e body =>
    if key == "storage_scope" then do
      if let .var v := subject then
        modify fun l => { l with scopes := (v.id, scopeName e) :: l.scopes }
      body.exec f
    else if key == "thread_extent" then
      match subject with
      | .axis iv => do
        let c ← coordinate f iv
        if (c : Int) < (← integer f e) then
          Thread.bind iv.var (.int32 c)
          ensuring (body.exec f) (release iv.var)
      | _ => throw .invalidOperand
    else body.exec f
  | assert cond message body => do
    if ← holds f cond then body.exec f
    else
      let x ← value f message
      ofRun do throw (f.failure (x.shown (← get).memory))
  | loop v first extent _ body => do
    let start ← integer f first
    let count ← integer f extent
    ensuring
      (forRange (fun i => do
        Thread.bind v (← ofRun do place (← convertTo v.dtype (.number (.int i))))
        body.exec f) start count.toNat)
      (unbind v)
  | store v e index pred => do
    let a ← f.buffer (← get).env v
    let i ← value f index
    let x ← value f e
    match pred with
    | some p =>
      let mask ← value f p
      ofRun (storeTo f v a i x (some mask))
    | none => ofRun (storeTo f v a i x none)
  | allocate site v t extents cond body => do
    let size ← product f t.lanes extents
    let e ← t.element.elemType
    if size < 0 then throw .negativeLength
    let a ← buffer f (allocate site v t extents cond body) v e size.toNat
    Thread.bind v (.array a)
    ensuring (body.exec f) (unbind v)
  | seq ss => execAll ss
  | branch cond onTrue onFalse => do
    if ← holds f cond then onTrue.exec f else otherwise onFalse
  | eval e =>
    if e.isIntrinsic "xte_storage_sync" then await
    else do
      let _ ← value f e
  | provide .. => throw (.stmtUnsupported f.name "provide")
  | realize .. => throw (.stmtUnsupported f.name "realize")
  | prefetch .. => throw (.stmtUnsupported f.name "prefetch")
where
  /-- Executes statements, one after the other. -/
  execAll : List Stmt → Thread Unit
    | [] => return ()
    | s :: ss => do
      s.exec f
      execAll ss
  /-- Executes the other branch of a conditional, if there is one. -/
  otherwise : Option Stmt → Thread Unit
    | none => return ()
    | some s => s.exec f

end TensorNest
