import TensorNest.Expr.Rebuild
import TensorNest.Stmt.Visit

/-!
# Rebuilding statements

`Stmt.mapExprsM` rebuilds the expressions of a statement in the order of visiting, `Stmt.subst` puts
expressions for variables. Neither renames the variables that a statement binds.
-/

namespace TensorNest

namespace Stmt

variable {m : Type → Type} [Monad m]

/-- Rebuilds an expression that may be missing. -/
def mapGuardM (f : Expr → m Expr) : Option Expr → m (Option Expr)
  | none => pure none
  | some e => do return some (← f e)

/-- Rebuilds a range. -/
def mapRangeM (f : Expr → m Expr) (r : Range) : m Range := do
  let min ← f r.min
  let extent ← f r.extent
  return ⟨min, extent⟩

/-- Rebuilds the expressions of a statement by `f` and then each statement by `g`, parts first. -/
def rebuildM (f : Expr → m Expr) (g : Stmt → m Stmt) : Stmt → m Stmt
  | bind v value body => do
    let value ← f value
    let body ← body.rebuildM f g
    g (bind v value body)
  | attr subject key value body => do
    let value ← f value
    let body ← body.rebuildM f g
    g (attr subject key value body)
  | assert cond message body => do
    let cond ← f cond
    let message ← f message
    let body ← body.rebuildM f g
    g (assert cond message body)
  | loop v min extent kind body => do
    let min ← f min
    let extent ← f extent
    let body ← body.rebuildM f g
    g (loop v min extent kind body)
  | store buffer value index pred => do
    let buffer ← f buffer
    let value ← f value
    let index ← f index
    let pred ← mapGuardM f pred
    g (store buffer value index pred)
  | provide op output value args => do
    let value ← f value
    let args ← args.mapM f
    g (provide op output value args)
  | allocate site buffer dtype extents cond body => do
    let extents ← extents.mapM f
    let cond ← f cond
    let body ← body.rebuildM f g
    g (allocate site buffer dtype extents cond body)
  | realize op output dtype bounds cond body => do
    let bounds ← bounds.mapM (mapRangeM f)
    let cond ← f cond
    let body ← body.rebuildM f g
    g (realize op output dtype bounds cond body)
  | prefetch op output dtype bounds => do
    let bounds ← bounds.mapM (mapRangeM f)
    g (prefetch op output dtype bounds)
  | seq ss => do
    let ss ← onList f g ss
    g (seq ss)
  | branch cond onTrue none => do
    let cond ← f cond
    let onTrue ← onTrue.rebuildM f g
    g (branch cond onTrue none)
  | branch cond onTrue (some onFalse) => do
    let cond ← f cond
    let onTrue ← onTrue.rebuildM f g
    let onFalse ← onFalse.rebuildM f g
    g (branch cond onTrue (some onFalse))
  | eval e => do g (eval (← f e))
where
  /-- Rebuilds statements, the first one first. -/
  onList (f : Expr → m Expr) (g : Stmt → m Stmt) : List Stmt → m (List Stmt)
    | [] => pure []
    | s :: ss => do
      let s ← s.rebuildM f g
      let ss ← onList f g ss
      pure (s :: ss)

/-- Rebuilds the expressions of a statement, the first one first. -/
def mapExprsM (f : Expr → m Expr) (s : Stmt) : m Stmt :=
  s.rebuildM f pure

/-- Rebuilds the expressions of a statement. -/
def mapExprs (f : Expr → Expr) (s : Stmt) : Stmt :=
  Id.run (s.mapExprsM fun e => pure (f e))

/-- Puts expressions for variables. -/
def subst (σ : Subst) : Stmt → Stmt
  | bind v value body => bind v (value.subst σ) (body.subst σ)
  | attr subject key value body => attr subject key (value.subst σ) (body.subst σ)
  | assert cond message body => assert (cond.subst σ) (message.subst σ) (body.subst σ)
  | loop v min extent kind body => loop v (min.subst σ) (extent.subst σ) kind (body.subst σ)
  | store buffer value index pred =>
    store (buffer.subst σ) (value.subst σ) (index.subst σ) (pred.map (·.subst σ))
  | provide op output value args =>
    provide op output (value.subst σ) (args.map (·.subst σ))
  | allocate site buffer dtype extents cond body =>
    allocate site buffer dtype (extents.map (·.subst σ)) (cond.subst σ) (body.subst σ)
  | realize op output dtype bounds cond body =>
    realize op output dtype (bounds.map (·.subst σ)) (cond.subst σ) (body.subst σ)
  | prefetch op output dtype bounds => prefetch op output dtype (bounds.map (·.subst σ))
  | seq ss => seq (onStmts σ ss)
  | branch cond onTrue none => branch (cond.subst σ) (onTrue.subst σ) none
  | branch cond onTrue (some onFalse) =>
    branch (cond.subst σ) (onTrue.subst σ) (some (onFalse.subst σ))
  | eval e => eval (e.subst σ)
where
  /-- Puts expressions for variables in each of several statements. -/
  onStmts (σ : Subst) : List Stmt → List Stmt
    | [] => []
    | s :: ss => s.subst σ :: onStmts σ ss

end Stmt

end TensorNest
