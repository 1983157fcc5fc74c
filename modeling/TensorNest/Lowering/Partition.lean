import TensorNest.Expr.Linear
import TensorNest.Expr.Simplify
import TensorNest.Graph.Basic
import TensorNest.Stmt.Rebuild

/-!
# Partitioned loops

A loop whose body is guarded by a likely condition that holds up to some value of the loop variable is
split there: the first part needs no guard, the rest keeps it. Loops of constant extent are split only
if that is asked for.
-/

namespace TensorNest

/-- The first value of a variable for which a likely condition fails, if the condition is a strict
    upper bound that is linear in the variable with coefficient one. -/
def Expr.splitPoint? (cond : Expr) (v : Var) : Except Error (Option Expr) := do
  if !cond.isIntrinsic "likely" then return none
  match cond with
  | .call _ _ (.bin .lt a b :: _) _ _ _ =>
    match ← (← (← Expr.sub a b).simplify).linearIn? (some (.var v)) with
    | some (1, rest) => return some (← (← Expr.neg rest).simplify)
    | _ => return none
  | _ => return none

namespace Stmt

/-- The values at which the guards on a variable in a statement start to fail. -/
def splitPoints (s : Stmt) (v : Var) : Except Error (List Expr) := do
  let points ← s.stmts.mapM fun
    | branch cond _ _ => cond.splitPoint? v
    | _ => return none
  return points.filterMap id

/-- A statement without its guards on a variable. -/
def withoutGuards (v : Var) (s : Stmt) : Except Error Stmt :=
  s.rebuildM pure fun
    | branch cond onTrue onFalse => do
      match ← cond.splitPoint? v with
      | some _ => return onTrue
      | none => return branch cond onTrue onFalse
    | s => return s

/-- Splits a loop where its guards start to fail, the points being kept inside the loop. -/
def splitLoop (v : Var) (min extent : Expr) (kind : LoopKind) (body : Stmt) (points : List Expr) :
    Build Stmt := do
  let point ← points.tail.foldlM (fun (p q : Expr) => liftM (Expr.minimum p q)) (points.headD min)
  let stop ← Expr.add min extent
  let point ← (← Expr.maximum min (← Expr.minimum point stop)).simplify
  let unguarded ← body.withoutGuards v
  let first ← freshVar v.name v.dtype
  let firstExtent ← (← Expr.sub point min).simplify
  let restExtent ← (← Expr.sub stop point).simplify
  return ofList [
    loop first min firstExtent kind (unguarded.subst [(v, .var first)]),
    loop v point restExtent kind body]

/-- Splits the loops of a statement at their guards. -/
def partition (constLoops : Bool) (s : Stmt) : Build Stmt :=
  s.rebuildM pure fun
    | loop v min extent kind body => do
      if extent.isConst && !constLoops then return loop v min extent kind body
      match ← body.splitPoints v with
      | [] => return loop v min extent kind body
      | points => splitLoop v min extent kind body points
    | s => return s

end Stmt

end TensorNest
