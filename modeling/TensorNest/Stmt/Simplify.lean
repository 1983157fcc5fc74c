import TensorNest.Expr.Simplify
import TensorNest.Stmt.Rebuild

/-!
# Simple statements

`Stmt.canonical` brings the expressions of a statement to canonical form. `Stmt.simplify` also
replaces loops of one iteration by their body, takes the branch of constant conditions, and carries
out bindings of constants and of variables.
-/

namespace TensorNest

namespace Stmt

/-- A statement with all expressions in canonical form. -/
def canonical (s : Stmt) : Except Error Stmt :=
  s.mapExprsM Expr.simplify

/-- A substitution keeps the number of statements. -/
theorem size_subst (σ : Subst) : (s : Stmt) → (s.subst σ).size = s.size
  | bind _ _ body => by simp [subst, size, size_subst σ body]
  | attr _ _ _ body => by simp [subst, size, size_subst σ body]
  | assert _ _ body => by simp [subst, size, size_subst σ body]
  | loop _ _ _ _ body => by simp [subst, size, size_subst σ body]
  | store .. => by simp [subst, size]
  | provide .. => by simp [subst, size]
  | allocate _ _ _ _ _ body => by simp [subst, size, size_subst σ body]
  | realize _ _ _ _ _ body => by simp [subst, size, size_subst σ body]
  | prefetch .. => by simp [subst, size]
  | seq ss => by simp [subst, size, sizes_subst ss]
  | branch _ t none => by simp [subst, size, size_subst σ t]
  | branch _ t (some f) => by simp [subst, size, size_subst σ t, size_subst σ f]
  | eval _ => by simp [subst, size]
where
  /-- A substitution keeps the number of statements in several statements. -/
  sizes_subst : (ss : List Stmt) → size.sizes (subst.onStmts σ ss) = size.sizes ss
    | [] => by simp [subst.onStmts, size.sizes]
    | s :: ss => by simp [subst.onStmts, size.sizes, size_subst σ s, sizes_subst ss]

/-- A statement counts at least itself. -/
theorem size_pos (s : Stmt) : 0 < s.size := by
  cases s with
  | branch c t f => cases f <;> simp [size]
  | _ => simp [size]

mutual

/-- Simplifies a statement. -/
def simplify : Stmt → Except Error Stmt
  | bind v value body => do
    let value ← value.simplify
    if value.isLeaf then (body.subst [(v, value)]).simplify
    else return bind v value (← body.simplify)
  | attr subject key value body => do
    let value ← value.simplify
    return attr subject key value (← body.simplify)
  | assert cond message body => do
    let cond ← cond.simplify
    let message ← message.simplify
    return assert cond message (← body.simplify)
  | loop v min extent kind body => do
    let extent ← extent.simplify
    if extent.isConstInt 1 then (body.subst [(v, min)]).simplify
    else
      let min ← min.simplify
      return loop v min extent kind (← body.simplify)
  | store buffer value index pred => do
    let buffer ← buffer.simplify
    let value ← value.simplify
    let index ← index.simplify
    return store buffer value index (← mapGuardM Expr.simplify pred)
  | provide op output value args => do
    let value ← value.simplify
    return provide op output value (← args.mapM Expr.simplify)
  | allocate site buffer dtype extents cond body => do
    let extents ← extents.mapM Expr.simplify
    let cond ← cond.simplify
    return allocate site buffer dtype extents cond (← body.simplify)
  | realize op output dtype bounds cond body => do
    let bounds ← bounds.mapM Range.simplify
    let cond ← cond.simplify
    return realize op output dtype bounds cond (← body.simplify)
  | prefetch op output dtype bounds => do
    return prefetch op output dtype (← bounds.mapM Range.simplify)
  | seq ss => do return seq (← simplifyList ss)
  | branch cond onTrue onFalse => do
    let cond ← cond.simplify
    match cond, onFalse with
    | .const v _, none => if v.truthy then onTrue.simplify else return noOp
    | .const v _, some onFalse => if v.truthy then onTrue.simplify else onFalse.simplify
    | cond, none => return branch cond (← onTrue.simplify) none
    | cond, some onFalse => do
      let onTrue ← onTrue.simplify
      return branch cond onTrue (some (← onFalse.simplify))
  | eval e => do return eval (← e.simplify)
termination_by s => (s.size, 0)
decreasing_by
  all_goals simp only [Prod.lex_def, size, size_subst]
  all_goals omega

/-- Simplifies several statements. -/
def simplifyList : List Stmt → Except Error (List Stmt)
  | [] => return []
  | s :: ss => do
    let s ← s.simplify
    return s :: (← simplifyList ss)
termination_by ss => (size.sizes ss, 1)
decreasing_by
  all_goals simp only [Prod.lex_def, size.sizes]
  · omega
  · have := size_pos s
    omega

end

end Stmt

end TensorNest
