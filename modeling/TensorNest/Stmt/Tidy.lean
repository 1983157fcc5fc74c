import TensorNest.Expr.Build
import TensorNest.Revised
import TensorNest.Stmt.Basic

/-!
# Statements without effect

Removes what has no effect: evaluations of constants, and the loops, conditions, allocations,
attributes and bindings around nothing. Assertions are kept. A sequence that loses no item and none of
whose items changes is kept as it is; any other is opened into the sequence around it.
-/

namespace TensorNest

namespace Stmt

/-- The statement that does nothing, in place of another. -/
def nothing : Revised Stmt := ⟨noOp, true⟩

/-- A statement around a tidied body, nothing if the body has no effect. -/
def around (f : Stmt → Stmt) (body : Revised Stmt) : Revised Stmt :=
  if body.term.isNoOp then nothing else ⟨f body.term, body.changed⟩

/-- A sequence of tidied statements. -/
def tidySeq (ss : List (Revised Stmt)) : Revised Stmt :=
  let kept := ss.filter fun t => !t.term.isNoOp
  if kept.length = ss.length && !ss.any (·.changed) then ⟨seq (ss.map (·.term)), false⟩
  else ⟨ofList (kept.map (·.term)), true⟩

/-- A condition on tidied branches. -/
def tidyBranch (cond : Expr) (onTrue : Revised Stmt) (onFalse : Option (Revised Stmt)) :
    Except Error (Revised Stmt) := do
  let kept := onFalse.filter fun t => !t.term.isNoOp
  if onTrue.term.isNoOp then
    match kept with
    | none => return nothing
    | some f => return ⟨branch (← Expr.logicalNot cond) f.term none, true⟩
  let changed := onTrue.changed || (onFalse.map (·.changed)).getD false ||
    kept.isSome != onFalse.isSome
  return ⟨branch cond onTrue.term (kept.map (·.term)), changed⟩

/-- Removes what has no effect, and tells whether anything was removed. -/
def tidied : Stmt → Except Error (Revised Stmt)
  | bind v value body => do return around (bind v value) (← body.tidied)
  | attr subject key value body => do return around (attr subject key value) (← body.tidied)
  | assert cond message body => do
    let body ← body.tidied
    return ⟨assert cond message body.term, body.changed⟩
  | loop v min extent kind body => do
    let body ← body.tidied
    if extent.isConstInt 0 then return nothing
    return around (loop v min extent kind) body
  | allocate site buffer dtype extents cond body => do
    return around (allocate site buffer dtype extents cond) (← body.tidied)
  | realize op output dtype bounds cond body => do
    let body ← body.tidied
    return ⟨realize op output dtype bounds cond body.term, body.changed⟩
  | seq ss => do return tidySeq (← onList ss)
  | branch cond onTrue none => do tidyBranch cond (← onTrue.tidied) none
  | branch cond onTrue (some onFalse) => do
    let onTrue ← onTrue.tidied
    tidyBranch cond onTrue (some (← onFalse.tidied))
  | eval e => return if e.isConst then nothing else ⟨eval e, false⟩
  | s => return ⟨s, false⟩
where
  /-- Removes what has no effect in several statements. -/
  onList : List Stmt → Except Error (List (Revised Stmt))
    | [] => return []
    | s :: ss => do
      let s ← s.tidied
      return s :: (← onList ss)

/-- Removes what has no effect. -/
def tidy (s : Stmt) : Except Error Stmt := do
  return (← s.tidied).term

end Stmt

end TensorNest
