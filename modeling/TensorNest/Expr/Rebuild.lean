import TensorNest.Expr.Basic

/-!
# Rebuilding expressions

`Expr.rebuildM` replaces the parts of an expression and then the expression made of the new parts.
`Expr.subst` puts expressions for variables. Neither enters the combiner and the axes of a reduction,
nor renames the variables that an expression binds.
-/

namespace TensorNest

/-- Expressions to put for variables. The first entry of a variable counts. -/
abbrev Subst := List (Var × Expr)

namespace Subst

/-- What is put for a variable. -/
def find? (s : Subst) (v : Var) : Option Expr :=
  (List.find? (fun p => p.1.id == v.id) s).map (·.2)

/-- The substitution of a list of assignments in which the last one of a variable counts. -/
def ofList (ps : List (Var × Expr)) : Subst :=
  ps.reverse

end Subst

namespace Expr

variable {m : Type → Type} [Monad m]

/-- Replaces the parts of an expression, left to right, then the expression made of them. -/
def rebuildM (f : Expr → m Expr) : Expr → m Expr
  | var v => f (var v)
  | const v t => f (const v t)
  | str s => f (str s)
  | cast t a => do f (cast t (← a.rebuildM f))
  | bin op a b => do
    let a ← a.rebuildM f
    let b ← b.rebuildM f
    f (bin op a b)
  | not a => do f (not (← a.rebuildM f))
  | select c t e => do
    let c ← c.rebuildM f
    let t ← t.rebuildM f
    let e ← e.rebuildM f
    f (select c t e)
  | call t name args kind func index => do
    let args ← onList args
    f (call t name args kind func index)
  | bind v value body => do
    let value ← value.rebuildM f
    let body ← body.rebuildM f
    f (bind v value body)
  | load t buffer index pred => do
    let buffer ← buffer.rebuildM f
    let index ← index.rebuildM f
    let pred ← onOption pred
    f (load t buffer index pred)
  | ramp base stride lanes => do
    let base ← base.rebuildM f
    let stride ← stride.rebuildM f
    f (ramp base stride lanes)
  | broadcast a lanes => do f (broadcast (← a.rebuildM f) lanes)
  | reduce combiner sources axes cond index => do
    let sources ← onList sources
    let cond ← onOption cond
    f (reduce combiner sources axes cond index)
where
  /-- Rebuilds expressions, left to right. -/
  onList : List Expr → m (List Expr)
    | [] => pure []
    | e :: es => do
      let e ← e.rebuildM f
      let es ← onList es
      pure (e :: es)
  /-- Rebuilds an expression that may be missing. -/
  onOption : Option Expr → m (Option Expr)
    | none => pure none
    | some e => do
      let e ← e.rebuildM f
      pure (some e)

/-- Rebuilds every part of an expression. -/
def rebuild (f : Expr → Expr) (e : Expr) : Expr :=
  Id.run (e.rebuildM fun e => pure (f e))

/-- Puts expressions for variables. -/
def subst (s : Subst) : Expr → Expr
  | var v => (s.find? v).getD (var v)
  | const v t => const v t
  | str t => str t
  | cast t a => cast t (a.subst s)
  | bin op a b => bin op (a.subst s) (b.subst s)
  | not a => not (a.subst s)
  | select c t e => select (c.subst s) (t.subst s) (e.subst s)
  | call t name args kind func index => call t name (onList args) kind func index
  | bind v value body => bind v (value.subst s) (body.subst s)
  | load t buffer index pred => load t (buffer.subst s) (index.subst s) (onOption pred)
  | ramp base stride lanes => ramp (base.subst s) (stride.subst s) lanes
  | broadcast a lanes => broadcast (a.subst s) lanes
  | reduce combiner sources axes cond index =>
    reduce combiner (onList sources) axes (onOption cond) index
where
  /-- Puts expressions for variables in each of several expressions. -/
  onList : List Expr → List Expr
    | [] => []
    | e :: es => e.subst s :: onList es
  /-- Puts expressions for variables in an expression that may be missing. -/
  onOption : Option Expr → Option Expr
    | none => none
    | some e => some (e.subst s)

end Expr

/-- Puts expressions for variables in a range. -/
def Range.subst (s : Subst) (r : Range) : Range :=
  ⟨r.min.subst s, r.extent.subst s⟩

end TensorNest
