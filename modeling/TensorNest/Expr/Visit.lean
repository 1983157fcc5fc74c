import TensorNest.Expr.Basic

/-!
# Visiting expressions

`Expr.postorder` lists an expression and all its parts, parts before the whole and from left to right.
The buffer is a part of the load that reads it; the variable that an expression binds,
the combiner and the axes of a reduction are not parts.
-/

namespace TensorNest

namespace Expr

/-- An expression and its parts, each after its own parts. -/
def postorder : Expr → List Expr
  | e@(var _) | e@(const ..) | e@(str _) => [e]
  | e@(cast _ a) => a.postorder ++ [e]
  | e@(bin _ a b) => a.postorder ++ b.postorder ++ [e]
  | e@(not a) => a.postorder ++ [e]
  | e@(select c t f) => c.postorder ++ t.postorder ++ f.postorder ++ [e]
  | e@(call _ _ args ..) => ofList args ++ [e]
  | e@(bind _ value body) => value.postorder ++ body.postorder ++ [e]
  | e@(load _ buffer index pred) => buffer.postorder ++ index.postorder ++ ofOption pred ++ [e]
  | e@(ramp base stride _) => base.postorder ++ stride.postorder ++ [e]
  | e@(broadcast a _) => a.postorder ++ [e]
  | e@(reduce _ sources _ cond _) => ofList sources ++ ofOption cond ++ [e]
where
  /-- The parts of several expressions. -/
  ofList : List Expr → List Expr
    | [] => []
    | e :: es => e.postorder ++ ofList es
  /-- The parts of an expression that may be missing. -/
  ofOption : Option Expr → List Expr
    | none => []
    | some e => e.postorder

/-- The variable that an expression is. -/
def asVar? : Expr → Option Var
  | var v => some v
  | _ => none

/-- Whether an expression is a variable. -/
def isVar (v : Var) : Expr → Bool
  | var w => w.id == v.id
  | _ => false

/-- Whether an expression reads memory at its root. -/
def isLoad : Expr → Bool
  | load .. => true
  | _ => false

/-- The variables used in an expression, once for each use. -/
def vars (e : Expr) : List Var :=
  e.postorder.filterMap asVar?

/-- Whether an expression uses one of some variables. -/
def usesAny (e : Expr) (ids : List Nat) : Bool :=
  e.vars.any fun v => ids.contains v.id

/-- Whether an expression uses a variable. -/
def uses (e : Expr) (v : Var) : Bool :=
  e.usesAny [v.id]

/-- Whether an expression reads memory. -/
def hasLoad (e : Expr) : Bool :=
  e.postorder.any isLoad

/-- The tensor reads in an expression: the operation read, the output and the indices. -/
def tensorReads (e : Expr) : List (OpRef × Int × List Expr) :=
  e.postorder.filterMap fun
    | call _ _ args .tensorRead (some f) index => some (f, index.toInt, args)
    | _ => none

end Expr

end TensorNest
