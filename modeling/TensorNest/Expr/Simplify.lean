import TensorNest.Expr.Linear
import TensorNest.Expr.Rebuild
import TensorNest.Revised

/-!
# Canonical expressions

Simplification brings integer sums and products to linear form, decides comparisons and extrema whose
sides differ by a constant, removes exact divisions, and folds constants. Bindings of a constant or of
a variable are carried out. A node none of whose parts has changed is kept as it is, also where the
builders would fold or coerce it.
-/

namespace TensorNest

namespace Expr

/-- The type of an expression after a substitution. -/
def dtypeUnder (s : Subst) : Expr → DataType
  | var v => ((s.find? v).getD (var v)).dtype
  | const _ t => t
  | str _ => .handle
  | cast t _ => t
  | bin op a _ =>
    if op.isLogical then DataType.bool.withLanes (a.dtypeUnder s).lanes else a.dtypeUnder s
  | not a => a.dtypeUnder s
  | select _ t _ => t.dtypeUnder s
  | call t .. => t
  | bind _ _ body => body.dtypeUnder s
  | load t .. => t
  | ramp base _ lanes => (base.dtypeUnder s).withLanes lanes
  | broadcast e lanes => (e.dtypeUnder s).withLanes lanes
  | reduce combiner _ _ _ i => (itemAt? (dtype.ofReducer combiner) i).getD .int32

/-- Whether an expression is a constant or a variable. -/
def isLeaf : Expr → Bool
  | const .. | var _ => true
  | _ => false

/-- A division or remainder by a positive constant that divides the linear form of the dividend. -/
def divMod? (op : BinOp) (a b : Expr) : Except Error (Option Expr) :=
  match b with
  | .const v _ => do
    if v.le (.int 0) then return none
    let d ← v.toInt
    if d = 1 then
      if op = .div then return some a else return some (← ofInt 0 a.dtype)
    let l ← Linear.ofExpr a
    if !l.divisibleBy d then return none
    if op = .mod then return some (← ofInt 0 a.dtype)
    return some (← (l.quotient d).toExpr a.dtype)
  | _ => .ok none

/-- Whether a comparison holds for the difference of its sides. -/
def compareDiff (op : BinOp) (d : Int) : Bool :=
  match op with
  | .eq => d == 0
  | .ne => d != 0
  | .lt => d < 0
  | .le => d ≤ 0
  | .gt => d > 0
  | .ge => d ≥ 0
  | _ => false

/-- The rules for an operation on simplified sides, `t` being the type of the operation. -/
def binRule? (op : BinOp) (t : DataType) (a b : Expr) : Except Error (Option Expr) := do
  let integer := t.isInteger && t.lanes == 1
  match op with
  | .add | .sub | .mul =>
    if integer then return some (← (← Linear.ofExpr (.bin op a b)).toExpr t)
    return none
  | .div | .mod => if integer then divMod? op a b else return none
  | .min | .max =>
    match ← constDiff? a b with
    | some d => return some (if (if op = .min then d ≤ 0 else d ≥ 0) then a else b)
    | none => return if a.same b then some a else none
  | .and | .or => return none
  | op =>
    match ← constDiff? a b with
    | some d => return some (bool (compareDiff op d))
    | none => return none

/-- An operation on simplified sides: its rule, or the builder if a side has changed or both are
    constants. -/
def simplifyBin (op : BinOp) (t : DataType) (a b : Revised Expr) :
    Except Error (Revised Expr) := do
  match ← binRule? op t a.term b.term with
  | some e => return ⟨e, true⟩
  | none =>
    if !a.changed && !b.changed && !(a.term.isConst && b.term.isConst) then
      return ⟨bin op a.term b.term, false⟩
    return ⟨← binary op a.term b.term, true⟩

/-- A call with simplified arguments; a mark of likelihood on a constant is removed. -/
def simplifyCall (e : Expr) (changed : Bool) : Revised Expr :=
  match e with
  | .call _ "likely" (c@(.const ..) :: _) _ _ _ => ⟨c, true⟩
  | e => ⟨e, changed⟩

/-- A substitution followed by that of a variable. -/
def andThen (s : Subst) (v : Var) (e : Expr) : Subst :=
  s.map (fun p => (p.1, p.2.subst [(v, e)])) ++ [(v, e)]

/-- Simplifies the result of a substitution of constants and variables. -/
def simplifyUnder (s : Subst) : Expr → Except Error (Revised Expr)
  | var v => .ok ⟨(s.find? v).getD (var v), false⟩
  | const v t => .ok ⟨const v t, false⟩
  | str t => .ok ⟨str t, false⟩
  | cast t a => do
    let a ← a.simplifyUnder s
    return ⟨← castTo t a.term, true⟩
  | bin op a b => do
    let x ← a.simplifyUnder s
    let y ← b.simplifyUnder s
    simplifyBin op ((bin op a b).dtypeUnder s) x y
  | not a => do
    let a ← a.simplifyUnder s
    return ⟨← logicalNot a.term, true⟩
  | select c t f => do
    let c ← c.simplifyUnder s
    let t ← t.simplifyUnder s
    let f ← f.simplifyUnder s
    if t.term.same f.term then return ⟨t.term, true⟩
    return ⟨← choose c.term t.term f.term, true⟩
  | call t name args kind func index => do
    let (args, changed) ← onList args
    return simplifyCall (call t name args kind func index) changed
  | bind v value body => do
    let value ← value.simplifyUnder s
    if value.term.isLeaf then
      let body ← body.simplifyUnder (andThen s v value.term)
      return ⟨body.term, true⟩
    let body ← body.simplifyUnder s
    return ⟨bind v value.term body.term, value.changed || body.changed⟩
  | load t buffer index pred => do
    let buffer ← buffer.simplifyUnder s
    let index ← index.simplifyUnder s
    let (pred, changed) ← onOption pred
    return ⟨load t buffer.term index.term pred, buffer.changed || index.changed || changed⟩
  | ramp base stride lanes => do
    let base ← base.simplifyUnder s
    let stride ← stride.simplifyUnder s
    return ⟨ramp base.term stride.term lanes, base.changed || stride.changed⟩
  | broadcast a lanes => do
    let a ← a.simplifyUnder s
    return ⟨broadcast a.term lanes, a.changed⟩
  | reduce combiner sources axes cond index => do
    let (sources, x) ← onList sources
    let (cond, y) ← onOption cond
    return ⟨reduce combiner sources axes cond index, x || y⟩
where
  /-- Simplifies expressions, left to right. -/
  onList : List Expr → Except Error (List Expr × Bool)
    | [] => .ok ([], false)
    | e :: es => do
      let e ← e.simplifyUnder s
      let (es, changed) ← onList es
      return (e.term :: es, e.changed || changed)
  /-- Simplifies an expression that may be missing. -/
  onOption : Option Expr → Except Error (Option Expr × Bool)
    | none => .ok (none, false)
    | some e => do
      let e ← e.simplifyUnder s
      return (some e.term, e.changed)

/-- The canonical form of an expression. -/
def simplify (e : Expr) : Except Error Expr := do
  return (← e.simplifyUnder []).term

/-- Whether simplification shows that a condition always holds. -/
def canProve (e : Expr) : Except Error Bool := do
  match ← e.simplify with
  | .const v _ => return v.truthy
  | _ => return false

end Expr

/-- The canonical form of a range. -/
def Range.simplify (r : Range) : Except Error Range := do
  let min ← r.min.simplify
  let extent ← r.extent.simplify
  return ⟨min, extent⟩

end TensorNest
