import TensorNest.Expr.Print
import TensorNest.Run.Intrinsic

/-!
# Evaluation of expressions

The value of an expression under the values of its variables. Operands are evaluated from left to right,
the result of an arithmetic operation is converted to the type of the expression, and only the chosen
branch of a conditional call is evaluated.
-/

namespace TensorNest

/-- The value of an arithmetic operation whose result has a data type. -/
def arithmetic (op : BinOp) (t : DataType) (a b : Numeric) : Except Error Numeric :=
  match op with
  | .add => a.add b
  | .sub => a.sub b
  | .mul => a.mul b
  | .min => a.min b
  | .max => a.max b
  | .div => if t.isFloat then a.ratio b else a.quot b
  | .mod => if t.isFloat then a.fmod b else a.rem b
  | .and => a.connect (· && ·) b
  | .or => a.connect (· || ·) b
  | op => a.compare op b

/-- The value of an operation on texts: their comparison, or one after the other. -/
def combineTexts (op : BinOp) (a b : String) : Except Error Value :=
  let answer (p : Bool) : Except Error Value := .ok (.scalar .bool (.bool p))
  match op with
  | .add => .ok (.text (a ++ b))
  | .eq => answer (a == b)
  | .ne => answer (a != b)
  | .lt => answer (a < b)
  | .le => answer !(b < a)
  | .gt => answer (b < a)
  | .ge => answer !(a < b)
  | _ => .error .invalidOperand

/-- A value as a condition: what is no number counts as true or false as a whole. -/
def condition (c : Value) : Run Numeric := do
  let m := (← get).memory
  match c.numeric m with
  | .ok p => return p
  | .error _ => return .free (.bool (← c.truth m))

/-- The value of a binary operation whose result has a data type. -/
def combine (op : BinOp) (t : DataType) (x y : Value) : Run Value := do
  if op = .and || op = .or then
    return .ofNumeric (← arithmetic op t (← condition x) (← condition y))
  let v ← match x, y with
    | .text a, .text b => combineTexts op a b
    | x, y => do pure (Value.ofNumeric (← arithmetic op t (← operand x) (← operand y)))
  if op.isLogical then return v else convertTo t v

/-- The value that a condition chooses: lane by lane if all are numbers. -/
def chosen (c x y : Value) : Run Value := do
  let m := (← get).memory
  match x.numeric m, y.numeric m with
  | .ok a, .ok b => return .ofNumeric (← (← condition c).select a b)
  | _, _ => return if ← c.truth m then x else y

/-- The value of a call of a function by name. -/
def callNamed (f : Frame) (t : DataType) (name : String) (args : List Value) : Run Value :=
  match Intrinsic.ofName? name with
  | some i => i.apply f t args
  | none =>
    match MathFunction.ofName? name with
    | some g => do convertTo t (.ofNumeric (← g.apply (← args.mapM operand)))
    | none => throw (.unknownFunction f.name name)

/-- The elements of a buffer at an index, where a mask that does not hold stands for index zero. -/
def loadFrom (f : Frame) (v : Expr) (a : View) (index : Value) (mask : Option Value) : Run Value := do
  let i ← operand index
  let i ← match mask with
    | some p => (← operand p).select i (.free (.int 0))
    | none => pure i
  f.checkIndex v a i
  loadAt a i

/-- Stores a value in a buffer at an index, in the lanes where a mask holds. -/
def storeTo (f : Frame) (v : Expr) (a : View) (index value : Value) (mask : Option Value) :
    Run Unit := do
  let i ← operand index
  match mask with
  | some p =>
    let (i, x) ← masked (← operand p) i (← operand value)
    f.checkIndex v a i
    storeAt a i (.ofNumeric x)
  | none =>
    f.checkIndex v a i
    storeAt a i value

/-- The value of an expression. -/
def Expr.eval (f : Frame) (env : Env) : Expr → Run Value
  | var v =>
    match env.get? v with
    | some x => return x
    | none => throw (f.missing ("unbound variable " ++ v.name))
  | const x t => convertTo t (.number x)
  | str s => return .text s
  | cast t a => do convertTo t (← a.eval f env)
  | bin op a b => do
    let x ← a.eval f env
    let y ← b.eval f env
    combine op a.dtype x y
  | not a => do return .ofNumeric (← condition (← a.eval f env)).not
  | select c a b => do
    let p ← c.eval f env
    let x ← a.eval f env
    let y ← b.eval f env
    convertTo a.dtype (← chosen p x y)
  | call t name args kind _ _ =>
    if kind = .tensorRead then throw (.tensorAccess f.name name)
    else if name == "xte_if_then_else" then branch args
    else if name == "xte_address_of" then address args
    else do callNamed f t name (← evalAll args)
  | bind v value body => do
    let x ← place (← value.eval f env)
    body.eval f (env.set v x)
  | load t v index pred => do
    let a ← f.buffer env v
    let i ← index.eval f env
    convertTo t (← loadFrom f v a i (← evalMask pred))
  | ramp base stride lanes => do
    let x ← base.eval f env
    let y ← stride.eval f env
    convertTo (base.dtype.withLanes lanes)
      (.ofNumeric (← (← operand x).ramp (← operand y) lanes))
  | broadcast a lanes => do convertTo (a.dtype.withLanes lanes) (← a.eval f env)
  | reduce .. => throw (.exprUnsupported f.name "reduce")
where
  /-- The values of expressions, from left to right. -/
  evalAll : List Expr → Run (List Value)
    | [] => return []
    | e :: es => do
      let x ← e.eval f env
      return x :: (← evalAll es)
  /-- The value of a mask, if there is one. -/
  evalMask : Option Expr → Run (Option Value)
    | none => return none
    | some p => do return some (← p.eval f env)
  /-- The value of the branch that a condition chooses. -/
  branch : List Expr → Run Value
    | [c, a, b] => do
      let p ← c.eval f env
      if ← p.truth (← get).memory then a.eval f env else b.eval f env
    | _ :: _ :: _ :: _ :: _ => throw (.invalidValue "too many values to unpack (expected 3)")
    | es => throw (.invalidValue ("not enough values to unpack (expected 3, got " ++
        toString es.length ++ ")"))
  /-- The address of the element that a load reads. -/
  address : List Expr → Run Value
    | load _ v index _ :: _ => do
      let a ← f.buffer env v
      return .pointer a (← index.eval f env)
    | e :: _ => throw (.assertion ("address of a non load: " ++ e.text))
    | [] => throw .invalidOperand

end TensorNest
