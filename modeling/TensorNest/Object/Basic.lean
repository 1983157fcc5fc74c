import TensorNest.Config
import TensorNest.Expr.Linear
import TensorNest.Graph.Tensor
import TensorNest.Run.Value
import TensorNest.Stmt.Rebuild
import TensorNest.Stmt.Visit
import TensorNest.Target

/-!
# Objects

An object is anything that a session can hold under a name: numbers and texts, the terms and statements of
programs, tensors and operations, and what stands in the session itself, which is named by its number.

The items of a list carry marks, since parts of programs in a list are told apart by identity and not by
what they are made of: items of one mark are one and the same object. The mark zero tells nothing.
-/

namespace TensorNest

/-- An object of a session. Of an `other` object only its kind is known. -/
inductive Object where
  | nothing
  | number (v : Number)
  | text (s : String)
  | list (xs : List (Nat × Object))
  | sized (type : ElemType) (v : Number)
  | dtype (t : DataType)
  | callKind (k : CallKind)
  | iterKind (k : IterKind)
  | expr (e : Expr)
  | stmt (s : Stmt)
  | axis (iv : IterVar)
  | range (r : Range)
  | reducer (r : Reducer)
  | tensor (t : Tensor)
  | op (o : Operation)
  | buffer (b : Buffer)
  | func (f : Func)
  | stage (schedule id : Nat)
  | schedule (id : Nat)
  | target (t : Target)
  | config (c : Config)
  | module (id : Nat)
  | built (module : Nat) (symbols : List (String × String))
  | entry (e : Entry)
  | array (v : View)
  | other (kind : String)
  deriving Inhabited

namespace Object

/-- A list of objects of which nothing is known but what they are. -/
def ofList (xs : List Object) : Object :=
  list (xs.map fun x => (0, x))

/-- The kind of an object, as shown in messages. -/
def kindName : Object → String
  | nothing => "NoneType"
  | number v => v.kindName
  | text _ => "str"
  | list _ => "list"
  | sized t _ => t.name
  | dtype _ => "DataType"
  | callKind _ => "CallType"
  | iterKind _ => "IterVarType"
  | expr e => e.kindName
  | stmt s => s.kindName
  | axis _ => "IterVar"
  | range _ => "Range"
  | reducer _ => "CommReducer"
  | tensor _ => "Tensor"
  | op o => if o.isCompute then "ComputeOp" else "PlaceholderOp"
  | buffer _ => "Buffer"
  | func _ => "LoweredFunc"
  | stage .. => "Stage"
  | schedule _ => "Schedule"
  | target _ => "TargetInfo"
  | config _ => "BuildConfig"
  | module _ => "InterpModule"
  | built .. => "BuiltFunctions"
  | entry e => e.kindName
  | array _ => "ndarray"
  | other kind => kind

/-- The plain number that an object is. The kinds of calls and axes count as their numbers. -/
def number? : Object → Option Number
  | number v => some v
  | callKind k => some (.int k.toNat)
  | iterKind k => some (.int k.toNat)
  | _ => none

/-- The number that an object is, with or without a size. -/
def scalar? : Object → Option Number
  | sized _ v => some v
  | x => x.number?

/-- The object of an operand. -/
def ofOperand : Operand → Object
  | .nothing => nothing
  | .number v => number v
  | .text s => text s
  | .expr e => expr e
  | .axis iv => axis iv
  | .sized t v => sized t v
  | .dtype t => dtype t
  | .callKind k => callKind k
  | .iterKind k => iterKind k
  | .range r => range r
  | .reducer r => reducer r
  | .buffer b => buffer b
  | .list xs => list (ofOperands xs)
  | x => other x.kindName
where
  /-- The objects of operands. -/
  ofOperands : List Operand → List (Nat × Object)
    | [] => []
    | x :: xs => (0, ofOperand x) :: ofOperands xs

/-- The value that a function gets for an object. -/
def value : Object → Value
  | nothing => .nothing
  | text s => .text s
  | list xs => .list (values xs)
  | sized t v => .scalar t v
  | entry e => .function e
  | array v => .array v
  | x =>
    match x.number? with
    | some v => .number v
    | none => .other x.kindName
where
  /-- The values of objects. -/
  values : List (Nat × Object) → List Value
    | [] => []
    | (_, x) :: xs => x.value :: values xs

/-! ### What objects stand for -/

/-- The data type of a term, of an axis, of a tensor or of a buffer. -/
def dataType : Object → Except Error DataType
  | expr e => .ok e.dtype
  | axis iv => .ok iv.dtype
  | tensor t => .ok t.dtype
  | buffer b => .ok b.dtype
  | _ => .error .invalidOperand

/-- The extent of a range, or of the domain of an axis if it has one. -/
def extent : Object → Except Error Object
  | axis iv => .ok ((iv.extent?.map expr).getD nothing)
  | range r => .ok (expr r.extent)
  | _ => .error .invalidOperand

/-- The value of a constant, and that of a number. -/
def constValue : Object → Object
  | expr (.const v _) => number v
  | sized (.float 64) v => sized (.float 64) v
  | x => if x.number?.isSome then x else nothing

/-- Whether an object is a constant term. -/
def isConst : Object → Bool
  | expr e => e.isConst
  | _ => false

/-- Whether an object is a constant of an integer type, and the given one if one is given. -/
def isConstInt (x : Object) (n : Option Int) : Bool :=
  match x, n with
  | expr e, some n => e.isConstInt n
  | expr e, none => e.constInt?.isSome
  | _, _ => false

/-- Whether an object is a call of an intrinsic function. -/
def isIntrinsic (x : Object) (name : String) : Except Error Bool :=
  match x with
  | expr e => .ok (e.isIntrinsic name)
  | _ => .error .invalidOperand

/-- Whether an object does nothing when it is run. -/
def isNoOp : Object → Bool
  | nothing => true
  | stmt s => s.isNoOp
  | _ => false

/-- An operation, or that of a tensor. -/
def operation : Object → Except Error Operation
  | tensor t => .ok t.op
  | op o => .ok o
  | _ => .error .invalidOperand

/-- The operations of a list, or that of a single object. -/
def operations : Object → Except Error (List Operation)
  | list xs => xs.mapM fun (_, x) => x.operation
  | x => do return [← x.operation]

/-! ### Walks over terms -/

/-- A function of the terms of an expression, of a statement or of a range. -/
def onTerms {α : Type} (onExpr : Expr → α) (onStmt : Stmt → α) (onRange : Range → α) :
    Object → Except Error α
  | expr e => .ok (onExpr e)
  | stmt s => .ok (onStmt s)
  | range r => .ok (onRange r)
  | _ => .error .invalidOperand

/-- The names of the free variables, in the order of their use. -/
def freeNames : Object → Except Error (List String) :=
  onTerms (fun e => e.freeVars.map (·.name)) (fun s => s.freeVars.map (·.name))
    (fun r => ((({} : Occurrences).expr r.min).expr r.extent).free.map (·.name))

/-- The variable that an object is. -/
def var? : Object → Option Var
  | expr e => e.asVar?
  | _ => none

/-- The variables in an object, once for each use. -/
def vars : Object → Except Error (List Var) :=
  onTerms Expr.vars (fun s => s.exprs.filterMap Expr.asVar?) (fun r => r.min.vars ++ r.extent.vars)

/-- Whether a variable, or one of a list of them, is used. Of something else that is given in place of
    variables no variable can be told apart. -/
def uses (x given : Object) : Except Error Bool := do
  let used ← x.vars
  let isOneOf (vs : List Var) : Bool := used.any fun v => vs.any (·.id == v.id)
  match given with
  | list xs => return isOneOf (xs.filterMap (·.2.var?))
  | given =>
    match given.var? with
    | some v => return isOneOf [v]
    | none => if used.isEmpty then return false else throw .invalidOperand

/-- The labels of all nodes, inner nodes first. -/
def labels : Object → Except Error (List String) :=
  onTerms (fun e => (Stmt.exprNodes e).map (·.label)) (fun s => s.postorder.map (·.label))
    (fun r => (Stmt.rangesNodes [r]).map (·.label))

/-- Splits an expression that is linear in a variable as coefficient and rest. What is no term does not
    occur in the expression. -/
def linearIn? (e : Expr) : Object → Except Error (Option (Int × Expr))
  | expr a => e.linearIn? (some a)
  | list _ | array _ => .error .invalidOperand
  | _ => e.linearIn? none

/-- Replaces variables. Where there is nothing to replace, any object will do. -/
def subst (σ : Subst) (x : Object) : Except Error Object :=
  if σ.isEmpty then .ok x
  else onTerms (fun e => expr (e.subst σ)) (fun s => stmt (s.subst σ)) (fun r => range (r.subst σ)) x

end Object

end TensorNest
