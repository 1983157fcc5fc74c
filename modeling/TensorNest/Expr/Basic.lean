import TensorNest.Number

/-!
# Expressions

Typed scalar and vector expressions over variables, with tensor reads, memory loads and reductions.
Variables are told apart by their number, not by their name. An operation that produces tensors is
named in expressions by a reference only, so that expressions hold no operations.
-/

namespace TensorNest

/-- A variable. Two variables of one name are the same only if they have the same number. -/
structure Var where
  id : Nat
  name : String
  dtype : DataType
  deriving DecidableEq, Repr, Inhabited

/-- A reference to a tensor producing operation: its index is its identity. -/
structure OpRef where
  idx : Nat
  name : String
  isCompute : Bool
  numOutputs : Nat
  deriving DecidableEq, Repr, Inhabited

/-- The binary operations: arithmetic, comparisons and connectives. -/
inductive BinOp where
  | add | sub | mul | div | mod | min | max
  | eq | ne | lt | le | gt | ge
  | and | or
  deriving DecidableEq, Repr, Inhabited

namespace BinOp

/-- Whether the result of an operation is a truth value. -/
def isLogical : BinOp → Bool
  | add | sub | mul | div | mod | min | max => false
  | _ => true

/-- Whether an operation compares its operands. -/
def isComparison : BinOp → Bool
  | eq | ne | lt | le | gt | ge => true
  | _ => false

end BinOp

/-- How a call is carried out. -/
inductive CallKind where
  | external
  | externalCpp
  | pureExternal
  | tensorRead
  | intrinsic
  | pureIntrinsic
  deriving DecidableEq, Repr, Inhabited

/-- The kind of an iteration variable. -/
inductive IterKind where
  | dataParallel
  | threadIndex
  | reduction
  | ordered
  | opaqueAxis
  | unrolled
  | vectorized
  | parallelized
  | tensorized
  deriving DecidableEq, Repr, Inhabited

/-- The number of an output as it is given: an integer, or a truth value that stands for 0 or 1. -/
inductive Ordinal where
  | int (n : Int)
  | flag (b : Bool)
  deriving DecidableEq, Repr, Inhabited

namespace Ordinal

/-- The integer that is given or stood for. -/
def toInt : Ordinal → Int
  | int n => n
  | flag b => b.toInt

/-- An ordinal as it is written. -/
def text : Ordinal → String
  | int n => toString n
  | flag b => if b then "True" else "False"

instance : Coe Int Ordinal := ⟨int⟩
instance (n : Nat) : OfNat Ordinal n := ⟨int (OfNat.ofNat n)⟩

@[simp] theorem toInt_int (n : Int) : (int n).toInt = n := rfl

@[simp] theorem ofNat_eq (n : Nat) : (OfNat.ofNat n : Ordinal) = int (OfNat.ofNat n) := rfl

end Ordinal

mutual

/-- An expression. -/
inductive Expr where
  | var (v : Var)
  | const (value : Number) (dtype : DataType)
  | str (s : String)
  | cast (dtype : DataType) (e : Expr)
  | bin (op : BinOp) (a b : Expr)
  | not (a : Expr)
  | select (cond onTrue onFalse : Expr)
  | call (dtype : DataType) (name : String) (args : List Expr) (kind : CallKind)
      (func : Option OpRef) (index : Ordinal)
  | bind (v : Var) (value body : Expr)
  | load (dtype : DataType) (buffer index : Expr) (pred : Option Expr)
  | ramp (base stride : Expr) (lanes : Int)
  | broadcast (e : Expr) (lanes : Int)
  | reduce (combiner : Reducer) (sources : List Expr) (axes : List IterVar)
      (cond : Option Expr) (index : Int)

/-- The half-open interval from `min` of `extent` integers. -/
structure Range where
  min : Expr
  extent : Expr

/-- An iteration variable: the variable of a loop, its domain, its kind and its thread tag. It is
    identified by its variable. -/
structure IterVar where
  dom : Option Range
  var : Var
  kind : IterKind
  tag : String

/-- How reduction steps combine: `result` in terms of the accumulators `lhs` and the values `rhs`,
    and the identity elements to start from. -/
structure Reducer where
  lhs : List Var
  rhs : List Var
  result : List Expr
  identity : List Expr

end

instance : Inhabited Expr := ⟨.const (.int 0) .int32⟩
instance : Inhabited Range := ⟨⟨default, default⟩⟩
instance : Inhabited IterVar := ⟨⟨none, default, default, ""⟩⟩
instance : Inhabited Reducer := ⟨⟨[], [], [], []⟩⟩

/-- The item at a position; negative positions count from the end. -/
def itemAt? {α : Type} (xs : List α) (i : Int) : Option α :=
  if 0 ≤ i then xs[i.toNat]?
  else if -i ≤ xs.length then xs[xs.length - (-i).toNat]?
  else none

namespace Expr

/-- The data type of an expression; that of a binary operation is read off its left operand. -/
def dtype : Expr → DataType
  | var v => v.dtype
  | const _ t => t
  | str _ => .handle
  | cast t _ => t
  | bin op a _ => if op.isLogical then DataType.bool.withLanes a.dtype.lanes else a.dtype
  | not a => a.dtype
  | select _ t _ => t.dtype
  | call t .. => t
  | bind _ _ body => body.dtype
  | load t .. => t
  | ramp base _ lanes => base.dtype.withLanes lanes
  | broadcast e lanes => e.dtype.withLanes lanes
  | reduce combiner _ _ _ i => (itemAt? (ofReducer combiner) i).getD .int32
where
  /-- The types of the results of a reducer. -/
  ofReducer : Reducer → List DataType
    | ⟨_, _, result, _⟩ => ofList result
  /-- The types of expressions. -/
  ofList : List Expr → List DataType
    | [] => []
    | e :: es => e.dtype :: ofList es

/-- Whether an expression is a constant. -/
def isConst : Expr → Bool
  | const .. => true
  | _ => false

/-- The value of a constant. -/
def constValue? : Expr → Option Number
  | const v _ => some v
  | _ => none

/-- The value of a constant of an integer type. -/
def constInt? : Expr → Option Int
  | const v t => if t.isInteger then v.asInt? else none
  | _ => none

/-- Whether an expression is the constant `n` of an integer type. -/
def isConstInt (e : Expr) (n : Int) : Bool :=
  e.constInt? == some n

/-- Whether an expression is a scalar of an integer type. -/
def isIntScalar (e : Expr) : Bool :=
  e.dtype.isInteger && e.dtype.lanes == 1

/-- Whether an expression is a call of an intrinsic of that name. -/
def isIntrinsic (name : String) : Expr → Bool
  | call _ n _ kind _ _ => n == name && (kind == .intrinsic || kind == .pureIntrinsic)
  | _ => false

/-- The name of a buffer: that of its variable, or that of the function whose result it is. -/
def bufferName : Expr → String
  | var v => v.name
  | call _ name .. => name
  | _ => ""

/-- What a constant or a text says. -/
def literalText : Expr → String
  | str s => s
  | const v _ => v.text
  | _ => ""

/-- The kind of an expression, as shown in messages. -/
def kindName : Expr → String
  | var _ => "Var"
  | const .. => "Constant"
  | str _ => "StringImm"
  | cast .. => "Cast"
  | bin op .. =>
    match op with
    | .add => "Add" | .sub => "Sub" | .mul => "Mul" | .div => "Div" | .mod => "Mod"
    | .min => "Min" | .max => "Max" | .eq => "EQ" | .ne => "NE" | .lt => "LT" | .le => "LE"
    | .gt => "GT" | .ge => "GE" | .and => "And" | .or => "Or"
  | not _ => "Not"
  | select .. => "Select"
  | call .. => "Call"
  | bind .. => "Let"
  | load .. => "Load"
  | ramp .. => "Ramp"
  | broadcast .. => "Broadcast"
  | reduce .. => "Reduce"

end Expr

namespace IterVar

def id (iv : IterVar) : Nat := iv.var.id
def name (iv : IterVar) : String := iv.var.name
def dtype (iv : IterVar) : DataType := iv.var.dtype
def extent? (iv : IterVar) : Option Expr := iv.dom.map (·.extent)

end IterVar

namespace IterKind

/-- The names of the kinds. -/
def token : IterKind → String
  | dataParallel => "data-parallel"
  | threadIndex => "thread-index"
  | reduction => "communicative-reduce"
  | ordered => "ordered"
  | opaqueAxis => "opaque"
  | unrolled => "unrolled"
  | vectorized => "vectorized"
  | parallelized => "parallelized"
  | tensorized => "tensorized"

/-- All kinds, each at its number. -/
def all : List IterKind :=
  [dataParallel, threadIndex, reduction, ordered, opaqueAxis, unrolled, vectorized, parallelized,
    tensorized]

/-- The number of a kind. -/
def toNat (k : IterKind) : Nat := all.idxOf k

/-- The label of a kind, as shown in messages. -/
def label : IterKind → String
  | dataParallel => "DATA_PAR"
  | threadIndex => "THREAD_INDEX"
  | reduction => "COMM_REDUCE"
  | ordered => "ORDERED"
  | opaqueAxis => "OPAQUE"
  | unrolled => "UNROLLED"
  | vectorized => "VECTORIZED"
  | parallelized => "PARALLELIZED"
  | tensorized => "TENSORIZED"

end IterKind

namespace CallKind

/-- All kinds, each at its number. -/
def all : List CallKind :=
  [external, externalCpp, pureExternal, tensorRead, intrinsic, pureIntrinsic]

/-- The number of a kind. -/
def toNat (k : CallKind) : Nat := all.idxOf k

/-- The label of a kind, as shown in messages. -/
def label : CallKind → String
  | external => "EXTERN"
  | externalCpp => "EXTERN_CPP"
  | pureExternal => "PURE_EXTERN"
  | tensorRead => "HALIDE"
  | intrinsic => "INTRINSIC"
  | pureIntrinsic => "PURE_INTRINSIC"

/-- The names that a kind can be given by. -/
def names : List (String × CallKind) :=
  [("extern", external), ("extern-c-plus-plus", externalCpp), ("extern-cpp", externalCpp),
    ("pure-extern", pureExternal), ("halide", tensorRead), ("intrinsic", intrinsic),
    ("pure-intrinsic", pureIntrinsic)]

end CallKind

end TensorNest
