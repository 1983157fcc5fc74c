import TensorNest.Expr.Operand

/-!
# Statements

Loop nests over tensors and over flat memory. A statement provides elements of tensors or stores
elements of buffers; realizations and allocations open the scope of a tensor or of a buffer.
-/

namespace TensorNest

/-- How the iterations of a loop are carried out. -/
inductive LoopKind where
  | serial
  | parallel
  | vectorized
  | unrolled
  deriving DecidableEq, Repr, Inhabited

/-- All kinds of loops, each at its number. -/
def LoopKind.all : List LoopKind :=
  [serial, parallel, vectorized, unrolled]

/-- The word that a loop starts with. -/
def LoopKind.text : LoopKind → String
  | serial => "for"
  | parallel => "parallel"
  | vectorized => "vectorized"
  | unrolled => "unrolled"

/-- What an attribute is about. -/
inductive Subject where
  | var (v : Var)
  | axis (iv : IterVar)
  | op (r : OpRef)
  | tensor (r : OpRef) (index : Int)
  | reducer (r : Reducer)
  | other (x : Operand)
  deriving Inhabited

/-- A statement. An allocation has a number of its own, its site, which tells it from others that look alike; that of an
    allocation that lowering makes is the number of its buffer. -/
inductive Stmt where
  | bind (v : Var) (value : Expr) (body : Stmt)
  | attr (subject : Subject) (key : String) (value : Expr) (body : Stmt)
  | assert (cond message : Expr) (body : Stmt)
  | loop (v : Var) (min extent : Expr) (kind : LoopKind) (body : Stmt)
  | store (buffer value index : Expr) (pred : Option Expr)
  | provide (op : OpRef) (output : Int) (value : Expr) (args : List Expr)
  | allocate (site : Nat) (buffer : Var) (dtype : DataType) (extents : List Expr) (cond : Expr) (body : Stmt)
  | realize (op : OpRef) (output : Int) (dtype : DataType) (bounds : List Range) (cond : Expr)
      (body : Stmt)
  | prefetch (op : OpRef) (output : Int) (dtype : DataType) (bounds : List Range)
  | seq (stmts : List Stmt)
  | branch (cond : Expr) (onTrue : Stmt) (onFalse : Option Stmt)
  | eval (e : Expr)

namespace Stmt

/-- The statement that does nothing. -/
def noOp : Stmt := eval (.const (.int 0) .int32)

instance : Inhabited Stmt := ⟨noOp⟩

/-- Whether a statement only evaluates constants. -/
def isNoOp : Stmt → Bool
  | eval e => e.isConst
  | seq ss => all ss
  | _ => false
where
  /-- Whether all of several statements only evaluate constants. -/
  all : List Stmt → Bool
    | [] => true
    | s :: ss => s.isNoOp && all ss

/-- The statements of a sequence; any other statement stands alone. -/
def items : Stmt → List Stmt
  | seq ss => ss
  | s => [s]

/-- The statement of a list of statements: none does nothing and one stands alone. -/
def block : List Stmt → Stmt
  | [] => noOp
  | [s] => s
  | ss => seq ss

/-- Statements one after the other, the sequences among them opened. -/
def ofList (ss : List Stmt) : Stmt :=
  block (ss.flatMap items)

/-- The kind of a statement, as shown in messages. -/
def kindName : Stmt → String
  | bind .. => "LetStmt"
  | attr .. => "AttrStmt"
  | assert .. => "AssertStmt"
  | loop .. => "For"
  | store .. => "Store"
  | provide .. => "Provide"
  | allocate .. => "Allocate"
  | realize .. => "Realize"
  | prefetch .. => "Prefetch"
  | seq _ => "SeqStmt"
  | branch .. => "IfThenElse"
  | eval _ => "Evaluate"

/-- The number of statements in a statement. -/
def size : Stmt → Nat
  | bind _ _ body | attr _ _ _ body | assert _ _ body | loop _ _ _ _ body | allocate _ _ _ _ _ body
  | realize _ _ _ _ _ body => body.size + 1
  | store .. | provide .. | prefetch .. | eval _ => 1
  | seq ss => sizes ss + 1
  | branch _ t none => t.size + 1
  | branch _ t (some f) => t.size + f.size + 1
where
  /-- The number of statements in several statements. -/
  sizes : List Stmt → Nat
    | [] => 0
    | s :: ss => s.size + sizes ss

end Stmt

end TensorNest
