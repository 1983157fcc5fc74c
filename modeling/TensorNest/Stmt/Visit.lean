import TensorNest.Expr.Visit
import TensorNest.Stmt.Basic

/-!
# Visiting statements

`Stmt.postorder` lists the expressions and statements in a statement, parts before the whole. The
variables that statements bind and the subjects of attributes are not parts. `Stmt.freeVars` and
`Expr.freeVars` give the variables that are used without having been bound before, in the order of
their first use; a variable counts as bound from its binder on, also after the body of the binder.
-/

namespace TensorNest

/-- A part of a statement. -/
inductive Node where
  | expr (e : Expr)
  | stmt (s : Stmt)

/-- The kind of an expression, as a word. -/
def Expr.kindWord : Expr → String
  | .var _ => "var"
  | .const .. => "constant"
  | .str _ => "string_imm"
  | .cast .. => "cast"
  | .bin op .. =>
    match op with
    | .add => "add" | .sub => "sub" | .mul => "mul" | .div => "div" | .mod => "mod"
    | .min => "min" | .max => "max" | .eq => "eq" | .ne => "ne" | .lt => "lt" | .le => "le"
    | .gt => "gt" | .ge => "ge" | .and => "and" | .or => "or"
  | .not _ => "not"
  | .select .. => "select"
  | .call .. => "call"
  | .bind .. => "let"
  | .load .. => "load"
  | .ramp .. => "ramp"
  | .broadcast .. => "broadcast"
  | .reduce .. => "reduce"

/-- The kind of a statement, as a word. -/
def Stmt.kindWord : Stmt → String
  | bind .. => "let_stmt"
  | attr .. => "attr_stmt"
  | assert .. => "assert_stmt"
  | loop .. => "for"
  | store .. => "store"
  | provide .. => "provide"
  | allocate .. => "allocate"
  | realize .. => "realize"
  | prefetch .. => "prefetch"
  | seq _ => "seq_stmt"
  | branch .. => "if_then_else"
  | eval _ => "evaluate"

/-- A part by its kind and, for an expression, its type. -/
def Node.label : Node → String
  | expr e => e.kindWord ++ " " ++ e.dtype.text
  | stmt s => s.kindWord

namespace Stmt

/-- The parts of an expression, as parts of a statement. -/
def exprNodes (e : Expr) : List Node :=
  e.postorder.map .expr

/-- The parts of expressions. -/
def exprsNodes (es : List Expr) : List Node :=
  es.flatMap exprNodes

/-- The parts of an expression that may be missing. -/
def guardNodes (p : Option Expr) : List Node :=
  exprsNodes p.toList

/-- The parts of ranges. -/
def rangesNodes (rs : List Range) : List Node :=
  rs.flatMap fun r => exprNodes r.min ++ exprNodes r.extent

/-- A statement and its parts, each after its own parts. -/
def postorder : Stmt → List Node
  | s@(bind _ value body) => exprNodes value ++ body.postorder ++ [.stmt s]
  | s@(attr _ _ value body) => exprNodes value ++ body.postorder ++ [.stmt s]
  | s@(assert cond message body) =>
    exprNodes cond ++ exprNodes message ++ body.postorder ++ [.stmt s]
  | s@(loop _ min extent _ body) =>
    exprNodes min ++ exprNodes extent ++ body.postorder ++ [.stmt s]
  | s@(store buffer value index pred) =>
    exprNodes buffer ++ exprNodes value ++ exprNodes index ++ guardNodes pred ++ [.stmt s]
  | s@(provide _ _ value args) => exprNodes value ++ exprsNodes args ++ [.stmt s]
  | s@(allocate _ _ _ extents cond body) =>
    exprsNodes extents ++ exprNodes cond ++ body.postorder ++ [.stmt s]
  | s@(realize _ _ _ bounds cond body) =>
    rangesNodes bounds ++ exprNodes cond ++ body.postorder ++ [.stmt s]
  | s@(prefetch _ _ _ bounds) => rangesNodes bounds ++ [.stmt s]
  | s@(seq ss) => ofStmts ss ++ [.stmt s]
  | s@(branch cond onTrue none) => exprNodes cond ++ onTrue.postorder ++ [.stmt s]
  | s@(branch cond onTrue (some onFalse)) =>
    exprNodes cond ++ onTrue.postorder ++ onFalse.postorder ++ [.stmt s]
  | s@(eval e) => exprNodes e ++ [.stmt s]
where
  /-- The parts of several statements. -/
  ofStmts : List Stmt → List Node
    | [] => []
    | s :: ss => s.postorder ++ ofStmts ss

end Stmt

/-- The expression that a part is. -/
def Node.expr? : Node → Option Expr
  | expr e => some e
  | stmt _ => none

/-- The statement that a part is. -/
def Node.stmt? : Node → Option Stmt
  | expr _ => none
  | stmt s => some s

namespace Stmt

/-- The expressions in a statement, parts before the whole. -/
def exprs (s : Stmt) : List Expr :=
  s.postorder.filterMap Node.expr?

/-- The statements in a statement, parts before the whole. -/
def stmts (s : Stmt) : List Stmt :=
  s.postorder.filterMap Node.stmt?

/-- The variables used in a statement, once for each use. -/
def vars (s : Stmt) : List Var :=
  s.exprs.filterMap Expr.asVar?

/-- Whether a statement uses one of some variables. -/
def usesAny (s : Stmt) (ids : List Nat) : Bool :=
  s.vars.any fun v => ids.contains v.id

/-- Whether a statement uses a variable. -/
def uses (s : Stmt) (v : Var) : Bool :=
  s.usesAny [v.id]

end Stmt

/-! ### Free variables -/

/-- The variables met so far: the numbers of those that were bound, and those used before they were
    bound, the first one first. -/
structure Occurrences where
  bound : List Nat := []
  free : List Var := []

namespace Occurrences

/-- A variable is bound from here on. -/
def bind (o : Occurrences) (v : Var) : Occurrences :=
  { o with bound := v.id :: o.bound }

/-- A variable is used. -/
def use (o : Occurrences) (v : Var) : Occurrences :=
  if o.bound.contains v.id || o.free.any (·.id == v.id) then o
  else { o with free := o.free ++ [v] }

/-- The occurrences in an expression. -/
def expr (o : Occurrences) : Expr → Occurrences
  | .var v => o.use v
  | .const .. | .str _ => o
  | .cast _ a | .not a | .broadcast a _ => o.expr a
  | .bin _ a b | .ramp a b _ => (o.expr a).expr b
  | .select c t f => ((o.expr c).expr t).expr f
  | .call _ _ args .. => exprs o args
  | .bind v value body => ((o.bind v).expr value).expr body
  | .load _ buffer index pred => guard ((o.expr buffer).expr index) pred
  | .reduce _ sources axes cond _ =>
    guard (exprs (axes.foldl (fun o iv => o.bind iv.var) o) sources) cond
where
  /-- The occurrences in expressions. -/
  exprs (o : Occurrences) : List Expr → Occurrences
    | [] => o
    | e :: es => exprs (o.expr e) es
  /-- The occurrences in an expression that may be missing. -/
  guard (o : Occurrences) : Option Expr → Occurrences
    | none => o
    | some e => o.expr e

/-- The occurrences in ranges. -/
def ranges (o : Occurrences) (rs : List Range) : Occurrences :=
  rs.foldl (fun o r => (o.expr r.min).expr r.extent) o

/-- A thread region binds the variable of its axis. -/
def subject (o : Occurrences) (key : String) : Subject → Occurrences
  | .axis iv => if key == "thread_extent" || key == "virtual_thread" then o.bind iv.var else o
  | _ => o

/-- The occurrences in a statement. -/
def stmt (o : Occurrences) : Stmt → Occurrences
  | .bind v value body => ((o.bind v).expr value).stmt body
  | .attr s key value body => ((o.subject key s).expr value).stmt body
  | .assert cond message body => ((o.expr cond).expr message).stmt body
  | .loop v min extent _ body => (((o.bind v).expr min).expr extent).stmt body
  | .store buffer value index pred =>
    expr.guard (((o.expr buffer).expr value).expr index) pred
  | .provide _ _ value args => expr.exprs (o.expr value) args
  | .allocate _ buffer _ extents cond body =>
    ((expr.exprs (o.bind buffer) extents).expr cond).stmt body
  | .realize _ _ _ bounds cond body => ((o.ranges bounds).expr cond).stmt body
  | .prefetch _ _ _ bounds => o.ranges bounds
  | .seq ss => stmts o ss
  | .branch cond onTrue none => (o.expr cond).stmt onTrue
  | .branch cond onTrue (some onFalse) => ((o.expr cond).stmt onTrue).stmt onFalse
  | .eval e => o.expr e
where
  /-- The occurrences in several statements. -/
  stmts (o : Occurrences) : List Stmt → Occurrences
    | [] => o
    | s :: ss => stmts (o.stmt s) ss

end Occurrences

/-- The variables used but not bound in an expression. -/
def Expr.freeVars (e : Expr) : List Var :=
  (({} : Occurrences).expr e).free

/-- The variables used but not bound in a statement. -/
def Stmt.freeVars (s : Stmt) : List Var :=
  (({} : Occurrences).stmt s).free

end TensorNest
