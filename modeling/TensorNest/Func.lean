import TensorNest.Buffer
import TensorNest.Stmt.Print

/-!
# Lowered functions

A function is a body with parameters. A host function finds its arguments by their position, a device
function is launched over thread axes, and a mixed one still holds its device regions.
-/

namespace TensorNest

/-- Where a function runs. -/
inductive FuncKind where
  | host
  | device
  | mixed
  deriving DecidableEq, Repr, Inhabited

def FuncKind.text : FuncKind → String
  | host => "host"
  | device => "device"
  | mixed => "mixed"

/-- A parameter of a function. -/
inductive Param where
  | var (v : Var)
  | buffer (b : Buffer)
  deriving Inhabited

def Param.name : Param → String
  | var v => v.name
  | buffer b => b.name

def Param.text : Param → String
  | var v => v.name
  | buffer b => b.text

/-- Sets the type of a handle, in its place if it has one. -/
def setHandle (v : Var) (t : DataType) : List (Var × DataType) → List (Var × DataType)
  | [] => [(v, t)]
  | (w, u) :: hs => if w.id == v.id then (w, t) :: hs else (w, u) :: setHandle v t hs

/-- The types of handles. The last one given for a handle counts. -/
def handleTypes (hs : List (Var × DataType)) : List (Var × DataType) :=
  hs.foldl (fun hs (v, t) => setHandle v t hs) []

/-- A function. `handles` gives the element types of the memory that its handles point to, and
    `restricted` says that these do not overlap. -/
structure Func where
  name : String
  params : List Param
  body : Stmt
  kind : FuncKind
  threadAxes : List IterVar := []
  handles : List (Var × DataType) := []
  restricted : Setting := true
  deriving Inhabited

namespace Func

def text (f : Func) : String :=
  f.kind.text ++ " func " ++ f.name ++ "(" ++ commaList (f.params.map (·.name)) ++ ") \x7b\n" ++
    f.body.textAt 1 ++ "\x7d\n"

end Func

namespace Matching

/-- Whether two parameters match. -/
def param (k : Matching) : Param → Param → Bool
  | .var v, .var w => k.var v w
  | .buffer a, .buffer b => k.buffer a b
  | _, _ => false

/-- Whether two functions match. -/
def func (k : Matching) (f g : Func) : Bool :=
  f.name == g.name && f.params.length == g.params.length &&
    (f.params.zip g.params).all (fun (p, q) => k.param p q) && k.stmt f.body g.body &&
    f.kind == g.kind && k.axes f.threadAxes g.threadAxes &&
    f.handles.length == g.handles.length &&
    (f.handles.zip g.handles).all (fun (p, q) => k.var p.1 q.1 && p.2 == q.2) &&
    f.restricted.same k.loose g.restricted

end Matching

end TensorNest
