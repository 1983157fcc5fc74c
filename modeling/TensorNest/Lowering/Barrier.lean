import TensorNest.Expr.Build
import TensorNest.Func
import TensorNest.Revised
import TensorNest.Setting
import TensorNest.Stmt.Visit

/-!
# Barriers

The threads of a region share the buffers of some storage scope. A barrier stands before a statement
that reads a buffer written by an earlier statement of its sequence, and at the end of the body of a
loop that reads and writes one buffer. A sequence that needs no barrier and none of whose items changes
is kept as it is.
-/

namespace TensorNest

/-- The storage scopes of buffers, by the number of their variable; the first entry counts. -/
abbrev StorageScopes := List (Nat × Option Setting)

namespace StorageScopes

/-- The scope that the value of an attribute names. -/
def named : Expr → Option Setting
  | .str s => some (.text s)
  | .const v _ => some (.number v)
  | _ => none

/-- Whether a buffer is in a scope, the global one if nothing is said about it. -/
def isIn (scopes : StorageScopes) (scope : Setting) (v : Var) : Bool :=
  match ((scopes.find? (·.1 == v.id)).map (·.2)).getD (some (.text "global")) with
  | some s => s.same true scope
  | none => false

/-- Notes what an attribute says about the scope of a buffer. -/
def note (scopes : StorageScopes) (subject : Subject) (key : String) (value : Expr) :
    StorageScopes :=
  match subject with
  | .var v => if key == "storage_scope" then (v.id, named value) :: scopes else scopes
  | _ => scopes

/-- The scopes that the attributes in a statement give, outer ones before inner ones. -/
def ofStmt (s : Stmt) : StorageScopes :=
  s.stmts.foldl (fun scopes => fun
    | .attr subject key value _ => scopes.note subject key value
    | _ => scopes) []

end StorageScopes

/-- The numbers of the buffers that a statement reads and writes. -/
structure Accesses where
  reads : List Nat := []
  writes : List Nat := []
  deriving Inhabited

namespace Accesses

/-- Whether a buffer is both read and written. -/
def overlap (reads writes : List Nat) : Bool :=
  reads.any writes.contains

/-- Adds what a part of a statement accesses. An address can be used to read and to write. -/
def add (counts : Var → Bool) (a : Accesses) : Node → Accesses
  | .expr (.load _ (.var v) _ _) => if counts v then { a with reads := v.id :: a.reads } else a
  | .stmt (.store (.var v) _ _ _) => if counts v then { a with writes := v.id :: a.writes } else a
  | .expr e@(.call _ _ (.load _ (.var v) _ _ :: _) _ _ _) =>
    if e.isIntrinsic "xte_address_of" && counts v then ⟨v.id :: a.reads, v.id :: a.writes⟩ else a
  | _ => a

/-- The buffers that a statement accesses, of those that count. -/
def ofStmt (counts : Var → Bool) (s : Stmt) : Accesses :=
  s.postorder.foldl (add counts) {}

end Accesses

namespace Stmt

/-- The barrier of a storage scope. -/
def barrier (scope : String) : Stmt :=
  eval (Expr.intrinsic .int32 "xte_storage_sync" [.str scope])

/-- The items of a sequence with barriers between them. `written` holds the buffers written since the
    last barrier. -/
def withBarriers (scope : String) (counts : Var → Bool) (written : List Nat) :
    List Stmt → List Stmt
  | [] => []
  | s :: ss =>
    let a := Accesses.ofStmt counts s
    if Accesses.overlap a.reads written then
      barrier scope :: s :: withBarriers scope counts a.writes ss
    else s :: withBarriers scope counts (a.writes ++ written) ss

/-- A sequence in a thread region with the barriers that it needs. -/
def syncSeq (scope : String) (counts : Var → Bool) (ss : List (Revised Stmt)) : Revised Stmt :=
  let items := ss.map (·.term)
  let synced := withBarriers scope counts [] items
  if synced.length = items.length && !ss.any (·.changed) then .kept (seq items)
  else ⟨ofList synced, true⟩

/-- A loop in a thread region with the barrier that it needs. -/
def syncLoop (scope : String) (counts : Var → Bool) (v : Var) (min extent : Expr)
    (kind : LoopKind) (body : Revised Stmt) : Revised Stmt :=
  let a := Accesses.ofStmt counts body.term
  if Accesses.overlap a.reads a.writes then
    ⟨loop v min extent kind (ofList [body.term, barrier scope]), true⟩
  else ⟨loop v min extent kind body.term, body.changed⟩

/-- Puts barriers into a statement, `inside` telling whether it belongs to a thread region. -/
def synced (scope : String) (counts : Var → Bool) (inside : Bool) : Stmt → Revised Stmt
  | bind v value body =>
    let b := body.synced scope counts inside
    ⟨bind v value b.term, b.changed⟩
  | attr subject key value body =>
    let b := body.synced scope counts (inside || key == "thread_extent")
    ⟨attr subject key value b.term, b.changed⟩
  | assert cond message body =>
    let b := body.synced scope counts inside
    ⟨assert cond message b.term, b.changed⟩
  | loop v min extent kind body =>
    let b := body.synced scope counts inside
    if inside then syncLoop scope counts v min extent kind b
    else ⟨loop v min extent kind b.term, b.changed⟩
  | allocate site buffer dtype extents cond body =>
    let b := body.synced scope counts inside
    ⟨allocate site buffer dtype extents cond b.term, b.changed⟩
  | realize op output dtype bounds cond body =>
    let b := body.synced scope counts inside
    ⟨realize op output dtype bounds cond b.term, b.changed⟩
  | seq ss =>
    let items := onList inside ss
    if inside then syncSeq scope counts items
    else ⟨seq (items.map (·.term)), items.any (·.changed)⟩
  | branch cond onTrue none =>
    let t := onTrue.synced scope counts inside
    ⟨branch cond t.term none, t.changed⟩
  | branch cond onTrue (some onFalse) =>
    let t := onTrue.synced scope counts inside
    let f := onFalse.synced scope counts inside
    ⟨branch cond t.term (some f.term), t.changed || f.changed⟩
  | s => .kept s
where
  /-- Puts barriers into several statements. -/
  onList (inside : Bool) : List Stmt → List (Revised Stmt)
    | [] => []
    | s :: ss => s.synced scope counts inside :: onList inside ss

end Stmt

/-- Puts the barriers of a storage scope into the thread regions of a function. -/
def Func.insertBarriers (scope : Setting) (f : Func) : Func :=
  let scopes := StorageScopes.ofStmt f.body
  { f with body := (f.body.synced scope.plainText (scopes.isIn scope) false).term }

end TensorNest
