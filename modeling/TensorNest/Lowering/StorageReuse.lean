import TensorNest.Expr.Build
import TensorNest.Stmt.Rebuild

/-!
# Reuse of storage

An allocation whose first access comes after the last access of an allocation around it, of the same
type and scope, uses the memory of that one. Statements are numbered in the order of the program, and
an access inside a loop counts for the whole loop. Only allocations of constant size outside loops and
thread regions take part.
-/

namespace TensorNest

/-- An allocation: its size, the allocations around it, and the numbers of the statements of its first
    and last access. -/
structure Lifetime where
  buffer : Var
  dtype : DataType
  scope : String
  around : List Nat
  size : Int
  span : Option (Nat × Nat) := none
  merged : Bool := false
  target : Option Nat := none
  deriving Inhabited

/-- The liveness of allocations while a statement is read: the number of the current statement, the
    number of loops around it, the storage scopes, the allocations (the last one of a buffer in
    `current`), those around the statement, and the buffers used in each loop around it. -/
structure Liveness where
  pos : Nat := 0
  depth : Nat := 0
  scopes : List (Nat × String) := []
  lifetimes : List Lifetime := []
  current : List (Nat × Nat) := []
  opened : List Nat := []
  uses : List (List Nat) := []
  deriving Inhabited

namespace Lifetime

/-- Extends a lifetime to the statements of a span. -/
def touch (l : Lifetime) (first last : Nat) : Lifetime :=
  { l with
    span := some (match l.span with
      | none => (first, last)
      | some (a, b) => (min a first, max b last)) }

end Lifetime

namespace Liveness

/-- The number of the last allocation of a buffer. -/
def find? (l : Liveness) (id : Nat) : Option Nat :=
  (l.current.find? (·.1 == id)).map (·.2)

/-- Extends the lifetime of the last allocation of a buffer. -/
def touch (l : Liveness) (id first last : Nat) : Liveness :=
  match l.find? id with
  | none => l
  | some i => { l with lifetimes := l.lifetimes.modify i (·.touch first last) }

/-- Notes the use of a variable. -/
def use (l : Liveness) (v : Var) : Liveness :=
  if (l.find? v.id).isNone then l
  else
    let l := l.touch v.id l.pos l.pos
    { l with uses := l.uses.map fun us => if us.contains v.id then us else v.id :: us }

/-- Notes the uses of the variables of an expression. -/
def expr (l : Liveness) (e : Expr) : Liveness :=
  e.vars.foldl use l

def exprs (l : Liveness) (es : List Expr) : Liveness :=
  es.foldl expr l

def ranges (l : Liveness) (rs : List Range) : Liveness :=
  rs.foldl (fun l r => (l.expr r.min).expr r.extent) l

/-- Goes on to the next statement. -/
def next (l : Liveness) : Liveness :=
  { l with pos := l.pos + 1 }

/-- Enters a loop or a thread region. -/
def enter (l : Liveness) : Liveness :=
  { l with depth := l.depth + 1, uses := [] :: l.uses }

/-- Leaves a loop that began with the statement `start`: what was used in it lives as long as it. -/
def leave (l : Liveness) (start : Nat) : Liveness :=
  let used := l.uses.headD []
  used.foldl (fun l id => l.touch id start l.pos) { l with depth := l.depth - 1, uses := l.uses.tail }

/-- The size of an allocation of constant extents. -/
def constSize? (extents : List Expr) : Option Int :=
  extents.foldlM (fun n e => e.constInt?.map (n * ·)) 1

/-- Adds an allocation, which is then around what follows. -/
def allocation (l : Liveness) (buffer : Var) (dtype : DataType) (size : Int) : Liveness :=
  let scope := ((l.scopes.find? (·.1 == buffer.id)).map (·.2)).getD "global"
  let i := l.lifetimes.length
  { l with
    lifetimes := l.lifetimes ++ [{ buffer, dtype, scope, around := l.opened, size }]
    current := (buffer.id, i) :: l.current
    opened := i :: l.opened }

/-- Leaves the innermost allocation. -/
def close (l : Liveness) : Liveness :=
  { l with opened := l.opened.tail }

/-- Notes the storage scope that an attribute gives a buffer. -/
def noteScope (l : Liveness) (key : String) (subject : Subject) (value : Expr) : Liveness :=
  match key, subject, value with
  | "storage_scope", .var v, .str s => { l with scopes := (v.id, s) :: l.scopes }
  | _, _, _ => l

/-- Whether an attribute opens a thread region. -/
def isThreadKey (key : String) : Bool :=
  key == "thread_extent" || key == "virtual_thread"

/-- The liveness after a statement. -/
def stmt (l : Liveness) : Stmt → Liveness
  | .bind _ value body => (l.next.expr value).stmt body
  | .attr subject key value body =>
    let l := l.next
    let start := l.pos
    if isThreadKey key then ((l.enter.expr value).stmt body).leave start
    else ((l.noteScope key subject value).expr value).stmt body
  | .assert cond message body => ((l.next.expr cond).expr message).stmt body
  | .loop _ min extent _ body =>
    let l := l.next
    let start := l.pos
    (((l.enter.expr min).expr extent).stmt body).leave start
  | .store buffer value index pred =>
    (((l.next.expr buffer).expr value).expr index).exprs pred.toList
  | .provide _ _ value args => (l.next.expr value).exprs args
  | .allocate _ buffer dtype extents cond body =>
    let l := l.next
    match (if 0 < l.depth then none else constSize? extents) with
    | none => ((l.exprs extents).expr cond).stmt body
    | some size =>
      ((((l.allocation buffer dtype size).exprs extents).expr cond).stmt body).close
  | .realize _ _ _ bounds cond body => ((l.next.ranges bounds).expr cond).stmt body
  | .prefetch _ _ _ bounds => l.next.ranges bounds
  | .seq ss => stmts l.next ss
  | .branch cond onTrue none => (l.next.expr cond).stmt onTrue
  | .branch cond onTrue (some onFalse) => ((l.next.expr cond).stmt onTrue).stmt onFalse
  | .eval e => l.next.expr e
where
  /-- The liveness after several statements. -/
  stmts (l : Liveness) : List Stmt → Liveness
    | [] => l
    | s :: ss => stmts (l.stmt s) ss

/-- The allocation whose memory an allocation uses, following targets at most `fuel` times. -/
def root (ls : List Lifetime) : Nat → Nat → Nat
  | 0, i => i
  | fuel + 1, i =>
    match (ls[i]?).bind (·.target) with
    | some j => root ls fuel j
    | none => i

/-- Whether an allocation can use the memory of another. -/
def fits (ls : List Lifetime) (entry : Lifetime) (j : Nat) : Bool :=
  match ls[j]?, entry.span with
  | some r, some (first, _) =>
    match r.span with
    | some (_, last) => r.dtype == entry.dtype && r.scope == entry.scope && last < first
    | none => false
  | _, _ => false

/-- Lets an allocation use the memory of the innermost one around it that fits. -/
def planOne (ls : List Lifetime) (i : Nat) : List Lifetime :=
  match ls[i]? with
  | none => ls
  | some entry =>
    let roots := entry.around.map fun a => root ls ls.length a
    match roots.find? (fits ls entry), entry.span with
    | some j, some (first, last) =>
      let ls := ls.modify i fun e => { e with target := some j }
      ls.modify j fun r => { r.touch first last with merged := true, size := max r.size entry.size }
    | _, _ => ls

/-- Decides which allocations use the memory of others. -/
def plan (ls : List Lifetime) : List Lifetime :=
  (List.range ls.length).foldl planOne ls

end Liveness

/-- What becomes of buffers: those that use the memory of another, and the sizes of those that give
    theirs. -/
structure Reuse where
  renamed : Subst
  sizes : List (Nat × Int)

namespace Reuse

/-- The reuse that planned lifetimes describe. -/
def ofPlan (current : List (Nat × Nat)) (ls : List Lifetime) : Reuse :=
  let isCurrent (l : Lifetime) (i : Nat) :=
    (current.find? (·.1 == l.buffer.id)).map (·.2) == some i
  let live := ls.zipIdx.filter fun (l, i) => isCurrent l i
  { renamed := live.filterMap fun (l, i) =>
      if l.target.isSome then
        (ls[Liveness.root ls ls.length i]?).map fun r => (l.buffer, .var r.buffer)
      else none
    sizes := live.filterMap fun (l, _) => if l.merged then some (l.buffer.id, l.size) else none }

/-- Whether a buffer uses the memory of another. -/
def isRenamed (r : Reuse) (v : Var) : Bool :=
  (r.renamed.find? v).isSome

/-- Whether an attribute is the storage scope of a buffer that uses the memory of another. -/
def dropsScope (r : Reuse) (key : String) : Subject → Bool
  | .var v => key == "storage_scope" && r.isRenamed v
  | _ => false

end Reuse

namespace Stmt

/-- Carries out the reuse of storage. -/
def reuse (r : Reuse) : Stmt → Stmt
  | bind v value body => bind v (value.subst r.renamed) (body.reuse r)
  | attr subject key value body =>
    if r.dropsScope key subject then body.reuse r
    else attr subject key (value.subst r.renamed) (body.reuse r)
  | assert cond message body =>
    assert (cond.subst r.renamed) (message.subst r.renamed) (body.reuse r)
  | loop v min extent kind body =>
    loop v (min.subst r.renamed) (extent.subst r.renamed) kind (body.reuse r)
  | allocate site buffer dtype extents cond body =>
    if r.isRenamed buffer then body.reuse r
    else
      match r.sizes.find? (·.1 == buffer.id) with
      | some (_, size) => allocate site buffer dtype [Expr.int32 size] cond (body.reuse r)
      | none => allocate site buffer dtype extents cond (body.reuse r)
  | realize op output dtype bounds cond body =>
    realize op output dtype (bounds.map (·.subst r.renamed)) (cond.subst r.renamed) (body.reuse r)
  | seq ss => seq (onList r ss)
  | branch cond onTrue none => branch (cond.subst r.renamed) (onTrue.reuse r) none
  | branch cond onTrue (some onFalse) =>
    branch (cond.subst r.renamed) (onTrue.reuse r) (some (onFalse.reuse r))
  | s => s.subst r.renamed
where
  /-- Carries out the reuse of storage in several statements. -/
  onList (r : Reuse) : List Stmt → List Stmt
    | [] => []
    | s :: ss => s.reuse r :: onList r ss

/-- Lets allocations use the memory of others that are no longer needed. -/
def reuseStorage (s : Stmt) : Stmt :=
  let l := ({} : Liveness).stmt s
  let ls := Liveness.plan l.lifetimes
  if ls.any (·.target.isSome) then s.reuse (Reuse.ofPlan l.current ls) else s

end Stmt

end TensorNest
