import TensorNest.Expr.Same
import TensorNest.Stmt.Basic

/-!
# Equality of statements

Two statements are the same, or alike, in the sense in which expressions are.
-/

namespace TensorNest

namespace Matching

/-- Whether two lists of ranges match. -/
def ranges (k : Matching) : List Range → List Range → Bool
  | [], [] => true
  | r :: rs, r' :: rs' => k.range r r' && k.ranges rs rs'
  | _, _ => false

/-- Whether two operands match: both are of one kind and have the same value, or are built alike. -/
def operand (k : Matching) : Operand → Operand → Bool
  | .expr a, .expr b => k.expr a b
  | .axis a, .axis b => k.axis a b
  | .range a, .range b => k.range a b
  | .reducer a, .reducer b => k.reducer a b
  | .buffer a, .buffer b => k.buffer a b
  | .list xs, .list ys => operands xs ys
  | .nothing, .nothing => true
  | .text s, .text t => s == t
  | .dtype t, .dtype u => t == u
  | .array a, .array b =>
    a.type == b.type && a.shape == b.shape && a.elements.length == b.elements.length &&
      (a.elements.zip b.elements).all fun (v, w) => v.same w
  | .other n s _ _, .other m t _ _ => n == m && s == t
  | .tensor _ s _, .tensor _ t _ => s == t
  | x, y =>
    match x.single?, y.single? with
    | some v, some w => if k.loose then v.eq w || v.same w else x.kindName == y.kindName && v.same w
    | _, _ => false
where
  /-- Whether two lists of operands match. -/
  operands : List Operand → List Operand → Bool
    | [], [] => true
    | x :: xs, y :: ys => k.operand x y && operands xs ys
    | _, _ => false

/-- Whether two attributes are about the same. -/
def subject (k : Matching) : Subject → Subject → Bool
  | .var v, .var w => k.var v w
  | .axis a, .axis b => k.axis a b
  | .op f, .op g => k.op f g
  | .tensor f i, .tensor g j => f.idx == g.idx && i == j
  | .reducer r, .reducer r' => k.reducer r r'
  | .other x, .other y => k.shallow || (!k.loose || x.isDouble == y.isDouble) && k.operand x y
  | _, _ => false

/-- Whether two statements match. -/
def stmt (k : Matching) : Stmt → Stmt → Bool
  | .bind v a s, .bind v' a' s' => k.var v v' && k.expr a a' && k.stmt s s'
  | .attr n key a s, .attr n' key' a' s' =>
    k.subject n n' && key == key' && k.expr a a' && k.stmt s s'
  | .assert a b s, .assert a' b' s' => k.expr a a' && k.expr b b' && k.stmt s s'
  | .loop v a b n s, .loop v' a' b' n' s' =>
    k.var v v' && k.expr a a' && k.expr b b' && n == n' && k.stmt s s'
  | .store v a b p, .store v' a' b' p' =>
    k.expr v v' && k.expr a a' && k.expr b b' && k.guards p p'
  | .provide f i a as, .provide f' i' a' as' =>
    k.op f f' && i == i' && k.expr a a' && k.exprs as as'
  | .allocate n v t es c s, .allocate n' v' t' es' c' s' =>
    k.site n n' && k.var v v' && t == t' && k.exprs es es' && k.expr c c' && k.stmt s s'
  | .realize f i t rs c s, .realize f' i' t' rs' c' s' =>
    k.op f f' && i == i' && t == t' && k.ranges rs rs' && k.expr c c' && k.stmt s s'
  | .prefetch f i t rs, .prefetch f' i' t' rs' =>
    k.op f f' && i == i' && t == t' && k.ranges rs rs'
  | .seq ss, .seq ss' => stmts k ss ss'
  | .branch c s none, .branch c' s' none => k.expr c c' && k.stmt s s'
  | .branch c s (some t), .branch c' s' (some t') => k.expr c c' && k.stmt s s' && k.stmt t t'
  | .eval a, .eval a' => k.expr a a'
  | _, _ => false
where
  /-- Whether two lists of statements match. -/
  stmts (k : Matching) : List Stmt → List Stmt → Bool
    | [], [] => true
    | s :: ss, s' :: ss' => k.stmt s s' && stmts k ss ss'
    | _, _ => false

end Matching

/-- Whether two statements are built alike from the same variables and operations. -/
def Stmt.same (s t : Stmt) : Bool :=
  Matching.identity.stmt s t

/-- Whether two statements are built alike up to the identity of variables and operations. -/
def Stmt.alike (s t : Stmt) : Bool :=
  Matching.naming.stmt s t

end TensorNest
