import TensorNest.Expr.Basic

/-!
# Equality of expressions

Two expressions are the *same* if they are built alike from the same variables and operations. They
are *alike* if they are built alike up to the identity of variables and operations: variables count by
name and type, operations by name and kind. Constants are compared by value, so that a constant that
is no number is not even the same as itself. For sameness a truth value is the integer 0 or 1, for
likeness it is not. An *exact* match does not look at values but at how constants are written, it tells
allocations apart by their sites, and everything matches itself.
-/

namespace TensorNest

/-- How the variables, the operations and the constants of two expressions are compared, the sites of
    allocations, and what attributes are about if it is no part of a program. -/
structure Matching where
  var : Var → Var → Bool
  op : OpRef → OpRef → Bool
  number : Number → Number → Bool
  site : Nat → Nat → Bool := fun _ _ => true
  /-- Whether attributes match whatever they are about if it is no part of a program. -/
  shallow : Bool := false
  /-- Whether plain numbers match if they have the same value, whatever their kind. -/
  loose : Bool

namespace Matching

/-- The identity of variables and operations counts. -/
def identity : Matching where
  var v w := v.id == w.id
  op f g := f.idx == g.idx
  number := Number.agrees
  loose := true

/-- The identity of variables and operations counts, and constants are told apart by their bits and
    allocations by their sites. -/
def exact : Matching where
  var v w := v.id == w.id
  op f g := f.idx == g.idx
  number := Number.exactly
  site m n := m == n
  shallow := true
  loose := false

/-- Names and types count. -/
def naming : Matching where
  var v w := v.name == w.name && v.dtype == w.dtype
  op f g := f.isCompute == g.isCompute && f.name == g.name
  number := Number.same
  loose := false

/-- The matching of the numbers of outputs. -/
def ordinal (k : Matching) (i j : Ordinal) : Bool :=
  if k.loose then i.toInt == j.toInt else i == j

/-- The matching of variables lifted to lists. -/
def vars (k : Matching) : List Var → List Var → Bool
  | [], [] => true
  | v :: vs, w :: ws => k.var v w && k.vars vs ws
  | _, _ => false

/-- The matching of the operations that calls may refer to. -/
def ops (k : Matching) : Option OpRef → Option OpRef → Bool
  | none, none => true
  | some f, some g => k.op f g
  | _, _ => false

mutual

/-- Whether two expressions match. -/
def expr (k : Matching) : Expr → Expr → Bool
  | .var v, .var w => k.var v w
  | .const v t, .const w u => t == u && k.number v w
  | .str s, .str t => s == t
  | .cast t a, .cast u b => t == u && k.expr a b
  | .bin op a b, .bin op' a' b' => op == op' && k.expr a a' && k.expr b b'
  | .not a, .not b => k.expr a b
  | .select c t f, .select c' t' f' => k.expr c c' && k.expr t t' && k.expr f f'
  | .call t name args kind func index, .call t' name' args' kind' func' index' =>
    t == t' && name == name' && k.exprs args args' && kind == kind' && k.ops func func' &&
      k.ordinal index index'
  | .bind v a b, .bind w a' b' => k.var v w && k.expr a a' && k.expr b b'
  | .load t a i p, .load u b j q => t == u && k.expr a b && k.expr i j && k.guards p q
  | .ramp a b n, .ramp a' b' n' => k.expr a a' && k.expr b b' && n == n'
  | .broadcast a n, .broadcast b n' => k.expr a b && n == n'
  | .reduce r s x c i, .reduce r' s' x' c' i' =>
    k.reducer r r' && k.exprs s s' && k.axes x x' && k.guards c c' && i == i'
  | _, _ => false

/-- Whether two lists of expressions match. -/
def exprs (k : Matching) : List Expr → List Expr → Bool
  | [], [] => true
  | a :: as, b :: bs => k.expr a b && k.exprs as bs
  | _, _ => false

/-- Whether two optional expressions match. -/
def guards (k : Matching) : Option Expr → Option Expr → Bool
  | none, none => true
  | some a, some b => k.expr a b
  | _, _ => false

/-- Whether two ranges match. -/
def range (k : Matching) : Range → Range → Bool
  | ⟨a, b⟩, ⟨a', b'⟩ => k.expr a a' && k.expr b b'

/-- Whether two optional ranges match. -/
def domain (k : Matching) : Option Range → Option Range → Bool
  | none, none => true
  | some r, some r' => k.range r r'
  | _, _ => false

/-- Whether two iteration variables match. -/
def axis (k : Matching) : IterVar → IterVar → Bool
  | ⟨d, v, n, t⟩, ⟨d', v', n', t'⟩ => k.domain d d' && k.var v v' && n == n' && t == t'

/-- Whether two lists of iteration variables match. -/
def axes (k : Matching) : List IterVar → List IterVar → Bool
  | [], [] => true
  | a :: as, b :: bs => k.axis a b && k.axes as bs
  | _, _ => false

/-- Whether two reducers match. -/
def reducer (k : Matching) : Reducer → Reducer → Bool
  | ⟨l, r, e, i⟩, ⟨l', r', e', i'⟩ =>
    k.vars l l' && k.vars r r' && k.exprs e e' && k.exprs i i'

end

end Matching

/-- Whether two expressions are built alike from the same variables and operations. -/
def Expr.same (a b : Expr) : Bool :=
  Matching.identity.expr a b

/-- Whether two expressions are built alike up to the identity of variables and operations. -/
def Expr.alike (a b : Expr) : Bool :=
  Matching.naming.expr a b

end TensorNest
