import TensorNest.Object.Basic

/-!
# Equality of objects

There are three ways to compare objects. They are *equal* as values: numbers by their value whatever their
kind, lists item by item, and parts of programs only if they are one and the same object. They have the
same *key* if they are equal as values or, if they are parts of programs, built alike from the same
variables and operations; floating-point numbers have keys of their own. They are *alike* if they are of one
kind and equal, or built alike up to the identity of variables and operations.
-/

namespace TensorNest

namespace Object

/-- Whether an object is a floating-point number, be it plain or a sized double. -/
def isDouble : Object → Bool
  | number v => v.isFloat
  | sized (.float 64) _ => true
  | _ => false

/-- Whether two objects are the same number, the same text or otherwise of the same content. -/
def sameContent : Object → Object → Bool
  | nothing, nothing => true
  | text a, text b => a == b
  | dtype a, dtype b => a == b
  | tensor a, tensor b => a.same b
  | op a, op b => a.idx == b.idx
  | expr (.var v), expr (.var w) => v.id == w.id
  | axis a, axis b => a.id == b.id
  | stage a b, stage c d => a == c && b == d
  | schedule a, schedule b => a == b
  | module a, module b => a == b
  | target a, target b => a == b
  | config a, config b => a.same true b
  | x, y =>
    match x.scalar?, y.scalar? with
    | some v, some w => v.eq w || v.same w
    | _, _ => false

/-- Whether two marks tell that they are on one and the same object. -/
def sameMark (m n : Nat) : Bool :=
  m != 0 && m == n

/-- Whether two objects are equal as values. -/
def equals : Object → Object → Bool
  | list xs, list ys => items xs ys
  | x, y => x.sameContent y
where
  /-- Whether the items of two lists are equal. -/
  items : List (Nat × Object) → List (Nat × Object) → Bool
    | [], [] => true
    | (m, x) :: xs, (n, y) :: ys => (sameMark m n || x.equals y) && items xs ys
    | _, _ => false

/-- Whether two objects have the same key. -/
def sameKey : Object → Object → Bool
  | expr a, expr b => Matching.identity.expr a b
  | stmt a, stmt b => Matching.identity.stmt a b
  | range a, range b => Matching.identity.range a b
  | axis a, axis b => Matching.identity.axis a b
  | reducer a, reducer b => Matching.identity.reducer a b
  | buffer a, buffer b => Matching.identity.buffer a b
  | func a, func b => Matching.identity.func a b
  | x, y => x.isDouble == y.isDouble && x.equals y

/-- Whether two objects are alike. -/
def alike : Object → Object → Bool
  | list xs, list ys => items xs ys
  | expr a, expr b => Matching.naming.expr a b
  | stmt a, stmt b => Matching.naming.stmt a b
  | range a, range b => Matching.naming.range a b
  | axis a, axis b => Matching.naming.axis a b
  | reducer a, reducer b => Matching.naming.reducer a b
  | buffer a, buffer b => Matching.naming.buffer a b
  | func a, func b => Matching.naming.func a b
  | op a, op b => Matching.naming.op a.ref b.ref
  | x, y => x.kindName == y.kindName && x.sameContent y
where
  /-- Whether the items of two lists are alike. -/
  items : List (Nat × Object) → List (Nat × Object) → Bool
    | [], [] => true
    | (m, x) :: xs, (n, y) :: ys => (sameMark m n || x.alike y) && items xs ys
    | _, _ => false

end Object

end TensorNest
