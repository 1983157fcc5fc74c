import TensorNest.Object
import TensorNest.Run.Math
import TensorNest.Template

/-!
# Operators

The operators between objects of any kind. If one operand is a term, the result is one. Sized scalars and
arrays are combined element by element in their common type, an array being repeated along its missing
axes and along those of length one. Plain numbers are exact, texts and lists can be joined, repeated and
compared, and everything else has no operators.
-/

namespace TensorNest

namespace BinOp

/-- A comparison with its operands exchanged. -/
def exchanged : BinOp → BinOp
  | lt => gt
  | le => ge
  | gt => lt
  | ge => le
  | op => op

/-- Whether a comparison holds for things that stand in an order. -/
def holds (op : BinOp) (o : Ordering) : Bool :=
  match op with
  | eq => o == .eq
  | ne => o != .eq
  | lt => o == .lt
  | le => o != .gt
  | gt => o == .gt
  | ge => o != .lt
  | _ => false

/-- An operator between plain numbers. Division is exact before it is rounded, also of integers, and the
    remainder has the sign of the divisor. -/
def onNumbers (op : BinOp) (x y : Number) : Except Error Number :=
  match op with
  | div => x.ratio y
  | mod => x.floorMod y
  | op => Expr.foldValue op false x y

/-- An operator between numbers of element types. -/
def onNumeric (op : BinOp) (a b : Numeric) : Except Error Numeric :=
  match op with
  | add => a.add b
  | sub => a.sub b
  | mul => a.mul b
  | div => a.ratio b
  | mod => a.floorMod b
  | op => a.compare op b

end BinOp

/-! ### Shapes -/

/-- The shape that two shapes, innermost axis first, are brought to, if they fit. -/
def commonAxes? : List Nat → List Nat → Option (List Nat)
  | [], ds => some ds
  | ds, [] => some ds
  | d :: ds, e :: es => do
    let rest ← commonAxes? ds es
    if d = e || e = 1 then some (d :: rest) else if d = 1 then some (e :: rest) else none

/-- The shape that two shapes are brought to. -/
def commonShape (ds es : List Nat) : Except Error (List Nat) :=
  match commonAxes? ds.reverse es.reverse with
  | some shape => .ok shape.reverse
  | none => .error (.broadcastShapes [ds.map Int.ofNat, es.map Int.ofNat])

namespace Snapshot

/-- An array in a shape of as many axes, repeated along axes of length one. -/
def stretched : List Nat → Snapshot → List Number
  | [], a => a.elements
  | d :: ds, a =>
    let parts := a.parts?.getD []
    let parts := if parts.length = 1 then List.replicate d (parts.headD a) else parts
    parts.flatMap (stretched ds)

/-- The elements of an array brought to a shape. -/
def broadcast (shape : List Nat) (a : Snapshot) : List Number :=
  let axes := List.replicate (shape.length - a.shape.length) 1 ++ a.shape
  stretched shape { a with shape := axes }

end Snapshot

/-- A number without a type, or an array of elements; a sized scalar is one without axes. -/
inductive Elements where
  | free (v : Number)
  | typed (a : Snapshot)

namespace Elements

def shape : Elements → List Nat
  | free _ => []
  | typed a => a.shape

/-- The numbers in a shape. -/
def numeric (shape : List Nat) : Elements → Numeric
  | free v => .free v
  | typed a => .typed a.type (.many (a.broadcast shape))

/-- The elements that operands stand for. -/
def ofOperand? : Operand → Option Elements
  | .number v => some (free v)
  | .callKind k => some (free (.int k.toNat))
  | .iterKind k => some (free (.int k.toNat))
  | .sized t v => some (typed ⟨t, [], [v]⟩)
  | .array a => some (typed a)
  | .list xs => do
    let vs ← xs.mapM fun
      | .number v => some v
      | _ => none
    let t := vs.foldl (fun t v => t.join (ElemType.ofKind v)) .bool
    some (typed ⟨if vs.isEmpty then .float 64 else t, [vs.length], vs.map t.convert⟩)
  | _ => none

/-- An operator carried out element by element. -/
def combine (op : BinOp) (a b : Elements) : Except Error Snapshot := do
  let shape ← commonShape a.shape b.shape
  let r ← op.onNumeric (a.numeric shape) (b.numeric shape)
  return ⟨r.type, shape, r.lanes.toList⟩

end Elements

namespace Operand

/-- Whether an operand is a term, which can stand in an expression. -/
def isTerm : Operand → Bool
  | expr _ | axis _ => true
  | _ => false

/-- Whether an operand is made of elements of a type. -/
def isTyped : Operand → Bool
  | sized .. | array _ => true
  | _ => false

/-- Whether one of two operands is a list and the other a scalar, whose product is the repeated list. -/
def repeats : Operand → Operand → Bool
  | list _, sized .. | sized .., list _ => true
  | _, _ => false

/-- How often a sequence is repeated by an operand: an integer, which may be a sized one. -/
def count? : Operand → Option Int
  | number v => v.asInt?
  | callKind k => some k.toNat
  | iterKind k => some k.toNat
  | sized (.int _) (.int n) | sized (.uint _) (.int n) => some n
  | _ => none

end Operand

/-- What an operator gives: an object, or elements that still have to be put into memory. -/
abbrev Outcome := Object ⊕ Snapshot

namespace Outcome

def flag (b : Bool) : Outcome := .inl (.number (.bool b))

end Outcome

/-- Items one after the other, a number of times that fits a signed word. -/
def repeated {α : Type} (xs : List α) (n : Int) : Except Error (List α) :=
  if !(ElemType.int 64).holds n then .error .overflow
  else .ok (if xs.isEmpty then [] else (List.replicate n.toNat xs).flatten)

/-- An operator of which one operand is a term. A sized scalar before a term takes part as a plain number;
    its comparison with the term only tells that there is one. -/
def operateTerm (op : BinOp) (a b : Operand) : Except Error Outcome := do
  match a with
  | .sized _ v =>
    if op.isComparison then
      let _ ← Expr.binary op.exchanged b (.number v)
      return .inl (.sized .bool (.bool true))
    return .inl (.expr (← Expr.binary op (.number v) b))
  | a =>
    if a.isTerm || !op.isComparison then return .inl (.expr (← Expr.binary op a b))
    return .inl (.expr (← Expr.binary op.exchanged b a))

/-- An operator between texts, and between a text or a list and the number of its repetitions. -/
def operateSequence (op : BinOp) (x y : Object) (a b : Operand) : Except Error Outcome :=
  match op, x, y, a.count?, b.count? with
  | .add, .text s, .text t, _, _ => .ok (.inl (.text (s ++ t)))
  | .mul, .text s, _, _, some n | .mul, _, .text s, some n, _ => do
    return .inl (.text (String.ofList (← repeated s.toList n)))
  | .mul, .list xs, _, _, some n | .mul, _, .list xs, some n, _ => do
    return .inl (.list (← repeated xs n))
  | op, .text s, .text t, _, _ =>
    if op.isComparison then .ok (.flag (op.holds (compare s t))) else .error .invalidOperand
  | _, _, _, _, _ => .error .invalidOperand

/-- Whether an object is looked into by keys. -/
def Object.isKeyed : Object → Bool
  | .list _ | .array _ | .sized .. | .tensor _ | .schedule _ | .module _ | .built .. => true
  | _ => false

namespace Session

/-- An operator between objects that are not both lists. -/
def operateSingle (s : Session) (op : BinOp) (x y : Object) : Except Error Outcome := do
  let a := s.operand x
  let b := s.operand y
  match op, x with
  | .mod, .text t => return .inl (.text (← Template.fill t b y.isKeyed))
  | _, _ =>
    if a.isTerm || b.isTerm then operateTerm op a b
    else
      match x.number?, y.number? with
      | some v, some w => return .inl (.number (← op.onNumbers v w))
      | _, _ =>
        match Elements.ofOperand? a, Elements.ofOperand? b with
        | some u, some v =>
          if (a.isTyped || b.isTyped) && !(op = .mul && a.repeats b) then return .inr (← u.combine op v)
          else operateSequence op x y a b
        | _, _ => operateSequence op x y a b

/-- An operator between objects. Lists are joined, and compared by their first items that differ. -/
def operated (s : Session) (op : BinOp) : Object → Object → Except Error Outcome
  | .list xs, .list ys =>
    if op.isComparison then compared xs ys
    else if op = .add then .ok (.inl (.list (xs ++ ys)))
    else .error .invalidOperand
  | x, y => s.operateSingle op x y
where
  /-- The comparison of lists. -/
  compared : List (Nat × Object) → List (Nat × Object) → Except Error Outcome
    | [], [] => .ok (.flag (op.holds .eq))
    | [], _ :: _ => .ok (.flag (op.holds .lt))
    | _ :: _, [] => .ok (.flag (op.holds .gt))
    | (m, x) :: xs, (n, y) :: ys =>
      if Object.sameMark m n || x.equals y then compared xs ys else s.operated op x y

/-- The object of an outcome: elements without axes are a sized scalar, others an array of their own. -/
def ofOutcome : Outcome → Edit Session Object
  | .inl x => return x
  | .inr a => do
    match a.shape, a.elements with
    | [], [v] => return .sized a.type v
    | _, _ => return .array (← addArray a.type a.shape a.elements)

/-- An operator between objects of the session. -/
def operate (op : BinOp) (x y : Object) : Edit Session Object := do
  let s : Session ← get
  ofOutcome (← s.operated op x y)

/-- The opposite of an object: of a number, of the elements of an array or of a term. -/
def negate (x : Object) : Edit Session Object := do
  let s : Session ← get
  match s.operand x, x.number? with
  | _, some v => return .number v.neg
  | .expr e, _ => return .expr (← Expr.neg (.expr e))
  | .axis iv, _ => return .expr (← Expr.neg (.axis iv))
  | a, _ =>
    match a.isTyped, Elements.ofOperand? a with
    | true, some u => do
      let r ← (u.numeric u.shape).neg
      ofOutcome (.inr ⟨r.type, u.shape, r.lanes.toList⟩)
    | _, _ => throw .invalidOperand

end Session

end TensorNest
