import TensorNest.Graph.Basic
import TensorNest.Text.Blank

/-!
# Iteration variables

Ranges and iteration variables built from operands. A domain is a range, or a pair of a start and an
end; iteration variables of most kinds need one.
-/

namespace TensorNest

namespace Range

/-- The range of `extent` integers from `min`. -/
def ofMinExtent (min extent : Operand) : Except Error Range := do
  let min ← Expr.convert min
  let extent ← Expr.convert extent
  return ⟨min, extent⟩

/-- The range from `start` to before `stop`. -/
def ofBounds (start stop : Operand) : Except Error Range := do
  let start ← Expr.convert start
  return ⟨start, ← Expr.sub stop start⟩

end Range

/-- How the domain of an iteration variable is given. -/
inductive Domain where
  | range (r : Range)
  | operand (x : Operand)
  deriving Inhabited

/-- The words for a name of a kind: hyphens join them and letters are small. -/
def normalToken (s : String) : String :=
  Text.lower (String.ofList (s.toList.map fun c => if c == '_' then '-' else c))

/-- The item of a list at a number that is not negative. -/
def itemAtNumber? {α : Type} (xs : List α) (n : Int) : Option α :=
  if 0 ≤ n then xs[n.toNat]? else none

/-- The kind of iteration variable that an operand names, by its word or its number. -/
def IterKind.ofOperand (x : Operand) : Except Error IterKind :=
  let unknown := Error.unknownIterKind x.plainText x.detail?
  match x with
  | .iterKind k => .ok k
  | .number (.int n) => ((itemAtNumber? IterKind.all n).map .ok).getD (.error unknown)
  | .number (.bool b) => .ok (if b then .threadIndex else .dataParallel)
  | .callKind k => ((itemAtNumber? IterKind.all k.toNat).map .ok).getD (.error unknown)
  | x =>
    let key := normalToken x.plainText
    if key == "commutative-reduce" then .ok .reduction
    else
      match IterKind.all.find? (·.token == key) with
      | some k => .ok k
      | none => .error unknown

/-- The kind of call that an operand names, by its word or its number. -/
def CallKind.ofOperand (x : Operand) : Except Error CallKind :=
  match x with
  | .callKind k => .ok k
  | .iterKind k =>
    match itemAtNumber? CallKind.all k.toNat with
    | some k => .ok k
    | none => .error (.invalidValue (x.shown ++ " is not a valid CallType"))
  | .number v =>
    match v.asInt?.bind (itemAtNumber? CallKind.all) with
    | some k => .ok k
    | none => .error (.invalidValue (v.text ++ " is not a valid CallType"))
  | .text s =>
    match CallKind.names.find? (·.1 == normalToken s) with
    | some (_, k) => .ok k
    | none => .error (.invalidValue ("unknown call type: " ++ s))
  | _ => .error .invalidOperand

/-- An iteration variable of a kind. Only thread axes and opaque ones can be without a domain. -/
def iterationVar (domain : Domain) (name : String) (kind : IterKind) (tag : String) :
    Build IterVar := do
  let dom : Option Range ←
    match domain with
    | .range r => pure (some r)
    | .operand .nothing =>
      if kind != .threadIndex && kind != .opaqueAxis then
        throw (.missingDomain name kind.token)
      pure none
    | .operand x => do
      let (start, stop) ← x.pair
      pure (some (← Range.ofBounds start stop))
  return ⟨dom, ← freshVar name, kind, tag⟩

/-- A thread axis, named as it is tagged. -/
def threadAxis (name : String) (domain : Domain) : Build IterVar :=
  iterationVar domain name .threadIndex name

/-- An axis to reduce over, from its range, its two bounds or its extent. -/
def reduceAxis (domain : Domain) (name : String) : Build IterVar := do
  let dom : Range ←
    match domain with
    | .range r => pure r
    | .operand x =>
      if x.isSingle then Range.ofBounds (0 : Int) x
      else
        match ← x.items with
        | [start, stop] => Range.ofBounds start stop
        | _ => throw .invalidOperand
  return ⟨some dom, ← freshVar name dom.extent.dtype, .reduction, ""⟩

end TensorNest
