import TensorNest.Expr.Basic

/-!
# The text of expressions

Binary operations are written in parentheses, minima, maxima and calls as applications, and constants
show their type unless it is the default one of their kind.
-/

namespace TensorNest

namespace BinOp

/-- The sign of an operation that is written between its operands. -/
def symbol : BinOp → String
  | add => "+"
  | sub => "-"
  | mul => "*"
  | div => "/"
  | mod => "%"
  | min => "min"
  | max => "max"
  | eq => "=="
  | ne => "!="
  | lt => "<"
  | le => "<="
  | gt => ">"
  | ge => ">="
  | and => "&&"
  | or => "||"

/-- An operation written with the texts of its operands. -/
def write (op : BinOp) (a b : String) : String :=
  match op with
  | min | max => op.symbol ++ "(" ++ a ++ ", " ++ b ++ ")"
  | _ => "(" ++ a ++ " " ++ op.symbol ++ " " ++ b ++ ")"

end BinOp

/-- The text of a constant of a type. -/
def constText (v : Number) (t : DataType) : String :=
  if t.isBool then if v.truthy then "(bool)1" else "(bool)0"
  else if t.isFloat then
    v.text ++ (if t.bits == 16 then "h" else if t.bits == 32 then "f" else "")
  else if t.bits == 32 && t.isInt then v.text
  else "(" ++ t.text ++ ")" ++ v.text

/-- The name of an output of an operation: outputs are numbered if there are several. -/
def OpRef.outputName (r : OpRef) (index : Int) : String :=
  if 1 < r.numOutputs then r.name ++ ".v" ++ toString index else r.name

/-- The text of an operation. -/
def OpRef.text (r : OpRef) : String :=
  (if r.isCompute then "compute(" else "placeholder(") ++ r.name ++ ", " ++ toString r.idx ++ ")"

/-- The name of a called function, with the output read if its operation has several. -/
def calleeText (name : String) (func : Option OpRef) (index : Ordinal) : String :=
  match func with
  | some f => if 1 < f.numOutputs then name ++ ".v" ++ index.text else name
  | none => name

mutual

/-- The text of an expression. -/
def Expr.text : Expr → String
  | .var v => v.name
  | .const v t => constText v t
  | .str s => "\"" ++ s ++ "\""
  | .cast t e => t.text ++ "(" ++ e.text ++ ")"
  | .bin op a b => op.write a.text b.text
  | .not a => "!" ++ a.text
  | .select c t f => "select(" ++ c.text ++ ", " ++ t.text ++ ", " ++ f.text ++ ")"
  | .call _ name args _ func index =>
    calleeText name func index ++ "(" ++ commaList (exprTexts args) ++ ")"
  | .bind v value body => "(let " ++ v.name ++ " = " ++ value.text ++ " in " ++ body.text ++ ")"
  | .load _ buffer index pred => buffer.bufferName ++ "[" ++ index.text ++ "]" ++ guardText pred
  | .ramp base stride lanes =>
    "ramp(" ++ base.text ++ ", " ++ stride.text ++ ", " ++ toString lanes ++ ")"
  | .broadcast e lanes => "x" ++ toString lanes ++ "(" ++ e.text ++ ")"
  | .reduce combiner sources axes cond index =>
    "reduce(combiner=" ++ combiner.text ++ ", source=[" ++ commaList (exprTexts sources) ++
      "], axis=[" ++ commaList (axisTexts axes) ++ "]" ++ whereText cond ++ ", value_index=" ++
      toString index ++ ")"

/-- The texts of expressions. -/
def exprTexts : List Expr → List String
  | [] => []
  | e :: es => e.text :: exprTexts es

/-- The guard of a memory access. -/
def guardText : Option Expr → String
  | none => ""
  | some e => " if " ++ e.text

/-- The condition of a reduction. -/
def whereText : Option Expr → String
  | none => ""
  | some e => ", where=" ++ e.text

/-- The text of a range. -/
def Range.text : Range → String
  | ⟨min, extent⟩ => "range(min=" ++ min.text ++ ", ext=" ++ extent.text ++ ")"

/-- The text of the domain of an iteration variable. -/
def domainText : Option Range → String
  | none => "None"
  | some r => r.text

/-- The text of an iteration variable. -/
def IterVar.text : IterVar → String
  | ⟨dom, v, _, tag⟩ =>
    "iter_var(" ++ v.name ++ ", " ++ domainText dom ++ (if tag.isEmpty then "" else ", " ++ tag) ++
      ")"

/-- The texts of iteration variables. -/
def axisTexts : List IterVar → List String
  | [] => []
  | a :: as => a.text :: axisTexts as

/-- The text of a reducer. -/
def Reducer.text : Reducer → String
  | ⟨lhs, rhs, result, identity⟩ =>
    "comm_reducer(result=[" ++ commaList (exprTexts result) ++ "], lhs=[" ++
      commaList (lhs.map (·.name)) ++ "], rhs=[" ++ commaList (rhs.map (·.name)) ++
      "], identity_element=[" ++ commaList (exprTexts identity) ++ "])"

end

end TensorNest
