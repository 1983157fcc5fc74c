import TensorNest.Expr.Print
import TensorNest.Stmt.Basic

/-!
# The text of statements

One line for each statement, bodies in braces two blanks further in. Bindings, attributes, assertions
and allocations are followed by their body at the same depth.
-/

namespace TensorNest

/-- The text of what an attribute is about. -/
def Subject.text : Subject → String
  | var v => v.name
  | axis iv => iv.text
  | op r => r.text
  | tensor r index => r.name ++ ".v" ++ toString index
  | reducer r => r.text
  | other x => x.plainText

/-- The name of what an attribute is about. -/
def Subject.name : Subject → String
  | axis iv => iv.name
  | op r => r.name
  | tensor r index => r.outputName index
  | x => x.text

/-- The bounds of a region of a tensor. -/
def boundsText (bounds : List Range) : String :=
  commaList (bounds.map fun r => "[" ++ r.min.text ++ ", " ++ r.extent.text ++ "]")

/-- The blanks in front of a line. -/
def indentation (depth : Nat) : String :=
  String.ofList (List.replicate (2 * depth) ' ')

namespace Stmt

/-- The text of a statement at a depth of nesting. -/
def textAt (depth : Nat) : Stmt → String
  | bind v value body =>
    indentation depth ++ "let " ++ v.name ++ " = " ++ value.text ++ "\n" ++ body.textAt depth
  | attr subject key value body =>
    indentation depth ++ "// attr [" ++ subject.text ++ "] " ++ key ++ " = " ++ value.text ++ "\n" ++
      body.textAt depth
  | assert cond message body =>
    indentation depth ++ "assert(" ++ cond.text ++ ", " ++ message.text ++ ")\n" ++
      body.textAt depth
  | loop v min extent kind body =>
    indentation depth ++ kind.text ++ " (" ++ v.name ++ ", " ++ min.text ++ ", " ++ extent.text ++
      ") \x7b\n" ++ body.textAt (depth + 1) ++ indentation depth ++ "\x7d\n"
  | store buffer value index pred =>
    indentation depth ++ buffer.bufferName ++ "[" ++ index.text ++ "] = " ++ value.text ++
      guardText pred ++ "\n"
  | provide op output value args =>
    indentation depth ++ op.outputName output ++ "(" ++ commaList (exprTexts args) ++ ") =(" ++
      value.text ++ ")\n"
  | allocate _ buffer dtype extents _ body =>
    indentation depth ++ "allocate " ++ buffer.name ++ "[" ++ dtype.text ++
      String.join (extents.map fun e => " * " ++ e.text) ++ "]\n" ++ body.textAt depth
  | realize op output _ bounds _ body =>
    indentation depth ++ "realize " ++ op.outputName output ++ "(" ++ boundsText bounds ++
      ") \x7b\n" ++ body.textAt (depth + 1) ++ indentation depth ++ "\x7d\n"
  | prefetch op output _ bounds =>
    indentation depth ++ "prefetch " ++ op.outputName output ++ "(" ++ boundsText bounds ++ ")\n"
  | seq ss => textsAt depth ss
  | branch cond onTrue none =>
    indentation depth ++ "if (" ++ cond.text ++ ") \x7b\n" ++ onTrue.textAt (depth + 1) ++
      indentation depth ++ "\x7d\n"
  | branch cond onTrue (some onFalse) =>
    indentation depth ++ "if (" ++ cond.text ++ ") \x7b\n" ++ onTrue.textAt (depth + 1) ++
      indentation depth ++ "\x7d else \x7b\n" ++ onFalse.textAt (depth + 1) ++
      indentation depth ++ "\x7d\n"
  | eval e => indentation depth ++ e.text ++ "\n"
where
  /-- The text of several statements at a depth of nesting. -/
  textsAt (depth : Nat) : List Stmt → String
    | [] => ""
    | s :: ss => s.textAt depth ++ textsAt depth ss

/-- The text of a statement. -/
def text (s : Stmt) : String :=
  s.textAt 0

end Stmt

end TensorNest
