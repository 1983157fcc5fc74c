import TensorNest.Decimal.Column
import TensorNest.Run.Element

/-!
# Texts of arrays

An array is written as its elements in brackets, the elements of a column in one width. Rows that are too
long for a line go on in the next line, and the rows of an array of several axes stand in lines of their
own.
-/

namespace TensorNest

/-- The elements of an array apart from the memory that they are in. -/
structure Snapshot where
  type : ElemType
  shape : List Nat
  elements : List Number
  deriving Repr, Inhabited

/-- The text of an element of a type. -/
def ElemType.elementText (t : ElemType) : Number → String
  | .float x =>
    match t with
    | .float bits => Decimal.textIn (ElemType.format bits) x
    | _ => Decimal.floatText x
  | x => x.text

/-- The text of an element of a type with its type. -/
def ElemType.described (t : ElemType) (x : Number) : String :=
  match t with
  | .bool => "np." ++ x.text ++ "_"
  | t => "np." ++ t.name ++ "(" ++ t.elementText x ++ ")"

namespace Snapshot

/-- The longest line. -/
def lineWidth : Nat := 75

/-- The texts of the elements in one width. -/
def words (a : Snapshot) : List String :=
  match a.type with
  | .float bits =>
    Decimal.columnTexts (ElemType.format bits) (a.elements.filterMap fun
      | .float x => some x
      | _ => none)
  | .bool =>
    a.elements.map fun x => if x.truthy then (if a.shape.isEmpty then "True" else " True") else "False"
  | _ =>
    let texts := a.elements.map fun x => x.text.toList
    let width := Decimal.widest texts
    texts.map fun cs => String.ofList (Decimal.padStart width cs)

/-- The end of a line that is wrapped, without blanks. -/
def trimEnd (s : String) : String :=
  String.ofList (s.toList.reverse.dropWhile (· = ' ')).reverse

/-- The words of a row in lines, each line indented: `done` are the finished lines and `line` the one that
    is being written. -/
def wrapWords (separator indent : String) (width : Nat) (done line : String) : List String → String
  | [] => done ++ line
  | w :: ws =>
    let wraps := width < line.length + w.length && indent.length < line.length
    let done := if wraps then done ++ trimEnd line ++ "\n" else done
    let line := (if wraps then indent else line) ++ w
    wrapWords separator indent width done (if ws.isEmpty then line else line ++ separator) ws

/-- Items in groups of one size. -/
def groups {α : Type} (size : Nat) (xs : List α) : Nat → List (List α)
  | 0 => []
  | n + 1 => xs.take size :: groups size (xs.drop size) n

/-- The parts of an array along its first axis, if it has axes. -/
def parts? (a : Snapshot) : Option (List Snapshot) :=
  match a.shape with
  | [] => none
  | n :: shape =>
    some ((groups (shape.foldl (· * ·) 1) a.elements n).map fun xs => ⟨a.type, shape, xs⟩)

/-- The words of the elements in brackets, by the lengths of the axes. -/
def bracketed (separator : String) (indent : String) (width : Nat) : List Nat → List String → String
  | [], ws => ws.headD ""
  | [_], ws =>
    let marks := max (trimEnd separator).length 1
    let body := wrapWords separator indent (width - marks) "" indent ws
    "[" ++ (body.drop indent.length).toString ++ "]"
  | n :: d :: ds, ws =>
    let size := shapeProduct (d :: ds)
    let rows := (groups size ws n).map fun row =>
      bracketed separator (indent ++ " ") (width - 1) (d :: ds) row
    let gap := trimEnd separator ++ String.ofList (List.replicate (ds.length + 1) '\n')
    "[" ++ String.intercalate (gap ++ indent) rows ++ "]"
where
  /-- The product of lengths. -/
  shapeProduct (ds : List Nat) : Nat := ds.foldl (· * ·) 1

/-- The text of an array. -/
def text (a : Snapshot) : String :=
  if a.elements.isEmpty then "[]"
  else if a.shape.isEmpty then (a.elements.map a.type.elementText).headD ""
  else bracketed " " " " lineWidth a.shape a.words

/-- Whether the type of an array can be told from the text of its elements. -/
def typeShown (a : Snapshot) : Bool :=
  match a.type with
  | .bool | .int 64 | .float 64 => a.elements.isEmpty
  | _ => true

/-- The text of an array with its type, unless that can be told from its elements. -/
def described (a : Snapshot) : String :=
  let start := "array("
  let indent := String.ofList (List.replicate (start.length + 1) ' ')
  let body :=
    if !a.elements.isEmpty then bracketed ", " indent (lineWidth - 1) a.shape a.words
    else if a.shape = [0] then "[]"
    else
      let lengths := String.intercalate ", " (a.shape.map toString)
      "[], shape=(" ++ lengths ++ (if a.shape.length = 1 then ",)" else ")")
  let text := start ++ body
  if !a.typeShown then text ++ ")"
  else
    let mark := "dtype=" ++ a.type.name ++ ")"
    let last := (text.toList.reverse.takeWhile (· != '\n')).length
    let gap := if lineWidth < last + mark.length + 1 then
        "\n" ++ String.ofList (List.replicate start.length ' ')
      else " "
    text ++ "," ++ gap ++ mark

end Snapshot

end TensorNest
