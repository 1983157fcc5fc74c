import TensorNest.Object.Same
import TensorNest.Outline
import TensorNest.Pass
import TensorNest.Session

/-!
# Objects in a session

What an object stands for as an operand, as an argument or as the subject of an attribute, and how it is
shown. The elements of an array, and the state of a stage, are those of the session.
-/

namespace TensorNest

/-- A target as shown in messages. -/
def Target.shown (t : Target) : String :=
  "TargetInfo(target_name=" ++ Text.quoted t.name ++ ", keys=frozenset(\x7b" ++
    commaList (t.keys.map Text.quoted) ++ "\x7d), max_num_threads=" ++ toString t.maxThreads ++
    ", thread_warp_size=" ++ toString t.warpSize ++ ", device_type=" ++ toString t.deviceType ++ ")"

namespace Session

/-- The text of a stage. -/
def stageText (s : Session) (schedule id : Nat) : String :=
  (((s.schedules[schedule]?).bind (·.stage? id)).map (·.text)).getD ""

/-- An object as an operand of a builder. -/
def operand (s : Session) : Object → Operand
  | .nothing => .nothing
  | .number v => .number v
  | .text t => .text t
  | .list xs => .list (operands xs)
  | .sized t v => .sized t v
  | .dtype t => .dtype t
  | .callKind k => .callKind k
  | .iterKind k => .iterKind k
  | .expr e => .expr e
  | .axis iv => .axis iv
  | .range r => .range r
  | .reducer r => .reducer r
  | .buffer b => .buffer b
  | .array v => .array (v.snapshot s.memory)
  | .tensor t => .tensor t.name t.text t.shape.length
  | .stmt t => .other t.kindName t.text t.text true
  | .func f => .other "LoweredFunc" f.text f.text true
  | .op o => .other (Object.op o).kindName o.ref.text o.ref.text true
  | .stage sid id => .other "Stage" (s.stageText sid id) (s.stageText sid id) false
  | .target t => .other "TargetInfo" t.shown t.shown false
  | .config c => .other "BuildConfig" c.shown c.shown false
  | .module id =>
    let text := ((s.modules[id]?).map (·.text)).getD ""
    .other "InterpModule" text text false
  | x => .other x.kindName x.kindName x.kindName false
where
  /-- The items of a list as operands. -/
  operands : List (Nat × Object) → List Operand
    | [] => []
    | (_, x) :: xs => s.operand x :: operands xs

/-- An object as an argument of a function that is lowered. -/
def argument (s : Session) : Object → Argument
  | .tensor t => .tensor t
  | .buffer b => .buffer b
  | .expr (.var v) => .var v
  | x => .other (s.operand x)

/-- What an attribute that names an object is about. -/
def subject (s : Session) : Object → Subject
  | .expr (.var v) => .var v
  | .axis iv => .axis iv
  | .op o => .op o.ref
  | .tensor t => .tensor t.op.ref t.index
  | .reducer r => .reducer r
  | x => .other (s.operand x)

/-- The text of an object. -/
def textOf (s : Session) (x : Object) : String :=
  (s.operand x).plainText

/-- The objects of a list, the characters of a text, and the parts of an array along its first axis. A
    tensor would be read at one index after the other. -/
def items (s : Session) : Object → Except Error (List Object)
  | .list xs => .ok (xs.map (·.2))
  | .text t => .ok (t.toList.map fun c => .text c.toString)
  | .array v =>
    if v.rank = 0 then .error .invalidOperand
    else .ok (v.parts.map fun w =>
      if w.rank = 0 then .sized w.type (s.memory.read w.storage w.offset) else .array w)
  | x => do
    let _ ← (s.operand x).items
    throw .invalidOperand

/-- A function, or what stands in its place. -/
def function (s : Session) : Object → Func ⊕ Operand
  | .func f => .inl f
  | x => .inr (s.operand x)

/-- The functions of a list, or a single function. -/
def functions (s : Session) : Object → Except Error (List (Func ⊕ Operand))
  | .func f => .ok [.inl f]
  | x => do return (← s.items x).map s.function

/-- Applies a pass with its options. -/
def applyPass (s : Session) (p : Pass) (options : List Object) (x : Object) : Build Object := do
  let program : Pass.Program ←
    match x with
    | .stmt t => pure (.stmt t)
    | .expr e => pure (.expr e)
    | .range r => pure (.range r)
    | .func f => pure (.func f)
    | _ => throw .invalidOperand
  match ← p.apply (options.map s.operand) program with
  | .expr e => return .expr e
  | .range r => return .range r
  | .stmt t => return .stmt t
  | .func f => return .func f
  | .funcs fs => return .ofList (fs.map .func)

/-- The item of an object at a position or under a name, none if there is none at the position. -/
def item? (s : Session) (x key : Object) : Except Error (Option Object) :=
  match x, key, key.number?.bind (·.asInt?) with
  | .list xs, _, some i => .ok ((itemAt? xs i).map (·.2))
  | .text t, _, some i => .ok ((itemAt? t.toList i).map fun c => .text c.toString)
  | .array v, _, some i => do
    let parts ← s.items (.array v)
    return itemAt? parts i
  | .tensor t, _, _ => do return some (.expr (← t.read [s.operand key]))
  | .module id, .text name, _ => do return some (.entry (← s.modules.entry id name false))
  | .built id symbols, key, _ =>
    let name := (s.operand key).plainText
    match symbols.lookup name with
    | some symbol => do return some (.entry (← s.modules.entry id symbol false))
    | none => .error (.missingKey name)
  | _, _, _ => .error .invalidOperand

/-- An object as a sized scalar of an element type; several numbers make an array. -/
def sizedOf (t : ElemType) (x : Object) : Edit Session Object := do
  let s : Session ← get
  match ← x.value.cast s.memory t.dataType with
  | .scalar t v => return .sized t v
  | .vector t vs =>
    let shape := match x with
      | .array v => v.shape
      | _ => [vs.length]
    return .array (← addArray t shape vs)
  | _ => throw .invalidOperand

/-- The elements of an array, scaled and rounded to the nearest integers, halves upwards. What is not
    finite is told by the text of the element. -/
def quantized (v : View) (scale : Number) : Edit Session (List Object) := do
  let scale ← scale.toFloat
  (v.elements (← get).memory).mapM fun x => do
    let x ← x.toFloat
    match Binary.truncate? (x * scale + 0.5).floor with
    | some n => return .number (.int n)
    | none => return .text (Decimal.floatText x)

/-! ### Outlines -/

/-- The outline of an operation, given that of its attributes. -/
def operationOutline (held : Nat → Except Error Outline) (o : Operation) :
    Except Error Outline := do
  let inputs ← o.inputs
  let attrs ← o.attrs.mapM fun (k, id) => do return (k, ← held id)
  let fields := [("op", .text o.ref.text), ("tag", .text o.tag), ("attrs", .record attrs),
    ("outputs", .texts (o.outputs.map (·.text))), ("inputs", .texts (inputs.map (·.name)))]
  let body := [("axis", .texts (o.axes.map (·.text))),
    ("reduce_axis", .texts (o.reduceAxes.map (·.text))), ("body", .texts (o.body.map (·.text)))]
  return .record (if o.isCompute then fields ++ body else fields)

/-- The outline of an object, given that of the attributes of operations. -/
def outlineWith (s : Session) (held : Nat → Except Error Outline) :
    Object → Except Error Outline
  | .nothing => .ok .nothing
  | .number v | .sized _ v => .ok (.number v)
  | .text t => .ok (.text t)
  | .list xs => do return .list (← outlines xs)
  | .dtype t => .ok t.outline
  | .callKind k => .ok k.outline
  | .iterKind k => .ok k.outline
  | .expr e => .ok e.outline
  | .stmt t => .ok (.record [("stmt", t.text)])
  | .axis iv => .ok iv.outline
  | .range r => .ok (.record [("node", r.text)])
  | .reducer r => .ok (.record [("node", r.text)])
  | .tensor t => .ok (.record [("tensor", t.text)])
  | .op o => operationOutline held o
  | .buffer b => .ok b.outline
  | .func f => .ok f.outline
  | .stage sid id =>
    match s.schedules[sid]? with
    | some sched => ((sched.stage? id).map sched.stageOutline).getD (.ok .nothing)
    | none => .ok .nothing
  | .schedule id => .ok (((s.schedules[id]?).map Schedule.outline).getD .nothing)
  | .target t => .ok t.outline
  | .config c => .ok c.outline
  | .module id => .ok (s.modules.outline id)
  | .built id symbols =>
    .ok (.record [("module", s.modules.outline id),
      ("functions", .record (symbols.map fun (n, t) => (n, .text t)))])
  | .entry e => .ok (.record [("function", e.func.name)])
  | .array v => .ok (v.outline s.memory)
  | .other kind => .ok (.text kind)
where
  /-- The outlines of the items of a list. -/
  outlines : List (Nat × Object) → Except Error (List Outline)
    | [] => .ok []
    | (_, x) :: xs => do
      let o ← s.outlineWith held x
      return o :: (← outlines xs)

/-- The outline of an object, with attributes of attributes down to a depth. -/
def outlineWithin (s : Session) : Nat → Object → Except Error Outline
  | 0, x => s.outlineWith (fun _ => .ok .nothing) x
  | depth + 1, x =>
    s.outlineWith (fun id => ((s.attributes[id]?).map (s.outlineWithin depth)).getD (.ok .nothing)) x

/-- The outline of an object. An attribute only has attributes that were kept before it. -/
def outline (s : Session) (x : Object) : Except Error Outline :=
  s.outlineWithin s.attributes.size x

end Session

end TensorNest
