import TensorNest.Config
import TensorNest.Lower
import TensorNest.Module
import TensorNest.Run.Memory

/-!
# Outlines

An outline shows what an object is made of as plain data: truth values, integers, texts, lists and records.
Expressions, axes and other terms are shown by their text.
-/

namespace TensorNest

/-- Plain data. -/
inductive Outline where
  | nothing
  | flag (b : Bool)
  | int (n : Int)
  | text (s : String)
  | list (xs : List Outline)
  | record (fields : List (String × Outline))
  deriving Inhabited

namespace Outline

instance : Coe String Outline := ⟨text⟩
instance : Coe Bool Outline := ⟨flag⟩
instance : Coe Int Outline := ⟨int⟩
instance : Coe Nat Outline := ⟨fun n => int n⟩

/-- A list of texts. -/
def texts (ss : List String) : Outline := list (ss.map text)

/-- A text that may be missing. -/
def textOr (s : Option String) : Outline := (s.map text).getD nothing

/-- A number; a floating-point number is told apart by a record. -/
def number : Number → Outline
  | .bool b => b
  | .int n => n
  | x => record [("float", x.text)]

/-- An element of an array. -/
def element : Number → Outline
  | .float x => Decimal.floatText x
  | x => number x

end Outline

open Outline (texts textOr)

def Setting.outline : Setting → Outline
  | nothing => .nothing
  | number v => .number v
  | text s => .text s
  | list xs => .list (outlines xs)
where
  /-- The outlines of settings. -/
  outlines : List Setting → List Outline
    | [] => []
    | x :: xs => x.outline :: outlines xs

/-- The properties of a data type that hold. -/
def DataType.properties (t : DataType) : List String :=
  ([("int", t.isInt), ("uint", t.isUInt), ("integer", t.isInteger), ("float", t.isFloat),
    ("handle", t.isHandle), ("bool", t.isBool), ("scalar", t.isScalar)].filter (·.2)).map (·.1)

def DataType.outline (t : DataType) : Outline :=
  .record [("dtype", t.text), ("code", t.code.text.toUpper), ("bits", t.bits), ("lanes", t.lanes),
    ("bytes", t.bytes), ("is", texts t.properties)]

def CallKind.outline (k : CallKind) : Outline :=
  .record [("enum", k.label), ("value", k.toNat)]

def IterKind.outline (k : IterKind) : Outline :=
  .record [("enum", k.label), ("value", k.toNat)]

def Expr.outline (e : Expr) : Outline :=
  .record [("expr", e.text), ("dtype", e.dtype.text)]

def IterVar.outline (iv : IterVar) : Outline :=
  .record [("iter_var", iv.text), ("kind", iv.kind.token), ("dtype", iv.dtype.text)]

def Buffer.outline (b : Buffer) : Outline :=
  .record [("buffer", b.text), ("dtype", b.dtype.text), ("ndim", b.shape.length),
    ("shape", texts (b.shape.map (·.text))), ("strides", texts (b.strides.map (·.text))),
    ("elem_offset", b.elemOffset.text), ("scope", b.scope), 
    ("data_alignment", b.alignment.outline), ("offset_factor", b.offsetFactor.outline)]

def Func.outline (f : Func) : Outline :=
  .record [("func", f.text), ("type", f.kind.text.toUpper), ("args", texts (f.params.map (·.text))),
    ("thread_axis", texts (f.threadAxes.map (·.text))),
    ("handles", .list (f.handles.map fun (v, t) => texts [v.name, t.text])),
    ("restricted", f.restricted.outline)]

def Relation.outline : Relation → Outline
  | .split p o i f n =>
    .list [.text "split", .text p.name, .text o.name, .text i.name, textOr (f.map (·.text)),
      textOr (n.map (·.text))]
  | .fuse o i f => texts ["fuse", o.name, i.name, f.name]
  | .rebase p r => texts ["rebase", p.name, r.name]

def Annotation.outline (iv : IterVar) (a : Annotation) : Outline :=
  .record [("axis", iv.name), ("type", textOr (a.kind.map (·.token))),
    ("thread", textOr (a.thread.map (·.text))),
    ("prefetch", .list ((a.prefetched.zip a.prefetchOffsets).map fun (x, e) =>
      texts [x.name, e.text]))]

/-- How a stage is attached, with the names of the stage and of the axis. -/
def Schedule.attachment (s : Schedule) (st : Stage) : String × Option String × Option String :=
  match st.attach with
  | .root => ("ROOT", none, none)
  | .inlined => ("INLINE", none, none)
  | .inside id axis => ("SCOPE", (s.stage? id).map Stage.name, some axis.name)

def Schedule.stageOutline (s : Schedule) (st : Stage) : Except Error Outline := do
  let inputs ← st.op.inputs
  let (attach, parent, axis) := s.attachment st
  return .record [("stage", st.text), ("leaf", texts (st.leaves.map (·.text))),
    ("kinds", texts (st.leaves.map fun l => (st.kindOf l).token)),
    ("all", texts (st.all.map (·.name))), ("relations", .list (st.relations.map (·.outline))),
    ("attrs", .list (st.all.filterMap fun iv => (st.annotation? iv).map (·.outline iv))),
    ("attach", attach), ("attach_stage", textOr parent), ("attach_axis", textOr axis),
    ("scope", st.scope.outline), ("is_output", st.isOutput), ("double_buffered", st.doubleBuffered),
    ("inputs", texts (inputs.map (·.name)))]

def Schedule.outline (s : Schedule) : Outline :=
  .record [("schedule", texts (s.stages.map (·.text))), ("outputs", texts (s.outputs.map (·.name)))]

/-- The ranges of the axes of a stage, and of the threads that they are bound to. -/
def Stage.rangesOutline (m : Ranges) (st : Stage) : Outline :=
  let row (iv : IterVar) : List Outline :=
    ((m.find? iv).map fun r => texts [iv.name, r.text]).toList
  let threads := st.all.flatMap fun iv => ((st.thread? iv).map row).getD []
  .list [.text st.name, .list (st.all.flatMap row ++ threads)]

def Target.outline (t : Target) : Outline :=
  .record [("target", t.name), ("keys", texts t.keys), ("max_num_threads", t.maxThreads),
    ("warp", t.warpSize), ("device_type", t.deviceType), ("is_gpu", t.isGpu)]

def Config.outline (c : Config) : Outline :=
  .record [("config", .record (Config.fields.map fun f => (f.name, (f.get c).outline)))]

/-- The outline of a module and of those that it imports, down to a depth. -/
def Modules.outlineWithin (ms : Modules) : Nat → Nat → Outline
  | 0, _ => .nothing
  | depth + 1, id =>
    match ms[id]? with
    | some m =>
      .record [("module", m.name), ("target", m.target), ("entries", texts m.entryNames),
        ("imports", .list (m.imports.map (ms.outlineWithin depth)))]
    | none => .nothing

def Modules.outline (ms : Modules) (id : Nat) : Outline :=
  ms.outlineWithin (ms.size + 1) id

def View.outline (m : Memory) (v : View) : Outline :=
  .record [("array", v.type.name), ("shape", .list (v.shape.map fun (n : Nat) => .int n)),
    ("data", .list ((v.elements m).map .element))]

/-- What an error carries, as a record. -/
def Error.outline (e : Error) : Outline :=
  .record (e.context.map fun (k, d) => (k, match d with
    | .text s => .text s
    | .int n => .int n
    | .flag b => .flag b
    | .texts ss => texts ss))

end TensorNest
