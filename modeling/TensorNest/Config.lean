import TensorNest.Expr.Build
import TensorNest.Setting

/-!
# Options

The options of lowering and building, each with its default. Options are given by name; all names that
are not known are reported together.
-/

namespace TensorNest

/-- The options of lowering and building. -/
structure Config where
  /-- Innermost loops are unrolled while extent times steps stays within this number. -/
  unrollMaxStep : Setting := (0 : Int)
  /-- At most this many unrolled loops are nested. -/
  unrollMaxDepth : Setting := (8 : Int)
  /-- Loops up to this extent are unrolled. -/
  unrollMaxExtent : Setting := (0 : Int)
  /-- Unrolled loops are written out, not only marked. -/
  unrollExplicit : Setting := true
  /-- Barriers are also inserted for global memory. -/
  globalBarrier : Setting := false
  /-- Loops of constant extent are partitioned too. -/
  partitionConstLoops : Setting := false
  /-- The offset factor of declared buffers. -/
  offsetFactor : Setting := (0 : Int)
  /-- The alignment of declared buffers, `-1` for the default. -/
  dataAlignment : Setting := (-1 : Int)
  /-- The buffers of a function do not overlap. -/
  restricted : Setting := true
  /-- The factor by which loops over double buffers are split. -/
  doubleBufferSplit : Setting := (1 : Int)
  deriving Inhabited

namespace Config

/-- An option: its name, its value and the change of its value. -/
structure Field where
  name : String
  get : Config → Setting
  set : Setting → Config → Config

/-- All options. -/
def fields : List Field := [
  ⟨"auto_unroll_max_step", unrollMaxStep, fun v c => { c with unrollMaxStep := v }⟩,
  ⟨"auto_unroll_max_depth", unrollMaxDepth, fun v c => { c with unrollMaxDepth := v }⟩,
  ⟨"auto_unroll_max_extent", unrollMaxExtent, fun v c => { c with unrollMaxExtent := v }⟩,
  ⟨"unroll_explicit", unrollExplicit, fun v c => { c with unrollExplicit := v }⟩,
  ⟨"detect_global_barrier", globalBarrier, fun v c => { c with globalBarrier := v }⟩,
  ⟨"partition_const_loop", partitionConstLoops, fun v c => { c with partitionConstLoops := v }⟩,
  ⟨"offset_factor", offsetFactor, fun v c => { c with offsetFactor := v }⟩,
  ⟨"data_alignment", dataAlignment, fun v c => { c with dataAlignment := v }⟩,
  ⟨"restricted_func", restricted, fun v c => { c with restricted := v }⟩,
  ⟨"double_buffer_split_loop", doubleBufferSplit, fun v c => { c with doubleBufferSplit := v }⟩]

/-- Sets an option, if there is one of that name. -/
def setOption (c : Config) (name : String) (value : Setting) : Config :=
  match fields.find? (·.name == name) with
  | some field => field.set value c
  | none => c

/-- The options set by name, all others having their default. -/
def ofOptions (options : List (String × Setting)) : Except Error Config :=
  let unknown := options.filterMap fun (name, _) =>
    if fields.any (·.name == name) then none else some name
  match unknown with
  | [] => .ok (options.foldl (fun c (name, value) => c.setOption name value) {})
  | names => .error (.unknownOptions (names.mergeSort fun a b => !(b < a)))

/-- Options as shown in messages. -/
def shown (c : Config) : String :=
  "BuildConfig(" ++ commaList (fields.map fun f => f.name ++ "=" ++ (f.get c).shown) ++ ")"

/-- Whether all options are the same. -/
def same (loose : Bool) (c d : Config) : Bool :=
  fields.all fun f => (f.get c).same loose (f.get d)

end Config

/-- What is given as options. -/
inductive ConfigSpec where
  | unspecified
  | exact (c : Config)
  | options (options : List (String × Setting))
  | other (x : Operand)
  deriving Inhabited

/-- The options that are meant. -/
def ConfigSpec.resolve : ConfigSpec → Except Error Config
  | unspecified => .ok {}
  | exact c => .ok c
  | options o => Config.ofOptions o
  | other x => .error (.configKind x.kindName x.detail?)

end TensorNest
