import TensorNest.Run.Machine
import TensorNest.Run.Math

/-!
# Intrinsics

The functions that are built into the machine: queries of the arguments of the running function,
workspaces, and calls of other functions. Queries of an array answer in elements and in the numbers of
the calling convention.
-/

namespace TensorNest

namespace Frame

/-- The argument at a position. -/
def argAt (f : Frame) (i : Value) : Run (Int × Value) := do
  let n ← i.toInt (← get).memory
  match if 0 ≤ n then f.args[n.toNat]? else none with
  | some v => return (n, v)
  | none => throw (f.failure ("num_args should be greater than " ++ toString n))

/-- The argument at a position, which has to be an array. -/
def arrayArg (f : Frame) (i : Value) : Run (Int × View) := do
  match ← f.argAt i with
  | (n, .array v) => return (n, v)
  | (n, v) =>
    throw (f.failure ("Argument arg" ++ toString n ++ " is expected to be an array, got " ++
      v.kindName))

/-- A number of each axis of an array argument, at an axis that it has. -/
def axisOf (f : Frame) (i axis : Value) (get : View → List Int) : Run Value := do
  let (n, v) ← f.arrayArg i
  let d ← axis.toInt (← MonadState.get).memory
  if (v.rank : Int) ≤ d then
    throw (f.failure ("arg" ++ toString n ++ ".ndim is expected to be greater than " ++ toString d))
  match itemAt? (get v) d with
  | some x => return .int32 x
  | none => throw .invalidOperand

/-- The function of a name. -/
def function (f : Frame) (name : Value) : Run Entry := do
  let name := name.shown (← get).memory
  match f.resolve with
  | some resolve => resolve name
  | none => throw (f.failure ("no device module to find " ++ name ++ " in"))

/-- Calls a function, which sees only the memory. -/
def invoke (f : Frame) (e : Entry) (args : List Value) : Run Value := do
  let s ← get
  let (r, memory) := ((f.call e args).run.run s.memory : Except Error Unit × Memory)
  set { s with memory }
  r
  return .number (.int 0)

/-- Adds a workspace of a number of bytes. -/
def allocate (nbytes code bits : Value) : Run Value := do
  let m := (← get).memory
  let code ← code.toInt m
  match if 0 ≤ code then TypeCode.ofNat? code.toNat else none with
  | none => throw (.invalidValue (toString code ++ " is not a valid TypeCode"))
  | some code =>
    let bits ← bits.toInt m
    let nbytes ← nbytes.toInt m
    let t : DataType := ⟨code, bits.toNat, 1⟩
    let count := Int.fdiv nbytes t.bytes
    let e ← t.elemType
    if count < 0 then throw .negativeLength
    let v ← onMemory fun m => m.addZeros e count.toNat
    modify fun s => { s with workspaces := v.storage :: s.workspaces }
    return .array v

/-- Gives back a workspace. -/
def free (f : Frame) (v : Value) : Run Value := do
  match v with
  | .array a =>
    if (← get).workspaces.contains a.storage then
      modify fun s => { s with workspaces := s.workspaces.erase a.storage }
      return .number (.int 0)
    throw (f.failure "free of a workspace not allocated")
  | _ => throw (f.failure "free of a workspace not allocated")

end Frame

/-- The intrinsics. -/
inductive Intrinsic where
  | numArgs | argData | argNdim | argTypeCode | argTypeBits | argTypeLanes | argShape | argStride
  | argElemOffset | argValue | storageSync | prefetch | likely | allocWorkspace | freeWorkspace
  | getFunc | threadContext | callPacked | callDevice
  deriving DecidableEq, Repr

namespace Intrinsic

/-- The names of the intrinsics. -/
def names : List (String × Intrinsic) :=
  [("xte_num_args", numArgs), ("xte_arg_data", argData), ("xte_arg_ndim", argNdim),
    ("xte_arg_type_code", argTypeCode), ("xte_arg_type_bits", argTypeBits),
    ("xte_arg_type_lanes", argTypeLanes), ("xte_arg_shape", argShape),
    ("xte_arg_stride", argStride), ("xte_arg_elem_offset", argElemOffset),
    ("xte_arg_value", argValue), ("xte_storage_sync", storageSync), ("prefetch", prefetch),
    ("likely", likely), ("xte_alloc_workspace", allocWorkspace),
    ("xte_free_workspace", freeWorkspace), ("xte_get_func_from_env", getFunc),
    ("xte_thread_context", threadContext), ("xte_call_packed_lowered", callPacked),
    ("xte_call_device", callDevice)]

def ofName? (name : String) : Option Intrinsic :=
  names.lookup name

/-- The value of an intrinsic that is called with a data type and arguments. -/
def apply (f : Frame) (t : DataType) (i : Intrinsic) (args : List Value) : Run Value :=
  match i, args with
  | numArgs, [] => return .int32 f.args.length
  | argData, [i] => do
    let (_, v) ← f.arrayArg i
    return .array (← onMemory fun m => m.flatten v)
  | argNdim, [i] => do return .int32 (← f.arrayArg i).2.rank
  | argTypeCode, [i] => do
    return .scalar (.uint 8) (.int (← f.arrayArg i).2.type.dataType.code.toNat)
  | argTypeBits, [i] => do return .scalar (.uint 8) (.int (← f.arrayArg i).2.type.dataType.bits)
  | argTypeLanes, [_] => return .scalar (.uint 16) (.int 1)
  | argShape, [i, d] => f.axisOf i d fun v => v.shape.map fun (n : Nat) => (n : Int)
  | argStride, [i, d] => f.axisOf i d (·.strides)
  | argElemOffset, [_] => return .int32 0
  | argValue, [i] => do convertTo t (← f.argAt i).2
  | storageSync, _ | prefetch, _ => return .int32 0
  | likely, [v] => return v
  | allocWorkspace, [_, nbytes, code, bits] => Frame.allocate nbytes code bits
  | freeWorkspace, [_, v] => f.free v
  | getFunc, [name] => do return .function (← f.function name)
  | threadContext, [v] => return v
  | callPacked, .function e :: args => f.invoke e args
  | callDevice, name :: args => do f.invoke (← f.function name) args
  | _, _ => throw .invalidOperand

end Intrinsic

end TensorNest
