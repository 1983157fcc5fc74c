import TensorNest.Run.Value
import TensorNest.Stmt.Same

/-!
# Machines

The state that the code of a function works on, and the frame in which it runs: the function's name, its
arguments and, on a device, the coordinates of the thread. Loads and stores check that their index lies
inside the array before they touch memory.
-/

namespace TensorNest

/-- The state of a running function: the memory, the workspaces that it holds, and the buffers that the
    threads of a block and those of a whole launch share, each under its allocation. -/
structure Machine where
  memory : Memory
  workspaces : List Nat := []
  blockBuffers : List (Stmt × View) := []
  launchBuffers : List (Stmt × View) := []
  deriving Inhabited

/-- A step of a running function. What it did to the machine before it failed stays. -/
abbrev Run := ExceptT Error (StateM Machine)

/-- A call of a function as its caller sees it: only memory is changed. -/
abbrev Effect := ExceptT Error (StateM Memory)

/-- The values of the variables. -/
abbrev Env := List (Nat × Value)

namespace Env

def get? (env : Env) (v : Var) : Option Value :=
  env.lookup v.id

def erase (env : Env) (v : Var) : Env :=
  env.filter fun p => p.1 != v.id

def set (env : Env) (v : Var) (x : Value) : Env :=
  (v.id, x) :: env.erase v

end Env

/-- The frame of a running function. `resolve` finds the functions that its code names, if it has a
    module to look into, and `call` calls them; `missing` is the failure where a variable has no value. -/
structure Frame where
  name : String
  args : List Value := []
  coords : Option (List (String × Nat)) := none
  resolve : Option (String → Except Error Entry) := none
  call : Entry → List Value → Effect Unit
  missing : String → Error := fun diagnostic => .callFailed name (some diagnostic)

namespace Frame

/-- The failure of the running function. -/
def failure (f : Frame) (diagnostic : String) : Error :=
  .callFailed f.name (some diagnostic)

end Frame

/-- Runs a change of memory. -/
def onMemory {α : Type} (change : Memory → Memory × α) : Run α := do
  let s ← get
  let (memory, a) := change s.memory
  set { s with memory }
  return a

/-- A value as an operand. -/
def operand (v : Value) : Run Numeric := do
  v.numeric (← get).memory

/-- A value converted to a data type. -/
def convertTo (t : DataType) (v : Value) : Run Value := do
  v.cast (← get).memory t

/-- A value that can be bound to a variable: a vector is put into memory, where it can be written. -/
def place : Value → Run Value
  | .vector t xs => do return .array (← onMemory fun m => m.addArray t [xs.length] xs)
  | v => pure v

namespace Frame

/-! ### Arrays -/

/-- The array that the variable of a buffer is bound to. -/
def buffer (f : Frame) (env : Env) (e : Expr) : Except Error View :=
  let diagnostic := e.bufferName ++ " is not bound to a buffer"
  match e with
  | .var v =>
    match env.get? v with
    | some (.array a) => .ok a
    | some _ => .error (f.failure diagnostic)
    | none => .error (f.missing diagnostic)
  | _ => .error (f.failure diagnostic)

/-- Whether a number is no index of an array of a size. -/
def outside (size : Nat) (x : Number) : Bool :=
  match x.split with
  | .inl n => n < 0 || size ≤ n
  | .inr y => y < 0.0 || Float.ofNat size ≤ y

/-- Checks that all lanes of an index are inside an array. -/
def checkIndex (f : Frame) (buffer : Expr) (a : View) (index : Numeric) : Except Error Unit := do
  match index.lanes.toList.find? (outside a.size) with
  | some x =>
    throw (f.failure ("index " ++ toString (← x.toInt) ++ " is out of bounds of " ++
      buffer.bufferName ++
      " of size " ++ toString a.size))
  | none => return ()

end Frame

namespace View

/-- The part at an index of the first axis, which has to be there. -/
def part (a : View) (x : Number) : Except Error View :=
  match x with
  | .int n =>
    match a.at? n with
    | some w => .ok w
    | none => .error .invalidOperand
  | _ => .error .invalidOperand

/-- The parts along the first axis. -/
def parts (a : View) : List View :=
  (List.range (a.shape.headD 0)).filterMap fun (i : Nat) => a.at? (i : Int)

/-- The parts that an index chooses. Integers choose by position; a single truth value chooses all or
    nothing, several of them choose one by one. -/
def choose (a : View) (index : Numeric) : Except Error (Packed View) :=
  match index with
  | .free (.bool b) | .typed .bool (.one (.bool b)) => .ok (.many (if b then a.parts else []))
  | .typed .bool xs =>
    if xs.toList.length = a.shape.headD 0 then
      .ok (.many (((a.parts.zip xs.toList).filter fun p => p.2.truthy).map (·.1)))
    else .error .invalidOperand
  | _ => index.lanes.mapM a.part

end View

/-- The elements at an index of an array. -/
def loadAt (a : View) (index : Numeric) : Run Value := do
  let m := (← get).memory
  match ← a.choose index with
  | .one w =>
    if w.rank = 0 then return .scalar a.type (m.read w.storage w.offset)
    else return .vector a.type (w.elements m)
  | .many ws => return .vector a.type (ws.flatMap fun w => w.elements m)

/-- The elements to store in rows of one size: one for all of them, as many as there are, or as many as
    a row has. -/
def rowsOf? (rows size : Nat) (xs : Packed Number) : Option (List Number) :=
  match xs with
  | .one x | .many [x] => some (List.replicate (rows * size) x)
  | .many xs =>
    if size = 1 && xs.length = rows then some xs
    else if size != 1 && xs.length = size then some (List.replicate rows xs).flatten
    else none

/-- Stores an operand in parts of an array. `mismatch` is the failure if the operand does not fit, by its
    shape. -/
def storeParts (a : View) (ws : List View) (value : Numeric) (mismatch : List Int → Error) :
    Run Unit := do
  let addresses := ws.flatMap (·.addresses)
  let lanes ← value.lanesIn a.type
  match rowsOf? ws.length (shapeSize (a.shape.drop 1)) lanes with
  | some xs => onMemory fun m => (m.writeAll a.storage addresses xs, ())
  | none => throw (mismatch lanes.shape)

/-- Stores a value at an index of an array. -/
def storeAt (a : View) (index : Numeric) (value : Value) : Run Unit := do
  match ← a.choose index with
  | .one w =>
    if w.rank = 0 then
      let x ← value.stored (← get).memory a.type
      onMemory fun m => (m.write w.storage w.offset x, ())
    else
      storeParts a [w] (← operand value) fun given =>
        .assignedPart given (w.shape.map fun (d : Nat) => (d : Int))
  | .many ws =>
    let row := (a.shape.drop 1).map fun (d : Nat) => (d : Int)
    let value ← operand value
    storeParts a ws value fun given =>
      match index with
      | .typed .bool (.many _) => .assignedCount value.lanes.toList.length ws.length
      | _ => .assignedShape given ((ws.length : Int) :: row)

/-- The lanes of an index and of a value that a mask lets through. -/
def masked (mask index value : Numeric) : Except Error (Numeric × Numeric) :=
  let number (a : Numeric) (xs : List Number) : Numeric := .typed a.type (.many xs)
  match mask.lanes, index.lanes, value.lanes with
  | .one b, .one i, .one x =>
    let keep (y : Number) : List Number := if b.truthy then [y] else []
    .ok (number index (keep i), number value (keep x))
  | .one _, _, .many _ => .error .broadcastScalar
  | .one b, .many is, .one x =>
    if b.truthy then .ok (number index is, number value [x]) else .error .invalidOperand
  | .many bs, .many is, xs => do
    if bs.length != is.length then throw .invalidOperand
    let xs ← xs.spread bs.length
    let keep (ys : List Number) : List Number :=
      ((bs.zip ys).filter fun p => p.1.truthy).map (·.2)
    return (number index (keep is), number value (keep xs))
  | _, _, _ => .error .invalidOperand

end TensorNest
