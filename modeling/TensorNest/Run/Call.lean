import TensorNest.Run.Exec

/-!
# Calls of functions

A host function runs as a single thread over the arguments of its call. A device function is launched over
the extents of its thread axes: the blocks run one after the other, and the threads of a block in lockstep
from barrier to barrier. Of the machine that a function runs on, its caller sees only the memory.
-/

namespace TensorNest

/-- How the code of a function finds and calls other functions. -/
structure Linkage where
  resolve : Option (String → Except Error Entry) := none
  call : Entry → List Value → Effect Unit := fun _ _ => throw .invalidOperand

/-- Runs on a machine over the memory of the caller. -/
def Run.effect (x : Run Unit) : Effect Unit := do
  let memory : Memory ← get
  let (r, s) := (x.run.run { memory } : Except Error Unit × Machine)
  set s.memory
  liftM r

namespace Func

/-- The run of the body of a function as a thread. -/
def thread (g : Func) (f : Frame) (env : Env) (s : Machine) : Resumption Machine (Except Error Unit) :=
  (((g.body.exec f).run.run { env } : Suspension Machine (Except Error Unit × Local)) s).bind
    fun r t => .done r.1 t

/-! ### Host functions -/

/-- Runs a host function. Barriers have nothing to wait for. -/
def runHost (g : Func) (l : Linkage) (args : List Value) : Effect Unit := do
  if g.kind != .host then throw (.assertion (g.name ++ " is not a host function"))
  let f : Frame := { name := g.name, args, resolve := l.resolve, call := l.call }
  Run.effect do
    let (r, s) := (g.thread f [] (← get)).finish
    set s
    liftM r

/-! ### Device functions -/

/-- Sets the extent of a tag: of several extents of one tag the last counts. -/
def setExtent (tag : String) (n : Nat) : List (String × Nat) → List (String × Nat)
  | [] => [(tag, n)]
  | (t, k) :: rest => if t == tag then (t, n) :: rest else (t, k) :: setExtent tag n rest

/-- All coordinates below given extents, the last one counting fastest. -/
def grid : List (String × Nat) → List (List (String × Nat))
  | [] => [[]]
  | (tag, n) :: rest =>
    (List.range n).flatMap fun (i : Nat) => (grid rest).map ((tag, i) :: ·)

/-- Whether a tag names an axis of blocks. -/
def isBlockTag (tag : String) : Bool :=
  tag.startsWith "blockIdx"

/-- The parameters of a launch bound to the variables of the function. -/
def bindParams : List Param → List Value → Env → Run Env
  | .var v :: ps, x :: xs, env => do bindParams ps xs (env.set v (← place x))
  | .buffer _ :: ps, _ :: xs, env => bindParams ps xs env
  | _, _, env => return env

/-- Runs the threads of one block, which has shared buffers of its own. -/
def runBlock (g : Func) (f : Frame) (env : Env) (block : List (String × Nat))
    (threads : List (List (String × Nat))) : Run Unit := do
  modify fun s => { s with blockBuffers := [] }
  let start (coords : List (String × Nat)) : Machine → Resumption Machine (Except Error Unit) :=
    g.thread { f with coords := some (block ++ coords) } env
  let (r, s) := (Resumption.lockstep (threads.map start) (← get)).finish
  set s
  liftM r

/-- Launches a device function: the values of its parameters are followed by the extents of its thread
    axes. -/
def launch (g : Func) (l : Linkage) (args : List Value) : Effect Unit := do
  let params := args.take g.params.length
  let extents := args.drop g.params.length
  if params.length != g.params.length then
    throw (.assertion (g.name ++ ": expected " ++ toString g.params.length ++ " parameters, got " ++
      toString params.length))
  if extents.length != g.threadAxes.length then
    throw (.assertion (g.name ++ ": expected " ++ toString g.threadAxes.length ++ " launch extents"))
  Run.effect do
    let m := (← get).memory
    let extents ← (g.threadAxes.zip extents).foldlM (fun es (iv, x) => do
      let n ← x.toInt m
      return setExtent iv.tag n.toNat es) []
    let blocks := extents.filter fun e => isBlockTag e.1
    let threads := extents.filter fun e => !isBlockTag e.1
    let env ← bindParams g.params params []
    let f : Frame := { name := g.name, resolve := l.resolve, call := l.call }
    (grid blocks).forM fun block => runBlock g f env block (grid threads)

end Func

/-- An error as the caller of a function sees it. Broken conditions of the library stay as they are, and
    so do failures of calls; a value that an operation is not defined on has no wording. -/
def Error.atCall (function : String) (e : Error) : Error :=
  match e.category with
  | .callFailure | .assertion | .key => e
  | .value | .operand | .elements | .overflow => .callFailed function none
  | _ => .callFailed function e.message?

/-- An effect whose errors are those of a call. -/
def Effect.atCall (function : String) (x : Effect Unit) : Effect Unit :=
  tryCatch x fun e => throw (e.atCall function)

namespace Modules

/-- How deep calls can nest. -/
def maxDepth : Nat := 1000

/-- Calls a function of a module, from which further calls nest at most to a depth. -/
def callWithin (ms : Modules) : Nat → Entry → List Value → Effect Unit
  | 0, _, _ => throw .invalidOperand
  | depth + 1, e, args =>
    let g := e.func
    let l : Linkage := { resolve := some (ms.resolve e.module), call := ms.callWithin depth }
    if g.kind = .device then (g.launch l args).atCall g.name
    else if args.length != g.params.length then
      throw (.callFailed g.name (some ("num_args should be " ++ toString g.params.length ++ ", got " ++
        toString args.length)))
    else (g.runHost l args).atCall g.name

/-- Calls a function of a module. -/
def call (ms : Modules) : Entry → List Value → Effect Unit :=
  ms.callWithin maxDepth

end Modules

end TensorNest
