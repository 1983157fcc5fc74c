import TensorNest.Assembly
import TensorNest.Lower
import TensorNest.Module
import TensorNest.Object.Basic
import TensorNest.Run.Call

/-!
# Sessions

A session holds the schedules and the modules that have been made, each at its number, the memory of the arrays that
functions are called with, and the attributes that were given to operations. Building lowers a schedule, assembles the
functions and adds the modules of the host and of the device.
-/

namespace TensorNest

/-- The schedules, the modules and the arrays made so far, and the attributes of operations. -/
structure Session where
  schedules : Array Schedule := #[]
  modules : Modules := #[]
  memory : Memory := #[]
  attributes : Array Object := #[]
  deriving Inhabited

namespace Session

/-- Runs a change of a schedule. -/
def onSchedule {α : Type} (id : Nat) (e : Edit Schedule α) : Edit Session α := do
  match (← get).schedules[id]? with
  | some s => Edit.onPart s (fun s t => { t with schedules := t.schedules.setIfInBounds id s }) e
  | none => throw (.missingKey (toString id))

/-- Adds a schedule. -/
def addSchedule (outputs : List Operation) : Edit Session Nat := do
  let s ← Schedule.create outputs
  let id := (← get).schedules.size
  modify fun t => { t with schedules := t.schedules.push s }
  return id

/-- Keeps an attribute of an operation. -/
def addAttribute (x : Object) : Edit Session Nat := do
  let id := (← get).attributes.size
  modify fun t => { t with attributes := t.attributes.push x }
  return id

/-- Adds a module. -/
def addModule (m : Module) : Edit Session Nat := do
  let id := (← get).modules.size
  modify fun t => { t with modules := t.modules.push m }
  return id

/-- How functions are built: the options, the targets and the beginning of the names of modules. -/
structure BuildRequest where
  config : ConfigSpec := .unspecified
  target : String := "llvm"
  host : String := "llvm"
  start : String := ""
  deriving Inhabited

/-- Builds functions: adds the module of the host, which imports that of the device if there is device
    code. -/
def buildItems (items : List (Func ⊕ Operand)) (r : BuildRequest) :
    Edit Session (Nat × Assembly) := do
  let a ← Assembly.ofItems items r.config r.target r.host
  let host ← addModule (← Module.build a.host r.host r.start none)
  if !a.device.isEmpty then
    let device ← addModule (← Module.build a.device r.target r.start none)
    modify fun t => { t with modules := t.modules.importInto host device }
  return (host, a)

/-- Lowers a schedule to a function. -/
def lower (id : Nat) (r : Lowering.Request) : Edit Session (Func ⊕ Operand) := do
  match ← onSchedule id (Schedule.lower r) with
  | .func f => return .inl f
  | .stmt s => return .inr (.other s.kindName s.text s.text true)

/-- Lowers a schedule and keeps the statement after each phase, also if lowering fails. -/
def trace (id : Nat) (r : Lowering.Request) :
    Edit Session (List Phase × Except Error Lowering.Lowered) := do
  let s : Session ← get
  match s.schedules[id]? with
  | none => throw (.missingKey (toString id))
  | some schedule =>
    let (result, l) ← (liftM ((Lowering.run r).run.run { schedule }) : StateT Session (StateM Graph) _)
    set { s with schedules := s.schedules.setIfInBounds id l.schedule }
    return (l.phases, result)

/-- Builds a schedule. -/
def buildSchedule (id : Nat) (args : Option (List Argument)) (name : String) (bindings : Bindings)
    (r : BuildRequest) : Edit Session (Nat × Assembly) := do
  match args with
  | none => throw .missingArgs
  | some args =>
    let f ← lower id { args, name, config := r.config, bindings }
    buildItems [f] r

/-- A name as the symbol of a function. -/
def symbol (start name : String) : String :=
  start ++ String.ofList (name.toList.map fun c => if c == '-' then '_' else c)

/-- A schedule to build as a function, each part of which can be missing. -/
structure FunctionEntry where
  name : Option String
  args : Option (List Argument)
  schedule : Option Nat
  bindings : Bindings := []

namespace FunctionEntry

/-- The names of the missing parts, sorted. -/
def missing (e : FunctionEntry) : List String :=
  (if e.args.isNone then ["arglist"] else []) ++ (if e.name.isNone then ["name"] else []) ++
    (if e.schedule.isNone then ["schedule"] else [])

/-- Lowers an entry to a function named by its symbol. -/
def lower (e : FunctionEntry) (start : String) (c : Config) :
    Edit Session (String × String × (Func ⊕ Operand)) := do
  match e.name, e.args, e.schedule with
  | some name, some args, some id =>
    let s := symbol start name
    let f ← Session.lower id { args, name := s, config := .exact c, bindings := e.bindings }
    return (name, s, f)
  | _, _, _ => throw (.missingEntryKeys e.missing)

end FunctionEntry

/-- The symbol of each name, that of a repeated name being replaced in its place. -/
def setSymbol (name symbol : String) : List (String × String) → List (String × String)
  | [] => [(name, symbol)]
  | (n, s) :: rest =>
    if n == name then (n, symbol) :: rest else (n, s) :: setSymbol name symbol rest

/-- Builds several schedules into one module, and gives the symbol of each entry. -/
def buildEntries (entries : List FunctionEntry) (symbolStart : String) (r : BuildRequest) :
    Edit Session (Nat × List (String × String)) := do
  let c ← r.config.resolve
  let lowered ← entries.mapM fun e => e.lower symbolStart c
  let (id, _) ← buildItems (lowered.map (·.2.2)) { r with config := .exact c }
  return (id, lowered.foldl (fun symbols (name, s, _) => setSymbol name s symbols) [])

/-! ### Arrays and calls -/

/-- Adds an array of given elements. -/
def addArray (t : ElemType) (shape : List Nat) (xs : List Number) : Edit Session View := do
  let s : Session ← get
  let (memory, v) := s.memory.addArray t shape xs
  set { s with memory }
  return v

/-- An array in another shape; one length may be left open. -/
def reshape (v : View) (shape : List Int) : Edit Session View := do
  let s : Session ← get
  if shape = v.shape.map (fun (d : Nat) => (d : Int)) then return v
  let shape ← View.fillShape v.size shape
  let (memory, w) := s.memory.reshape v shape
  set { s with memory }
  return w

/-- Adds an array of given elements in a shape, which are first put in a row. -/
def arrayOf (t : ElemType) (shape : List Int) (xs : List Number) : Edit Session View := do
  let xs ← xs.mapM fun x => t.ofNumber x
  reshape (← addArray t [xs.length] xs) shape

/-- Adds an array of one number everywhere. -/
def fullArray (t : ElemType) (shape : List Int) (x : Number) : Edit Session View := do
  if shape.any (· < 0) then throw .negativeLength
  let shape := shape.map Int.toNat
  addArray t shape (List.replicate (shapeSize shape) (← t.ofNumber x))

/-- Adds an array of the numbers from `start` on, `step` apart. -/
def countingArray (t : ElemType) (shape : List Int) (start step : Int) : Edit Session View := do
  let count := (shape.foldl (· * ·) 1).toNat
  let xs := (List.range count).map fun (k : Nat) => t.convert (.int (start + step * k))
  reshape (← addArray t [count] xs) shape

/-- Runs an effect on the memory of the session. -/
def onMemory (x : Effect Unit) : Edit Session Unit := do
  let s : Session ← get
  let (r, memory) := (x.run.run s.memory : Except Error Unit × Memory)
  set { s with memory }
  liftM r

/-- Calls a function of a module. -/
def call (e : Entry) (args : List Value) : Edit Session Unit := do
  let s : Session ← get
  onMemory (s.modules.call e args)

/-- Runs a host function that is in no module. -/
def runHost (g : Func) (args : List Value) : Edit Session Unit :=
  onMemory (g.runHost {} args)

/-- How often a function is run to be timed: some repetitions of a number of calls each, which have to
    last for some milliseconds. -/
structure Timing where
  repetitions : Int := 1
  number : Int := 1
  minRepeatMs : Int := 0

namespace Timing

/-- Checks that something is timed at all. -/
def check (t : Timing) : Except Error Unit := do
  if t.repetitions ≤ 0 then
    throw (.assertion ("repeat must be positive: " ++ toString t.repetitions))
  if t.number ≤ 0 then throw (.assertion ("number must be positive: " ++ toString t.number))
  if t.minRepeatMs < 0 then
    throw (.assertion ("min_repeat_ms must not be negative: " ++ toString t.minRepeatMs))

end Timing

/-- Calls a function of a module or of those that it imports as often as a timing says. -/
def evaluate (id : Nat) (name : String) (t : Timing) (args : List Value) : Edit Session Unit := do
  let s : Session ← get
  let e ← s.modules.entry id name true
  t.check
  (List.replicate (t.repetitions * t.number).toNat ()).forM fun _ => call e args

end Session

end TensorNest
