import TensorNest.Func
import TensorNest.Stmt.Visit
import TensorNest.Target

/-!
# Modules

A module holds functions of one side, host or device, built for a target, and imports other modules. The
modules are kept in a table, in which each has the number at which it was built, so that a module that
is imported later is seen by all that refer to it.
-/

namespace TensorNest

/-- A module: its functions and the numbers of the modules that it imports. -/
structure Module where
  name : String
  target : String
  funcs : List Func
  imports : List Nat := []
  deriving Inhabited

namespace Module

/-- The names of the functions, without repetition. -/
def entryNames (m : Module) : List String :=
  (m.funcs.map (·.name)).eraseDups

/-- The function of a name: of several, the last one counts. -/
def func? (m : Module) (name : String) : Option Func :=
  m.funcs.reverse.find? (·.name == name)

def text (m : Module) : String :=
  "InterpModule(" ++ Text.quoted m.name ++ ", " ++ Text.quoted m.target ++ ", " ++
    quotedList m.entryNames ++ ")"

end Module

/-- What can not be run, as a kind of node. -/
def Node.unsupported? : Node → Option String
  | .stmt (.provide ..) => some "provide"
  | .stmt (.realize ..) => some "realize"
  | .stmt (.prefetch ..) => some "prefetch"
  | .expr (.reduce ..) => some "reduce"
  | .expr (.call _ _ _ .tensorRead _ _) => some "halide call"
  | _ => none

/-- The kinds of nodes of a function that can not be run, in the order in which they are met. -/
def Func.unsupported (f : Func) : List String :=
  (f.body.postorder.filterMap Node.unsupported?).eraseDups

namespace Module

/-- Checks that a function can be built for a target. -/
def check (target : String) (info : Target) (f : Func) : Except Error Unit := do
  if f.kind != (if info.isGpu then .device else .host) then
    throw (.callFailed f.name
      (some (f.kind.text ++ " function can not be built for target " ++ target)))
  if !f.unsupported.isEmpty then
    throw (.callFailed f.name (some ("unsupported nodes: " ++ commaList f.unsupported)))

/-- Builds functions for a target. Without a name, the module is named for its target after a given
    beginning. -/
def build (funcs : List Func) (target : String) (start : String) (name : Option String) :
    Except Error Module := do
  let info ← Target.parse target
  funcs.forM (check target info)
  return { name := name.getD (start ++ info.name), target, funcs }

end Module

/-- All modules built so far, each at its number. -/
abbrev Modules := Array Module

/-- A function of a module. -/
structure Entry where
  module : Nat
  func : Func
  deriving Inhabited

namespace Modules

/-- The function of a name in a module, or, if asked for, in the modules that it imports. -/
def find? (ms : Modules) (id : Nat) (name : String) (imported : Bool) : Option Entry := do
  let m ← ms[id]?
  let places := if imported then id :: m.imports else [id]
  places.findSome? fun i => do
    let f ← (← ms[i]?).func? name
    return ⟨i, f⟩

/-- The function of a name that a module has to have. -/
def entry (ms : Modules) (id : Nat) (name : String) (imported : Bool) : Except Error Entry :=
  match ms.find? id name imported with
  | some e => .ok e
  | none =>
    let module := ((ms[id]?).map (·.name)).getD ""
    .error (.missingKey ("no function " ++ name ++ " in module " ++ module))

/-- The function of a name that code of a module calls. -/
def resolve (ms : Modules) (id : Nat) (name : String) : Except Error Entry :=
  match ms.find? id name true with
  | some e => .ok e
  | none =>
    .error (.callFailed name (some ("Cannot find function " ++ name ++ " in the imported modules")))

/-- Imports a module into another. -/
def importInto (ms : Modules) (id imported : Nat) : Modules :=
  ms.modify id fun m => { m with imports := m.imports ++ [imported] }

end Modules

end TensorNest
