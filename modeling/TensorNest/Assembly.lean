import TensorNest.Config
import TensorNest.Lowering.Barrier
import TensorNest.Lowering.HostCalls
import TensorNest.Lowering.Launch
import TensorNest.Lowering.MathCalls
import TensorNest.Lowering.ThreadReduction

/-!
# Assembling functions

Functions that share a target are brought into the form in which they are built. Mixed functions are
split into a host function and the device functions that it launches; each side is then lowered for its
own target.
-/

namespace TensorNest

/-- Functions ready to be built for the host and for the device, the functions they came from, and what
    there is to warn about. -/
structure Assembly where
  source : List Func
  host : List Func
  device : List Func
  warnings : List String := []
  deriving Inhabited

/-- Checks that all that is given are functions of different names. -/
def checkFunctions (items : List (Func ⊕ Operand)) : Except Error (List Func) :=
  items.foldlM (fun funcs => fun
    | .inl f =>
      if funcs.any (·.name == f.name) then .error (.duplicateFunction f.name)
      else .ok (funcs ++ [f])
    | .inr x => .error (.notFunction x.kindName x.detail?)) []

namespace Assembly

/-- The host function and the device functions of a mixed function. -/
def splitMixed (c : Config) (t : Target) (f : Func) : Build (Func × List Func) := do
  let f := if c.globalBarrier.truthy then f.insertBarriers (.text "global") else f
  let f := (f.insertBarriers (.text "shared")).insertBarriers (.text "warp")
  let f ← f.lowerReductions (t.warpSize : Int)
  f.splitDevice

/-- The functions of the two sides. -/
def sides (c : Config) (t : Target) (funcs : List Func) : Build (List Func × List Func) :=
  funcs.foldlM (fun (host, device) f => do
    match f.kind with
    | .host => return (host ++ [f], device)
    | .device => return (host, device ++ [f])
    | .mixed =>
      let (h, ds) ← splitMixed c t f
      return (host ++ [h], device ++ ds)) ([], [])

/-- Lowers the functions of the host for a device and a target. -/
def lowerHosts (deviceType : Int) (target : String) (funcs : List Func) : Build (List Func) := do
  let bound ← liftM (funcs.mapM (Func.bindDevice deviceType))
  let lowered ← liftM (bound.mapM Func.lowerHost)
  let named ← liftM (lowered.mapM (Func.lowerMath target))
  named.mapM Func.combineContexts

/-- Assembles functions for a target and a host. -/
def ofItems (items : List (Func ⊕ Operand)) (config : ConfigSpec) (target host : String) :
    Build Assembly := do
  let c ← config.resolve
  let source ← checkFunctions items
  let t ← Target.parse target
  let h ← Target.parse host
  let (hosts, devices) ← sides c t source
  if !devices.isEmpty && !t.isGpu then throw (.deviceTarget target (devices.map (·.name)))
  if h.isGpu then throw (.assertion ("host target must be a cpu target: " ++ host))
  let hosts ← lowerHosts t.deviceType host hosts
  let devices ← liftM (devices.mapM (Func.lowerMath target))
  let warnings :=
    if t.isGpu && devices.isEmpty then
      ["Specified target " ++ target ++
        ", but cannot find device code. Did you forget to bind?"]
    else []
  return ⟨source, hosts, devices, warnings⟩

/-- The functions in the form in which they are built. -/
def lowered (a : Assembly) : List Func :=
  a.host ++ a.device

/-- The text that is printed when the source or the lowered functions are to be shown. -/
def printed (a : Assembly) (showSource showLowered : Bool) : String :=
  let shown (on : Bool) (fs : List Func) : String :=
    if on then String.join (fs.map fun f => f.text ++ "\n") else ""
  shown showSource a.source ++ shown showLowered a.lowered

/-- The files that are written when all functions are to be kept; a later file replaces an earlier one
    of the same name. -/
def files (a : Assembly) : List (String × String) :=
  a.source.map (fun f => (f.name ++ ".source.txt", f.text)) ++
    a.lowered.map (fun f => (f.name ++ ".lowered.txt", f.text))

end Assembly

end TensorNest
