import TensorNest.DataType.Combine
import TensorNest.Number
import TensorNest.Text.Blank

/-!
# Targets

What code can be built for: the families of targets with their properties, and the vector registers of
the processor at hand. A target is written as the name of its family followed by options.
-/

namespace TensorNest

/-- The properties of a family of targets. -/
structure Target where
  name : String
  keys : List String
  maxThreads : Nat := 1
  warpSize : Nat := 1
  deviceType : Nat := 1
  deriving DecidableEq, Repr, Inhabited

namespace Target

/-- Whether a target runs device functions. -/
def isGpu (t : Target) : Bool := t.keys.contains "gpu"

def cpu : Target := ⟨"llvm", ["cpu"], 1, 1, 1⟩

/-- The known families, sorted by name. -/
def families : List (String × Target) := [
  ("c", cpu),
  ("cpu", cpu),
  ("cuda", ⟨"cuda", ["cuda", "gpu"], 512, 32, 2⟩),
  ("llvm", cpu),
  ("metal", ⟨"metal", ["gpu", "metal"], 256, 1, 8⟩),
  ("nvptx", ⟨"nvptx", ["cuda", "gpu"], 512, 32, 2⟩),
  ("opencl", ⟨"opencl", ["gpu", "opencl"], 256, 1, 4⟩),
  ("opengl", ⟨"opengl", ["opengl"], 1, 1, 11⟩),
  ("rocm", ⟨"rocm", ["gpu", "rocm"], 256, 1, 10⟩),
  ("vulkan", ⟨"vulkan", ["gpu", "vulkan"], 256, 1, 7⟩)]

/-- The warp size that an option sets, if it is such an option. -/
def warpOption? (target option : String) : Except Error (Option Nat) :=
  let cs := option.toList
  if cs.takeWhile (· != '=') != "-thread_warp_size".toList then .ok none
  else
    let digits := (cs.dropWhile (· != '=')).drop 1
    if digits.isEmpty || !digits.all Text.isDigitLike then .error (.warpSize target option)
    else
      match Number.readInt (String.ofList digits) with
      | .ok n => if n < 1 then .error (.warpSize target option) else .ok (some n.toNat)
      | .error e => .error e

/-- The target that a text names. The first word is the family; an option can set the warp size,
    others are ignored. -/
def parse (s : String) : Except Error Target := do
  let words := Text.words s
  let family := Text.lower (words.headD "")
  match families.find? (·.1 == family) with
  | none => throw (.unknownTarget s (families.map (·.1)))
  | some (_, t) =>
    words.tail.foldlM (fun t option => do
      match ← warpOption? s option with
      | some n => return { t with warpSize := n }
      | none => return t) t

end Target

/-- A processor: its architecture and its features. -/
structure Processor where
  arch : String
  flags : List String
  deriving DecidableEq, Repr, Inhabited

namespace Processor

/-- The width of the vector registers of a processor, zero if it has none. -/
def vectorBits (p : Processor) : Nat :=
  if p.arch == "x86_64" then
    if p.flags.contains "avx512f" then 512
    else if p.flags.contains "avx2" then 256
    else if p.flags.contains "sse" then 128
    else 0
  else if p.arch == "aarch64" then if p.flags.contains "asimd" then 128 else 0
  else if p.arch == "arm64" then 128
  else 0

/-- The number of elements of a type in a vector register. -/
def vectorLanes (p : Processor) (t : DataType) : Except Error Nat :=
  if t.bits = 0 then .error .invalidOperand else .ok (max 1 (p.vectorBits / t.bits))

end Processor

/-- The least power of two that is not below a number. -/
def nextPow2 (n : Int) : Except Error Nat :=
  if n ≤ 0 then .error (.assertion s!"no power of 2 above {n}")
  else .ok (Nat.pow 2 (if n = 1 then 0 else (n.toNat - 1).log2 + 1))

end TensorNest
