import TensorNest.DataType
import TensorNest.Text.Quoted

/-!
# Errors

Every way in which building, scheduling, lowering or running a program can fail. An error is a cause
with the names and types it is about; `Error.category` sorts the causes, `Error.message` words them,
and `Error.context` keeps what was expected and what was given in a form that needs no parsing.
-/

namespace TensorNest

/-- A datum that an error carries. -/
inductive Detail where
  | text (s : String)
  | int (n : Int)
  | flag (b : Bool)
  | texts (ss : List String)
  deriving DecidableEq, Repr

/-- What an error is about. The last six are not about programs: a condition of the library that
    does not hold, a missing key, a value, an operand or elements that an operation is not defined on,
    and a number too large to be represented. -/
inductive Category where
  | shapeRank
  | index
  | iterationKind
  | transform
  | tooManyAxes
  | arity
  | dataType
  | target
  | duplicateFunction
  | unsupported
  | callFailure
  | schedule
  | config
  | lowering
  | assertion
  | key
  | value
  | operand
  | elements
  | overflow
  deriving DecidableEq, Repr

/-- The causes of failure. -/
inductive Error where
  -- data types
  | unknownDataType (name : String)
  | cannotCombine (l r : DataType)
  | lanesMismatch (l r : DataType)
  | noConstant (t : DataType)
  | notConvertible (kind : String)
  | combinerType (actual expected : DataType)
  | identityType (actual expected : DataType)
  -- tensors and rules
  | tensorRank (tensor : String) (rank given : Nat)
  | bufferRank (buffer : String) (rank given : Nat)
  | flagIndex (tensor : String) (shown : String) (position : Nat)
  | indexKind (tensor : String) (position : Nat) (shown kind : String)
  | ruleArity (what : String) (takes expected : Nat)
  | mixedReductions (name : String) (outputs reductions : Nat)
  | notReduceAxis (axis : String)
  | unknownIterKind (shown : String) (kind : Option Detail)
  | missingDomain (name kind : String)
  -- stage transforms
  | notLeaf (stage axis : String)
  | forbidden (stage action kind axis : String)
  | factorType (stage what : String) (t : DataType)
  | factorSign (stage what shown : String)
  | factorChoice (stage : String)
  | fuseNothing (stage : String)
  | fuseOrder (stage : String) (axes : List String)
  | fuseKinds (stage : String) (axes : List String)
  | duplicateAxes (stage : String)
  | tileSame (stage : String)
  | bindTarget (stage : String)
  | bindReduction (stage axis tag : String)
  | bindBlock (stage axis : String)
  | bindTooMany (stage what : String) (given : Nat)
  | attachOutside (stage : String)
  | attachSelf (stage : String)
  | attachOutput (stage : String)
  | inlineReduction (stage : String)
  | inlineOutput (stage : String)
  | noStage (operation : String)
  | cacheOutputs (operation : String)
  | cacheLate (operation : String)
  | cacheRead
  | attachedToInlined (stage parent : String)
  | crossThreadOutputs (operation : String)
  -- lowering
  | unknownPass (name : String)
  | outsideRealize (tensor : String)
  | unrollSymbolic (loop : String)
  | unboundVars (function : String) (names : List String)
  | parameterKind (function kind : String)
  | threadExtent (function tag extent : String)
  | outsideThreads (function : String)
  -- configuration and building
  | unknownOptions (names : List String)
  | configKind (kind : String) (given : Option Detail)
  | argumentKind (kind : String) (given : Option Detail)
  | notFunction (kind : String) (given : Option Detail)
  | duplicateFunction (name : String)
  | missingArgs
  | missingEntryKeys (keys : List String)
  | deviceTarget (target : String) (functions : List String)
  | unknownTarget (name : String) (known : List String)
  | warpSize (target option : String)
  -- running
  | callFailed (function : String) (diagnostic : Option String)
  | stmtUnsupported (function kind : String)
  | exprUnsupported (function kind : String)
  | tensorAccess (function tensor : String)
  | unknownFunction (function name : String)
  -- conditions and numbers
  | assertion (text : String)
  | missingKey (text : String)
  | invalidValue (text : String)
  | noInteger
  | notInteger (text : String)
  | notNumber (text : String)
  | tooManyDigits (count : Nat)
  | negativePower
  -- arrays
  | negativeLength
  | unknownLengths
  | reshapeSize (size : Nat) (shape : List Int)
  | broadcastShapes (shapes : List (List Int))
  | broadcastTo (shape target : List Int)
  | broadcastScalar
  | assignedShape (shape target : List Int)
  | assignedPart (shape target : List Int)
  | assignedCount (given chosen : Nat)
  | elementSequence
  | ambiguousTruth
  | emptyTruth
  | notSingle
  -- kinds of failure
  | invalidOperand
  | invalidElements
  | overflow
  deriving DecidableEq, Repr

/-- Texts joined by a comma and a blank. -/
def commaList (ss : List String) : String :=
  String.intercalate ", " ss

/-- A shape as shown in a message. Unknown lengths, which are negative, are left out at the front and
    marked elsewhere. -/
def shapeText (shape : List Int) : String :=
  match shape.dropWhile (· < 0) with
  | [] => "()"
  | d :: ds =>
    let lengths := toString d :: ds.map fun (n : Int) => if n < 0 then "newaxis" else toString n
    "(" ++ String.intercalate "," lengths ++ (if shape.length = 1 then ",)" else ")")

/-- A list of texts as shown in a message. -/
def quotedList (ss : List String) : String :=
  "[" ++ commaList (ss.map Text.quoted) ++ "]"

namespace Error

def category : Error → Category
  | unknownDataType _ | cannotCombine .. | lanesMismatch .. | noConstant _ | notConvertible _
  | combinerType .. | identityType .. => .dataType
  | tensorRank .. | bufferRank .. => .shapeRank
  | flagIndex .. | indexKind .. => .index
  | ruleArity .. | mixedReductions .. => .arity
  | unknownIterKind .. | missingDomain .. => .iterationKind
  | notReduceAxis _ | notLeaf .. | forbidden .. | factorType .. | factorSign .. | factorChoice _
  | fuseNothing _ | fuseOrder .. | fuseKinds .. | duplicateAxes _ | tileSame _ | bindTarget _
  | bindReduction .. | bindBlock .. | attachOutput _ | inlineReduction _ | inlineOutput _ =>
    .transform
  | bindTooMany .. => .tooManyAxes
  | attachOutside _ | attachSelf _ | noStage _ | cacheLate _ | attachedToInlined .. => .schedule
  | cacheOutputs _ | cacheRead | crossThreadOutputs _ | stmtUnsupported .. | exprUnsupported ..
  | tensorAccess .. | unknownFunction .. => .unsupported
  | unknownPass _ | outsideRealize _ | unrollSymbolic _ | unboundVars .. | parameterKind ..
  | threadExtent .. | outsideThreads _ => .lowering
  | unknownOptions _ | configKind .. | argumentKind .. | notFunction .. | missingArgs
  | missingEntryKeys _ | deviceTarget .. => .config
  | duplicateFunction _ => .duplicateFunction
  | unknownTarget .. | warpSize .. => .target
  | callFailed .. => .callFailure
  | assertion _ => .assertion
  | missingKey _ => .key
  | invalidValue _ | noInteger | notInteger _ | notNumber _ | tooManyDigits _ | negativePower
  | negativeLength | unknownLengths | reshapeSize .. | broadcastShapes _ | broadcastTo .. | broadcastScalar
  | assignedShape .. | assignedPart .. | assignedCount .. | elementSequence | ambiguousTruth
  | emptyTruth | notSingle => .value
  | invalidOperand => .operand
  | invalidElements => .elements
  | overflow => .overflow

/-- The wording of a cause. The causes that are only a kind of failure have none. -/
def message? : Error → Option String
  | unknownDataType name => s!"unknown data type: {name}"
  | cannotCombine l r => s!"can not combine {l} and {r}"
  | lanesMismatch l r => s!"lanes mismatch in {l} and {r}"
  | noConstant t => s!"no constant of type {t}"
  | notConvertible kind => s!"can not convert {kind} to expression"
  | combinerType actual expected =>
    s!"commutative_reduce: combine result is {actual}, expected {expected}"
  | identityType actual expected =>
    s!"commutative_reduce: identity is {actual}, expected {expected}"
  | tensorRank tensor rank given =>
    s!"Num indices must match tensor rank: {tensor} has rank {rank}, got {given} indices"
  | bufferRank buffer rank given => s!"buffer {buffer}: {given} indices for rank {rank}"
  | flagIndex tensor shown position => s!"{tensor}: invalid index {shown} at position {position}"
  | indexKind tensor position shown _ =>
    s!"{tensor}: index at position {position} is neither an iteration variable nor an integer " ++
      s!"expression: {shown}"
  | ruleArity what takes expected => s!"{what}: rule takes {takes} arguments, expected {expected}"
  | mixedReductions name _ _ =>
    s!"compute {name}: all outputs of a reduction must reduce over the same axes"
  | notReduceAxis axis => s!"reduction axis must be communicative-reduce: {axis}"
  | unknownIterKind shown _ => s!"unknown iteration variable kind: {shown}"
  | missingDomain name kind => s!"iteration variable {name} of kind {kind} requires a domain"
  | notLeaf stage axis => s!"{stage}: axis {axis} is not a leaf axis of the stage"
  | forbidden stage action kind axis => s!"{stage}: {action} not allowed on {kind} axis {axis}"
  | factorType stage what t => s!"{stage}: split {what} must be an integer, got {t}"
  | factorSign stage what shown => s!"{stage}: split {what} must be positive, got {shown}"
  | factorChoice stage => s!"{stage}: split requires exactly one of factor or nparts"
  | fuseNothing stage => s!"{stage}: fuse of no axis"
  | fuseOrder stage _ => s!"{stage}: fused axes must be adjacent and ordered outer to inner"
  | fuseKinds stage _ => s!"{stage}: can not fuse data parallel and reduction axes"
  | duplicateAxes stage => s!"{stage}: duplicate axes in reorder"
  | tileSame stage => s!"{stage}: tile of the same axis twice"
  | bindTarget stage => s!"{stage}: can only bind to a thread-index iteration variable"
  | bindReduction stage axis tag =>
    s!"{stage}: reduction axis {axis} can only be bound to threadIdx, got {tag}"
  | bindBlock stage axis => s!"{stage}: reduction axis {axis} can not be bound to a block axis"
  | bindTooMany stage what given => s!"{stage}: at most 3 {what} axes, got {given}"
  | attachOutside stage => s!"{stage}: compute_at target is not a stage of the schedule"
  | attachSelf stage => s!"{stage}: can not compute_at its own stage"
  | attachOutput stage => s!"{stage}: output stages can not be computed at another stage"
  | inlineReduction stage => s!"{stage}: only non reduction compute can be inlined"
  | inlineOutput stage => s!"{stage}: output stages can not be inlined"
  | noStage operation => s!"no stage for {operation} in schedule"
  | cacheOutputs operation => s!"cache_write only supports single output compute: {operation}"
  | cacheLate operation => s!"cache_write must be applied before transforming {operation}"
  | cacheRead => "Unimplemented: cache_read"
  | attachedToInlined stage parent => s!"{stage}: computed at inlined stage {parent}"
  | crossThreadOutputs operation => s!"{operation}: cross thread reduction of multiple outputs"
  | unknownPass name => s!"Unknown pass: {name}"
  | outsideRealize tensor => s!"tensor {tensor} is read or written outside of its realize"
  | unrollSymbolic loop => s!"Cannot unroll non-constant loop {loop}"
  | unboundVars _ names => "Not all Vars are passed in api_args: " ++ commaList names
  | parameterKind function kind => s!"{function}: unsupported argument type {kind}"
  | threadExtent function tag extent =>
    s!"{function}: cross thread reduction over {tag} needs a constant extent, got {extent}"
  | outsideThreads function => s!"{function}: cross thread reduction outside of its thread region"
  | unknownOptions names => "Unknown build config options: " ++ commaList names
  | configKind kind _ => s!"Expected a BuildConfig or a mapping, got {kind}"
  | argumentKind kind _ => s!"Expected Tensor, Buffer or Var argument, got {kind}"
  | notFunction kind _ => s!"Expected LoweredFunc, got {kind}"
  | duplicateFunction name => s!"Duplicated function name: {name}"
  | missingArgs => "args must be given when building a schedule"
  | missingEntryKeys keys => "Missing schedule entry keys: " ++ commaList keys
  | deviceTarget target functions =>
    s!"Device code needs a gpu target, got {target}: " ++ commaList functions
  | unknownTarget name known =>
    "Failed to find target properties: " ++ Text.quoted name ++ ", expected one of " ++
      quotedList known
  | warpSize target option => "Invalid warp size in target " ++ Text.quoted target ++ ": " ++ option
  | callFailed function diagnostic =>
    diagnostic.map fun d => s!"Error during backend call: {function}: {d}"
  | stmtUnsupported function kind => s!"{function}: {kind} statement can not be interpreted"
  | exprUnsupported function kind => s!"{function}: {kind} expression can not be interpreted"
  | tensorAccess function tensor => s!"{function}: tensor access {tensor} can not be interpreted"
  | unknownFunction function name => s!"{function}: unknown function {name}"
  | assertion text => text
  | missingKey text => text
  | invalidValue text => text
  | noInteger => "cannot convert float NaN to integer"
  | notInteger text =>
    "invalid literal for int() with base 10: " ++ ((Text.quoted text).take 200).toString
  | notNumber text => "could not convert string to float: " ++ Text.quoted text
  | tooManyDigits count =>
    s!"Exceeds the limit (4300 digits) for integer string conversion: value has {count} digits; " ++
      "use sys.set_int_max_str_digits() to increase the limit"
  | negativePower => "Integers to negative integer powers are not allowed."
  | negativeLength => "negative dimensions are not allowed"
  | unknownLengths => "can only specify one unknown dimension"
  | reshapeSize size shape => s!"cannot reshape array of size {size} into shape " ++ shapeText shape
  | broadcastShapes shapes =>
    "operands could not be broadcast together with shapes " ++
      String.join (shapes.map fun s => shapeText s ++ " ")
  | broadcastTo shape target =>
    "operands could not be broadcast together with remapped shapes [original->remapped]: " ++
      shapeText shape ++ "  and requested shape " ++ shapeText target
  | broadcastScalar => "cannot broadcast a non-scalar to a scalar array"
  | assignedShape shape target =>
    "shape mismatch: value array of shape " ++ shapeText shape ++
      " could not be broadcast to indexing result of shape " ++ shapeText target
  | assignedPart shape target =>
    "could not broadcast input array from shape " ++ shapeText shape ++ " into shape " ++
      shapeText target
  | assignedCount given chosen =>
    s!"NumPy boolean array indexing assignment cannot assign {given} input values to the {chosen} " ++
      "output values where the mask is true"
  | elementSequence => "setting an array element with a sequence."
  | ambiguousTruth =>
    "The truth value of an array with more than one element is ambiguous. Use a.any() or a.all()"
  | emptyTruth =>
    "The truth value of an empty array is ambiguous. Use `array.size > 0` to check that an array " ++
      "is not empty."
  | notSingle => "can only convert an array of size 1 to a Python scalar"
  | invalidOperand => none
  | invalidElements => none
  | overflow => none

/-- An optional datum as a list of context entries. -/
def detail (key : String) (d : Option Detail) : List (String × Detail) :=
  (d.map fun x => (key, x)).toList

/-- What an error carries besides its wording. -/
def context : Error → List (String × Detail)
  | unknownDataType name => [("dtype", .text name)]
  | cannotCombine l r | lanesMismatch l r => [("lhs", .text l.text), ("rhs", .text r.text)]
  | noConstant t => [("dtype", .text t.text)]
  | notConvertible kind => [("value_type", .text kind)]
  | combinerType actual expected | identityType actual expected =>
    [("expected", .text expected.text), ("actual", .text actual.text)]
  | tensorRank _ rank given | bufferRank _ rank given =>
    [("expected", .int rank), ("actual", .int given)]
  | flagIndex _ _ position => [("position", .int position)]
  | indexKind _ position _ kind => [("position", .int position), ("index_type", .text kind)]
  | ruleArity _ takes expected => [("expected", .int expected), ("actual", .int takes)]
  | mixedReductions _ outputs reductions =>
    [("expected", .int outputs), ("actual", .int reductions)]
  | notReduceAxis axis => [("axis", .text axis)]
  | unknownIterKind _ kind => detail "kind" kind
  | missingDomain _ kind => [("kind", .text kind)]
  | notLeaf stage axis => [("stage", .text stage), ("axis", .text axis)]
  | forbidden stage action kind _ =>
    [("stage", .text stage), ("action", .text action), ("kind", .text kind)]
  | fuseOrder stage axes | fuseKinds stage axes => [("stage", .text stage), ("axes", .texts axes)]
  | factorType stage _ _ | factorSign stage _ _ | factorChoice stage | fuseNothing stage
  | duplicateAxes stage | tileSame stage | bindTarget stage | bindReduction stage _ _
  | bindBlock stage _ | attachOutside stage | attachSelf stage | attachOutput stage
  | inlineReduction stage | inlineOutput stage | attachedToInlined stage _ =>
    [("stage", .text stage)]
  | bindTooMany stage _ given =>
    [("stage", .text stage), ("expected", .int 3), ("actual", .int given)]
  | noStage operation | cacheOutputs operation | cacheLate operation
  | crossThreadOutputs operation => [("operation", .text operation)]
  | cacheRead => [("operation", .text "cache_read")]
  | unknownPass name => [("pass_name", .text name)]
  | outsideRealize tensor => [("tensor", .text tensor)]
  | unrollSymbolic loop => [("loop", .text loop)]
  | unboundVars function names =>
    [("function_name", .text function), ("unbound", .text (commaList names))]
  | parameterKind function _ | threadExtent function _ _ | outsideThreads function
  | duplicateFunction function | callFailed function _ | stmtUnsupported function _
  | exprUnsupported function _ | tensorAccess function _ | unknownFunction function _ =>
    [("function_name", .text function)]
  | unknownOptions names => [("unknown", .texts names)]
  | configKind _ given => detail "config" given
  | argumentKind _ given | notFunction _ given => detail "argument" given
  | deviceTarget target _ | unknownTarget target _ | warpSize target _ =>
    [("target", .text target)]
  | missingArgs | missingEntryKeys _ | assertion _ | missingKey _ | invalidValue _ | noInteger | notInteger _
  | notNumber _ | tooManyDigits _ | negativePower | negativeLength | unknownLengths | reshapeSize ..
  | broadcastShapes _ | broadcastTo .. | broadcastScalar | assignedShape .. | assignedPart ..
  | assignedCount .. | elementSequence | ambiguousTruth | emptyTruth | notSingle | invalidOperand
  | invalidElements | overflow => []

end Error

end TensorNest
