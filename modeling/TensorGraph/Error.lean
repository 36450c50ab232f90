/-
Why a request is refused.

An `Error` names a cause; its wording is in `Error.message` alone, its class in
`Error.kind`.  A failed launch is reported by a later call and carries the cause
it failed for, so errors nest there.
-/
import TensorGraph.Convolution
import TensorGraph.Shape.Basic

namespace TensorGraph

inductive ErrorKind where
  | shapeMismatch
  | unsupportedType
  | uncompiledProgram
  | parameter
  | device
  | lowering
  | graph
  | storage
  | io
  deriving DecidableEq, Repr

inductive ShapeFault where
  | axisCount (lens strides : Nat)
  | elementType (given expected : Dtype)
  | elementCount (given : Nat) (shape : Shape)
  | byteCount (given : Nat) (shape : Shape)
  | inputCount (expected got : Nat)
  | tooFewInputs (least got : Nat)
  | notFloat (dtype : Dtype)
  | operandsDiffer (left right : Shape)
  | typesDiffer (left right : Shape)
  | invalidDimension (dim : Int) (position : Nat) (dims : List Int)
  | cannotInfer (position : Nat) (dims : List Int) (input : Shape)
  | reshapeCount (elements : Nat) (lens : List Nat)
  | notPermutation (permutation : List Nat) (rank : Nat)
  | needsRankTwo
  | innerExtents (left right : Nat)
  | axisOutOfRange (axis : Nat) (input : Shape)
  | needsRankFour
  | channelCount (input weights : Nat)
  | windowDoesNotFit (weights input : Shape) (convolution : Convolution)
  | rankMismatch
  deriving DecidableEq, Repr

inductive TypeFault where
  | noExportCode
  | cannotView (stored requested : Dtype)
  | noHostKernel (op : String) (dtype : Dtype)
  | notNumeric (op : String)
  deriving DecidableEq, Repr

inductive ParameterFault where
  | declaredTwice
  | notAnInstruction
  | suppliedLater
  | missing
  | wrongShape (expected got : Shape)
  | noStorage
  deriving DecidableEq, Repr

inductive DeviceCall where
  | alloc
  | free
  | copyin
  | copyout
  | launch
  deriving DecidableEq, Repr

inductive DeviceFault where
  | outOfMemory (requested used capacity : Nat)
  | notAllocated (address : Nat)
  | copyTooLong (given size : Nat)
  | readTooLong (wanted size : Nat)
  | noKernel (op : String) (dtype : Dtype)
  | aliases (op : String) (address : Nat)
  | doesNotFit (shape : Shape) (size address : Nat)
  | freed (address : Nat)
  | wrongExtents (lens : List Nat) (shape : Shape)
  deriving DecidableEq, Repr

inductive LoweringFault where
  | alreadyCompiled (current : String)
  | closed
  | unbound (index : Nat)
  | hostHasNoDevice
  | transferNeedsDevice
  | noKernelProducing (dtype : Dtype)
  | refused
  | noSource
  deriving DecidableEq, Repr

inductive StorageFault where
  | tooSmall (size : Nat) (shape : Shape)
  | unaligned (address : Nat) (dtype : Dtype)
  | absent (shape : Shape)
  | onDevice (shape : Shape)
  | notExportable (argument : String)
  | operandNotOnDevice (argument : String)
  deriving DecidableEq, Repr

inductive FileFault where
  | notFound
  deriving DecidableEq, Repr

inductive Error where
  | shape (op : String) (why : ShapeFault)
  | type (why : TypeFault)
  | uncompiled
  | parameter (name : String) (why : ParameterFault)
  | device (call : DeviceCall) (why : DeviceFault)
  | launchFailed (op : String) (cause : Error)
  | lowering (op target : String) (why : LoweringFault)
  | noInstruction (index len : Nat)
  | storage (why : StorageFault)
  | io (why : FileFault)
  deriving DecidableEq, Repr

def ShapeFault.message : ShapeFault → String
  | axisCount lens strides => s!"{lens} lens but {strides} strides"
  | elementType given expected => s!"{given.text} data for a {expected.text} shape"
  | elementCount given shape => s!"{given} elements given for {shape.text}"
  | byteCount given shape => s!"{given} bytes given for {shape.text}"
  | inputCount expected got => s!"expected {expected} inputs, got {got}"
  | tooFewInputs least got => s!"expected at least {least} inputs, got {got}"
  | notFloat dtype => s!"{dtype.text} is not a float type"
  | operandsDiffer left right => s!"operands {left.text} and {right.text} differ"
  | typesDiffer left right => s!"{left.text} and {right.text} differ in type"
  | invalidDimension dim position dims =>
    s!"invalid dimension {dim} at position {position} in " ++ Text.bracketed (dims.map toString)
  | cannotInfer position dims input =>
    s!"cannot infer dimension {position} of " ++ Text.bracketed (dims.map toString)
      ++ s!" from {input.text}"
  | reshapeCount elements lens =>
    s!"{elements} elements cannot be reshaped to " ++ Text.bracketed (lens.map toString)
  | notPermutation permutation rank =>
    Text.bracketed (permutation.map toString) ++ s!" is not a permutation of rank {rank}"
  | needsRankTwo => "only rank 2 operands are supported"
  | innerExtents left right => s!"inner dimensions do not match: {left} != {right}"
  | axisOutOfRange axis input => s!"axis {axis} out of range for {input.text}"
  | needsRankFour => "input and weights must be rank 4"
  | channelCount input weights =>
    s!"input has {input} channels but weights expect {weights}"
  | windowDoesNotFit weights input convolution =>
    s!"kernel {weights.text} does not fit input {input.text} with {convolution.text}"
  | rankMismatch => "ShapeError/IncompatibleShape: incompatible shapes"

def TypeFault.message : TypeFault → String
  | noExportCode => "half not supported"
  | cannotView stored requested => s!"cannot view {stored.text} data as {requested.text}"
  | noHostKernel op dtype => s!"{op} has no {dtype.text} kernel"
  | notNumeric op => s!"{op} is not a numeric kernel"

def ParameterFault.message : ParameterFault → String
  | declaredTwice => "declared twice"
  | notAnInstruction => "parameters are declared with add_parameter"
  | suppliedLater => "parameters are supplied at evaluation time"
  | missing => "missing"
  | wrongShape expected got => s!"expected {expected.text}, got {got.text}"
  | noStorage => "argument has no storage"

def DeviceCall.name : DeviceCall → String
  | alloc => "alloc"
  | free => "free"
  | copyin => "copyin"
  | copyout => "copyout"
  | launch => "launch"

def DeviceFault.message : DeviceFault → String
  | outOfMemory requested used capacity =>
    s!"out of memory: {requested} bytes requested, {used} of {capacity} in use"
  | notAllocated address => Text.address address ++ " is not allocated"
  | copyTooLong given size => s!"{given} bytes into a {size} byte allocation"
  | readTooLong wanted size => s!"{wanted} bytes from a {size} byte allocation"
  | noKernel op dtype => s!"no {op} kernel for {dtype.text}"
  | aliases op address => s!"{op} output " ++ Text.address address ++ " aliases an input"
  | doesNotFit shape size address =>
    s!"{shape.text} does not fit {size} bytes at " ++ Text.address address
  | freed address => Text.address address ++ " was freed"
  | wrongExtents lens shape =>
    "kernel produced " ++ Text.bracketed (lens.map toString) ++ s!" for {shape.text}"

def LoweringFault.message : LoweringFault → String
  | alreadyCompiled current => s!"already compiled for {current}"
  | closed => "the program is already compiled"
  | unbound index => s!"instruction @{index} was added after compile"
  | hostHasNoDevice => "the host target has no device"
  | transferNeedsDevice => "transfers need a device"
  | noKernelProducing dtype => s!"no kernel producing {dtype.text}"
  | refused => "refused"
  | noSource => "no device kernel"

def StorageFault.message : StorageFault → String
  | tooSmall size shape => s!"{size} byte buffer cannot back {shape.text}"
  | unaligned address dtype =>
    "host pointer " ++ Text.address address ++ s!" is not aligned for {dtype.text}"
  | absent shape => s!"argument {shape.text} has no storage"
  | onDevice shape =>
    s!"argument {shape.text} lives on the device; copy it to the host first"
  | notExportable argument => s!"only host arguments can be exported, got {argument}"
  | operandNotOnDevice argument => s!"kernel operand {argument} is not on the device"

def FileFault.message : FileFault → String
  | notFound => "No such file or directory (os error 2)"

namespace Error

def kind : Error → ErrorKind
  | shape .. => .shapeMismatch
  | type _ => .unsupportedType
  | uncompiled => .uncompiledProgram
  | parameter .. => .parameter
  | device .. | launchFailed .. => .device
  | lowering .. => .lowering
  | noInstruction .. => .graph
  | storage _ => .storage
  | io _ => .io

/-- Whether the failure comes from the surroundings, a device or the file
system, rather than from how a graph was built or called. -/
def isEnvironment (e : Error) : Bool :=
  e.kind = .device || e.kind = .io

def message : Error → String
  | shape op why => s!"shape mismatch in {op}: {why.message}"
  | type why => s!"unsupported type: {why.message}"
  | uncompiled => "program must be compiled before it can be evaluated"
  | parameter name why => s!"parameter '{name}': {why.message}"
  | device call why => s!"device call '{call.name}' failed: {why.message}"
  | launchFailed op cause => s!"device call 'launch' failed: {op}: {cause.message}"
  | lowering op target why => s!"cannot lower '{op}' for target '{target}': {why.message}"
  | noInstruction index len =>
    s!"instruction @{index} does not exist (program has {len} instructions)"
  | storage why => s!"storage: {why.message}"
  | io why => s!"i/o error: {why.message}"

end Error

end TensorGraph
