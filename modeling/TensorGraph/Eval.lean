/-
Evaluating compiled programs.

Instructions run in order.  A value is kept while a later instruction reads it or
it is the output, and is released right after the last instruction that reads it.
When something is refused on the way, every value that is kept is released.
-/
import TensorGraph.Kernel.Host
import TensorGraph.Program.Compile

namespace TensorGraph

abbrev Parameters := List (String × Argument)

namespace BoundKernel

/-- The value that a kernel computes from the values of its inputs.  The value has
one holder, its caller. -/
def compute (k : BoundKernel) (output : Shape) (inputs : List Argument) :
    Action World Argument := do
  match k with
  | host op => do
    let a ← Kernel.onHost (← World.freshKey) op output inputs
    World.retain a
    return a
  | literal l => return .ofLiteral l
  | resident a => do
    World.retain a
    return a
  | upload id =>
    match inputs with
    | a :: _ => World.toDevice id a
    | [] => Action.halt
  | download =>
    match inputs with
    | a :: _ => World.toHost a
    | [] => Action.halt
  | view _ =>
    match inputs with
    | a :: _ => do
      let b ← a.withShape output
      World.retain b
      return b
    | [] => Action.halt
  | launch op id => do
    let b ← World.allocate id (← output.storageBytes)
    let launched : Action World Argument := do
      let result ← Argument.make output (.device b)
      let operands ← inputs.mapM fun a : Argument => World.operand a
      World.onDevice id (Device.launch op (← World.operand result) operands)
      return result
    launched.onRefusal (World.releaseBuffer b)

end BoundKernel

namespace Program

def checkParameters (params : Parameters) : List (String × Shape) → Outcome Unit
  | [] => .value ()
  | (name, shape) :: rest => do
    match params.lookup name with
    | none => .refused (.parameter name .missing)
    | some a => do
      Outcome.require (a.shape = shape) (.parameter name (.wrongShape shape a.shape))
      Outcome.require (a.isAbsent = false) (.parameter name .noStorage)
      checkParameters params rest

/-- For every position, the last instruction that reads it, given the instructions
from a position on. -/
def lastUsesFrom (last : List (Option Nat)) (position : Nat) :
    List Instruction → Option (List (Option Nat))
  | [] => some last
  | i :: rest => do
    if i.inputs.all fun r => r < last.length then
      lastUsesFrom (i.inputs.foldl (fun l r => l.set r (some position)) last) (position + 1) rest
    else none

def lastUses (p : Program) : Option (List (Option Nat)) :=
  lastUsesFrom (List.replicate p.size none) 0 p.instructions

abbrev Values := List (Option Argument)

def releaseValues (values : Values) : Action World Unit :=
  Action.forEach World.release (values.filterMap id)

def inputValues (position : Nat) (values : Values) : List Nat → Outcome (List Argument)
  | [] => .value []
  | r :: rest =>
    match values[r]? with
    | some (some a) => do return a :: (← inputValues position values rest)
    | some none => .refused (.noInstruction r position)
    | none => .halted

def instructionValue (params : Parameters) (position : Nat) (i : Instruction)
    (values : Values) : Action World Argument :=
  match i.op with
  | .parameter name _ =>
    match params.lookup name with
    | some a => do
      World.retain a
      return a
    | none => Action.refuse (.parameter name .missing)
  | op =>
    match i.kernel with
    | none => Action.refuse (.lowering op.name "unbound" (.unbound position))
    | some k => do
      let inputs ← inputValues position values i.inputs
      k.compute i.shape inputs

def releaseDead (last : List (Option Nat)) (position : Nat) (values : Values) :
    List Nat → Action World Values
  | [] => pure values
  | r :: rest => do
    if last[r]? = some (some position) then do
      if let some (some a) := values[r]? then World.release a
      releaseDead last position (values.set r none) rest
    else releaseDead last position values rest

def runFrom (params : Parameters) (last : List (Option Nat)) (output position : Nat)
    (values : Values) : List Instruction → Action World Values
  | [] => pure values
  | i :: rest => do
    let value ← (instructionValue params position i values).onRefusal (releaseValues values)
    if (← MonadState.get).settings.traceEval then
      World.note .debug s!"@{position} = {i.op.text} -> {value.text}"
    if (last.getD position none).isSome || position = output then do
      let values ← releaseDead last position (values.set position (some value)) i.inputs
      runFrom params last output (position + 1) values rest
    else do
      let values ← releaseDead last position values i.inputs
      World.release value
      runFrom params last output (position + 1) values rest

/-- Evaluates a compiled program and gives the value of its output, which has one
holder, the caller. -/
def run (p : Program) (params : Parameters) : Action World Argument := do
  if !p.isCompiled then Action.refuse .uncompiled
  checkParameters params p.parameters
  match p.output? with
  | none => Action.refuse (.noInstruction 0 0)
  | some output => do
    let last ← lastUses p
    let values ← runFrom params last output 0 (List.replicate p.size none) p.instructions
    match values.getD output none with
    | none => do
      releaseValues values
      Action.refuse (.noInstruction output p.size)
    | some a => do
      releaseValues (values.set output none)
      return a

end Program

end TensorGraph
