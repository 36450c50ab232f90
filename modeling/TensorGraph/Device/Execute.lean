/-
Running launches on device memory.

An operand is read and written with the element type of the launch's output,
whatever its own shape says.  A launch that fails changes no memory; the launches
behind it are dropped.
-/
import TensorGraph.Device.Basic
import TensorGraph.Kernel.Reference

namespace TensorGraph
namespace Memory

/-- An operand read as a tensor of the given element type.  An allocation takes whole words of
eight bytes, and those behind its size stay zero.  The zeros behind its last word stand for bytes
that are not its own: nothing follows for an operand that reaches them. -/
def view (m : Memory) (operand : Operand) (dtype : Dtype) : Outcome View :=
  match m.find? operand.address with
  | none => .refused (.device .launch (.freed operand.address))
  | some bytes =>
    if operand.shape.isAddressable dtype.size then
      .value (View.ofBytes operand.shape dtype.size bytes)
    else .halted

/-- Bytes with a tensor's elements written at the offsets of a shape, in row-major
order. -/
def scatter (bytes : Bytes) (axes : List Axis) (size : Nat) :
    List (List Nat) → List Nat → Bytes
  | idx :: indices, v :: values =>
    scatter (Bytes.setWord bytes (Index.offset idx axes * size) v size) axes size indices values
  | _, _ => bytes

def store (m : Memory) (operand : Operand) (dtype : Dtype) (t : Tensor) : Outcome Memory := do
  Outcome.require (t.lens = operand.shape.lens)
    (.device .launch (.wrongExtents t.lens operand.shape))
  match m.find? operand.address with
  | none => .refused (.device .launch (.freed operand.address))
  | some bytes =>
    if operand.shape.isAddressable dtype.size then
      return m.replace operand.address
        (scatter bytes operand.shape.axes dtype.size (Index.indices t.lens) t.elements)
    else .halted

def execute (m : Memory) (launch : Launch) : Outcome Memory := do
  let dtype := launch.output.shape.dtype
  match launch.op with
  | .contiguous =>
    match launch.inputs with
    | input :: _ => do
      let v ← m.view input dtype
      m.store launch.output dtype (← v.held dtype.size).toTensor
    | [] => .halted
  | op =>
    match dtype.arithmetic with
    | some num => do
      let views ← launch.inputs.mapM fun i => m.view i dtype
      let t ← Kernel.run num op launch.output.shape.lens views
      m.store launch.output dtype t
    | none => .refused (.device .launch (.noKernel op.text dtype))

/-- Why a run of launches stopped: the launch, its failure and how many launches
were dropped behind it. -/
structure Stop where
  launch : Launch
  cause : Error
  dropped : Nat

/-- The memory after launches run in order, up to the first that fails.  No answer
means that one of them halted. -/
def runAll (m : Memory) : List Launch → Option (Memory × Option Stop)
  | [] => some (m, none)
  | launch :: rest =>
    match m.execute launch with
    | .value next => runAll next rest
    | .refused e => some (m, some ⟨launch, e, rest.length⟩)
    | .halted => none

theorem runAll_nil (m : Memory) : m.runAll [] = some (m, none) := rfl

theorem runAll_cons (m : Memory) (launch : Launch) (rest : List Launch) :
    m.runAll (launch :: rest) =
      match m.execute launch with
      | .value next => runAll next rest
      | .refused e => some (m, some ⟨launch, e, rest.length⟩)
      | .halted => none := rfl

theorem size_scatter (bytes : Bytes) (axes : List Axis) (size : Nat) (indices : List (List Nat))
    (values : List Nat) : (scatter bytes axes size indices values).size = bytes.size := by
  induction indices generalizing bytes values with
  | nil => rfl
  | cons idx indices ih =>
    cases values with
    | nil => rfl
    | cons v values => rw [scatter, ih, Bytes.size_setWord]

end Memory
end TensorGraph
