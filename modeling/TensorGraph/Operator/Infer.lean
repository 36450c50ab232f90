/-
Shape inference.

`Operator.infer` gives the shape of an operator's output from the shapes of its
inputs, or the reason why they do not go together.  Sizes are formed in 64-bit
arithmetic and halt where they leave it.
-/
import TensorGraph.Operator.Basic

namespace TensorGraph
namespace Operator

def mismatch (op : Operator) (why : ShapeFault) : Outcome α := .refused (.shape op.name why)

def requireFloat (op : Operator) (s : Shape) : Outcome Unit :=
  Outcome.require (s.dtype.isFloat = true) (.shape op.name (.notFloat s.dtype))

/-! ## Reshape -/

/-- The extents that a list of dimensions stands for, from a position on: 0 keeps
the input's extent there, and one dimension of -1 is left open with extent 1.
The second result is the position that is open. -/
def resolveFrom (input : Shape) (dims : List Int) (position : Nat) (openAt : Option Nat) :
    List Int → Outcome (List Nat × Option Nat)
  | [] => .value ([], openAt)
  | d :: rest => do
    let invalid := Error.shape "reshape" (.invalidDimension d position dims)
    if d = 0 then
      match input.extent? position with
      | some n =>
        let (lens, found) ← resolveFrom input dims (position + 1) openAt rest
        return (n :: lens, found)
      | none => .refused invalid
    else if d = -1 ∧ openAt = none then
      let (lens, found) ← resolveFrom input dims (position + 1) (some position) rest
      return (1 :: lens, found)
    else if d > 0 then
      let (lens, found) ← resolveFrom input dims (position + 1) openAt rest
      return (d.toNat :: lens, found)
    else .refused invalid

/-- The extents of a reshaped tensor.  An open position gets what the input's
elements leave for it. -/
def resolve (dims : List Int) (input : Shape) : Outcome (List Nat) := do
  let (lens, openAt) ← resolveFrom input dims 0 none dims
  let lens ← match openAt with
    | none => Outcome.value lens
    | some i => do
      let known ← Word.product lens
      let cannot := Error.shape "reshape" (.cannotInfer i dims input)
      Outcome.require (known ≠ 0) cannot
      let count ← input.elements
      Outcome.require (count % known = 0) cannot
      Outcome.value (lens.set i (count / known))
  let product ← Word.product lens
  let count ← input.elements
  Outcome.require (product = count) (.shape "reshape" (.reshapeCount count lens))
  return lens

/-- Whether a list holds each number below `rank` exactly once. -/
def isPermutation (rank : Nat) (permutation : List Nat) : Bool :=
  permutation.length = rank && (List.range rank).all fun i => i ∈ permutation

/-! ## Inference -/

def inferElementwise (op : Operator) (first : Shape) : List Shape → Outcome Shape
  | [] => do return ← first.asStandard
  | s :: rest => do
    Outcome.require (s.dtype = first.dtype ∧ s.lens = first.lens)
      (.shape op.name (.operandsDiffer first s))
    inferElementwise op first rest

def inferGemm (op : Operator) (a b : Shape) : Outcome Shape := do
  op.requireFloat a
  Outcome.require (a.dtype = b.dtype) (.shape op.name (.typesDiffer a b))
  match a.lens, b.lens with
  | [m, k], [l, n] => do
    Outcome.require (k = l) (.shape op.name (.innerExtents k l))
    return ← Shape.standard a.dtype [m, n]
  | _, _ => op.mismatch .needsRankTwo

def inferConvolution (op : Operator) (c : Convolution) (x w : Shape) : Outcome Shape := do
  op.requireFloat x
  match x.lens, w.lens with
  | [batch, channels, height, width], [banks, weightChannels, kernelHeight, kernelWidth] => do
    Outcome.require (x.dtype = w.dtype) (.shape op.name (.typesDiffer x w))
    Outcome.require (channels = weightChannels)
      (.shape op.name (.channelCount channels weightChannels))
    let outHeight ← c.outputHeight height kernelHeight
    let outWidth ← c.outputWidth width kernelWidth
    match outHeight, outWidth with
    | some h, some v => return ← Shape.standard x.dtype [batch, banks, h, v]
    | _, _ => op.mismatch (.windowDoesNotFit w x c)
  | _, _ => op.mismatch .needsRankFour

def infer (op : Operator) (inputs : List Shape) : Outcome Shape :=
  match op, inputs with
  | literal l, [] => .value l.shape
  | parameter _ s, [] => .value s
  | elementary _, [s] => do
    op.requireFloat s
    return ← s.asStandard
  | add, [a, b] => do
    op.requireFloat a
    op.inferElementwise a [b]
  | mul, a :: b :: rest => do
    op.requireFloat a
    op.inferElementwise a (b :: rest)
  | mul, _ => op.mismatch (.tooFewInputs 2 inputs.length)
  | reshape dims, [s] => do
    let lens ← resolve dims s
    return ← Shape.standard s.dtype lens
  | transpose permutation, [s] => do
    Outcome.require (isPermutation s.rank permutation = true)
      (.shape op.name (.notPermutation permutation s.rank))
    return ← s.permute permutation
  | contiguous, [s] => do return ← s.asStandard
  | gemm _, [a, b] => op.inferGemm a b
  | softmax axis, [s] => do
    op.requireFloat s
    Outcome.require (axis < s.rank) (.shape op.name (.axisOutOfRange axis s))
    return ← s.asStandard
  | convolution c, [x, w] => op.inferConvolution c x w
  | hostToDevice, [s] => .value s
  | deviceToHost, [s] => .value s
  | literal _, _ | parameter .., _ => op.mismatch (.inputCount 0 inputs.length)
  | add, _ | gemm _, _ | convolution _, _ => op.mismatch (.inputCount 2 inputs.length)
  | _, _ => op.mismatch (.inputCount 1 inputs.length)

/-- A transpose gives a shape exactly for the permutations of the axes. -/
theorem infer_transpose_eq (permutation : List Nat) (s : Shape) :
    (transpose permutation).infer [s] =
      if isPermutation s.rank permutation = true then Outcome.ofOption (s.permute permutation)
      else .refused (.shape "transpose" (.notPermutation permutation s.rank)) := by
  unfold infer Outcome.require
  dsimp only
  split
  · cases s.permute permutation <;> rfl
  · rfl

end Operator
end TensorGraph
