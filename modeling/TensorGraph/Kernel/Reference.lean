/-
The numeric kernels.

Every backend computes what these compute.  They work on logical tensors and
know the element type only through its `Arithmetic`.  The matrix product, softmax
and convolution widen their elements to double precision, accumulate there in a
fixed order and round each result once; sums of the first two start at negative
zero and those of the convolution at positive zero.

Softmax changes a dense copy of its input lane by lane.  A lane is read in full
before any of it is written, and lanes are disjoint.
-/
import TensorGraph.Kernel.Broadcast
import TensorGraph.Operator.Basic

-- Products are those of the core library, whatever else is imported.
attribute [local instance (2000)] One.ofOfNat1

namespace TensorGraph
namespace Kernel

/-- A dense tensor from the element of `size` bytes at each index.  An index without
an element, extents beyond addressing, or more elements than memory holds, halt. -/
def tabulate (size : Nat) (lens : List Nat) (element : List Nat → Option Nat) :
    Outcome Tensor :=
  if View.isCountable lens && View.isListable size lens then
    (Outcome.ofOption ((Index.indices lens).mapM element)).bind fun elements =>
      .value ⟨lens, elements⟩
  else .halted

/-! ## Elementwise kernels -/

/-- The left-to-right product of a tensor and others.  The first and every product are
held in memory. -/
def product (num : Arithmetic) (first : View) : List View → Option View
  | [] => first.held num.size
  | v :: rest => do product num (← View.zipWith num.mul (← first.held num.size) v) rest

/-! ## Matrix product -/

def dot (num : Arithmetic) (count : Nat) (left right : Nat → Option Nat) : Option Nat :=
  (List.range count).foldlM (fun acc l => do
    let a ← left l
    let b ← right l
    some (Format.double.add acc (Format.double.mul (num.widen a) (num.widen b))))
    Format.double.negativeZero

def gemm (num : Arithmetic) (factor : Nat) (a b : View) : Outcome Tensor :=
  match a.lens, b.lens with
  | [m, k], [_, n] =>
    let scale := Format.convert .single .double factor
    tabulate num.size [m, n] fun idx =>
      match idx with
      | [i, j] => do
        let acc ← dot num k (fun l => a.at? [i, l]) (fun l => b.at? [l, j])
        some (num.narrow (Format.double.mul acc scale))
      | _ => none
  | _, _ => .refused (.shape "gemm" .rankMismatch)

/-! ## Softmax -/

/-- The positions of a lane in a dense tensor: `count` of them, `step` apart. -/
def lane (first step count : Nat) : List Nat := (List.range count).map fun j => first + j * step

/-- The lanes along an axis, each as the list of its positions.  `before`, `count`
and `after` are the extents before, along and after the axis. -/
def lanes (before count after : Nat) : List (List Nat) :=
  (List.range before).flatMap fun o =>
    (List.range after).map fun r => lane (o * (count * after) + r) after count

def shiftedExp (num : Arithmetic) (largest element : Nat) : Nat :=
  Elementary.exp.double (Format.double.sub (num.widen element) largest)

def normaliseLane (num : Arithmetic) (elements : Array Nat) (positions : List Nat) : Array Nat :=
  let values := positions.map fun p => elements.getD p 0
  let largest := values.foldl (fun m v => Format.double.maximum m (num.widen v))
    Format.double.negativeInfinity
  let total := values.foldl (fun s v => Format.double.add s (shiftedExp num largest v))
    Format.double.negativeZero
  positions.foldl (fun es p =>
    es.setIfInBounds p
      (num.narrow (Format.double.div (shiftedExp num largest (es.getD p 0)) total)))
    elements

def softmax (num : Arithmetic) (axis : Nat) (v : View) : Outcome Tensor :=
  match v.lens[axis]? with
  | none => .halted
  | some count => do
    let copy ← v.held num.size
    let all := lanes (v.lens.take axis).prod count (v.lens.drop (axis + 1)).prod
    return ⟨v.lens, (all.foldl (normaliseLane num) copy.elements.toArray).toList⟩

/-! ## Convolution -/

/-- The input coordinate under a tap: how far the window and the tap inside it
have moved, less the padding.  The movement is a word and the difference a signed
word. -/
def tapCoordinate (position stride tap dilation padding : Nat) : Option Int := do
  let moved ← Word.add (← Word.mul position stride) (← Word.mul tap dilation)
  Word.subSigned (Word.toSigned moved) (Word.toSigned padding)

def isInside (coordinate : Int) (extent : Nat) : Bool :=
  0 ≤ coordinate && coordinate < Word.toSigned extent

def rowSum (num : Arithmetic) (c : Convolution) (width kernelWidth position : Nat)
    (input weight : Nat → Option Nat) (acc : Nat) : Option Nat :=
  (List.range kernelWidth).foldlM (fun acc tap => do
    let x ← tapCoordinate position c.stride.width tap c.dilation.width c.padding.width
    if isInside x width then do
      let a ← input x.toNat
      let w ← weight tap
      some (Format.double.add acc (Format.double.mul (num.widen a) (num.widen w)))
    else some acc) acc

/-- The sum over all taps that lie inside the input: by channel, then by row, then
along the row. -/
def windowSum (num : Arithmetic) (c : Convolution) (channels height width : Nat)
    (kernelHeight kernelWidth : Nat) (row column : Nat)
    (input weight : Nat → Nat → Nat → Option Nat) : Option Nat :=
  (List.range channels).foldlM (fun acc channel =>
    (List.range kernelHeight).foldlM (fun acc tap => do
      let y ← tapCoordinate row c.stride.height tap c.dilation.height c.padding.height
      if isInside y height then
        rowSum num c width kernelWidth column (input channel y.toNat) (weight channel tap) acc
      else some acc) acc) 0

def convolution (num : Arithmetic) (c : Convolution) (output : List Nat) (x w : View) :
    Outcome Tensor :=
  match x.lens, w.lens with
  | [_, channels, height, width], [_, _, kernelHeight, kernelWidth] =>
    match output with
    | batch :: banks :: rows :: columns :: _ =>
      tabulate num.size [batch, banks, rows, columns] fun idx =>
        match idx with
        | [n, o, row, column] => do
          let acc ← windowSum num c channels height width kernelHeight kernelWidth row column
            (fun channel y x' => x.at? [n, channel, y, x'])
            (fun channel ky kx => w.at? [o, channel, ky, kx])
          some (num.narrow acc)
        | _ => none
    | _ => .halted
  | _, _ => .refused (.shape "convolution" .rankMismatch)

/-! ## Dispatch -/

/-- What an operator computes from logical tensors.  A missing input halts; inputs
beyond those an operator reads are ignored. -/
def run (num : Arithmetic) (op : Operator) (output : List Nat) (inputs : List View) :
    Outcome Tensor :=
  match op, inputs with
  | .elementary fn, x :: _ => do return (← (x.map (num.apply fn)).held num.size).toTensor
  | .add, x :: y :: _ => do return (← (← View.zipWith num.add x y).held num.size).toTensor
  | .mul, x :: rest => do return (← product num x rest).toTensor
  | .contiguous, x :: _ => do return (← x.held num.size).toTensor
  | .gemm factor, a :: b :: _ => gemm num factor a b
  | .softmax axis, x :: _ => softmax num axis x
  | .convolution c, x :: w :: _ => convolution num c output x w
  | op, _ => if op.isCompute then .halted else .refused (.type (.notNumeric op.name))

theorem product_cons (num : Arithmetic) (first v : View) (rest : List View) :
    product num first (v :: rest) = (first.held num.size).bind fun kept =>
      (View.zipWith num.mul kept v).bind fun p => product num p rest := rfl

end Kernel
end TensorGraph
