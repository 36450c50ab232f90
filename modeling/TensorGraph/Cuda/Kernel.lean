/-
The CUDA kernels of computing operators.

Thread `i` of a kernel computes element `i` of the output in row-major order.
Elementwise kernels and the copy load their operands through the operands'
strides; the matrix product, softmax and convolution expect them in row-major
layout.
-/
import TensorGraph.Cuda.Code
import TensorGraph.Operator.Infer

namespace TensorGraph
namespace Cuda

def thread : Expr := .name "i"

/-- The offset that an axis adds for element `i`: its coordinate times its stride.
`inner` is the number of elements that one step along the axis spans. -/
def axisTerm (inner : Nat) (a : Axis) : Expr :=
  .paren (.paren (thread / .word inner) % .word a.extent) * .word a.stride

def axisTerms : List Axis → Option (List Expr)
  | [] => some []
  | a :: rest =>
    if a.extent = 1 then axisTerms rest
    else do
      let inner ← Word.product (rest.map Axis.extent)
      some (axisTerm inner a :: (← axisTerms rest))

def sum : List Expr → Expr
  | [] => .int 0
  | e :: rest => rest.foldl (· + ·) e

def offset (s : Shape) : Option Expr := do
  if ← s.isStandard then some thread
  else some (sum (← axisTerms s.axes))

def loadInput (inputs : List Shape) (k : Nat) : Option Expr := do
  some (.load (Source.input k) (← offset (← inputs[k]?)))

def loadInputs (inputs : List Shape) : Option (List Expr) :=
  (List.range inputs.length).mapM (loadInput inputs)

/-- The product of expressions; a product of nothing has no text. -/
def product : List Expr → Expr
  | [] => .name ""
  | e :: rest => rest.foldl (· * ·) e

def result : Expr := .load "out" thread

def widened (array : String) (index : Expr) : Expr := .cast .double (.load array index)

/-- The factor of a matrix product keeps a point when it is whole, and has an
exponent below `10 ^ -4` and from `10 ^ 16` on. -/
def factorLayout : Decimal.Layout := ⟨true, some (-4, 16)⟩

/-- The statements of a matrix product of `columns` columns with an inner extent of
`inner`. -/
def gemmBody (element : CType) (factor inner columns : Nat) : Stmt :=
  let acc := Expr.name "acc"
  let r := Expr.name "r"
  let c := Expr.name "c"
  let l := Expr.name "l"
  .inOrder
    (.declare true .unsignedWord
      [("r", thread / .word columns), ("c", thread % .word columns)])
    [.declare false .double [("acc", .real "0.0")],
     .loop .unsignedWord "l" (.word inner) .behind
      (.increase acc
        (widened "in0" (r * .word inner + l) * widened "in1" (l * .word columns + c))),
     .assign result
      (.cast element (.paren (acc * .real (Format.single.text factorLayout factor))))]

/-- The statements of a softmax along an axis of `len` positions that lie `inner`
apart; `span` is the product of the two. -/
def softmaxBody (element : CType) (len inner span : Nat) : Stmt :=
  let m := Expr.name "m"
  let s := Expr.name "s"
  let item := widened "in0" (.name "base" + .name "j" * .word inner)
  .inOrder
    (.declare true .unsignedWord
      [("base", .paren (thread / .word span) * .word span + thread % .word inner)])
    [.declare false .double [("m", .real "-INFINITY"), ("s", .real "0.0")],
     .loop .unsignedWord "j" (.word len) .behind (.assign m (.callPair "fmax" m item)),
     .loop .unsignedWord "j" (.word len) .behind (.increase s (.call "exp" (item - m))),
     .assign result
      (.cast element (.paren (.call "exp" (widened "in0" thread - m) / s)))]

structure ConvolutionSizes where
  channels : Nat
  height : Int
  width : Int
  kernelHeight : Nat
  kernelWidth : Nat
  banks : Nat
  outHeight : Nat
  outWidth : Nat
  outImage : Nat
  outBatch : Nat

def natural (n : Nat) : Expr := .int n

def skipOutside (v : String) (extent : Int) : Stmt :=
  .skipIf (.binary .either (.binary .less (.name v) (.int 0))
    (.binary .atLeast (.name v) (.int extent)))

def declareCoordinate (v output tap : String) (stride dilation padding : Nat) : Stmt :=
  .declare true .signedWord
    [(v, .name output * natural stride + .name tap * natural dilation - natural padding)]

def convolutionBody (element : CType) (p : Convolution) (s : ConvolutionSizes) : Stmt :=
  let v := Expr.name
  let channels := natural s.channels
  let pixel :=
    .paren (.paren (v "b" * channels + v "ch") * .int s.height + v "iy") * .int s.width + v "ix"
  let weight :=
    .paren (.paren (v "o" * channels + v "ch") * natural s.kernelHeight + v "ky")
      * natural s.kernelWidth + v "kx"
  let alongRow : Stmt :=
    .inOrder (declareCoordinate "ix" "ox" "kx" p.stride.width p.dilation.width p.padding.width)
      [skipOutside "ix" s.width,
       .increase (v "acc") (widened "in0" pixel * widened "in1" weight)]
  let alongColumn : Stmt :=
    .inOrder (declareCoordinate "iy" "oy" "ky" p.stride.height p.dilation.height p.padding.height)
      [skipOutside "iy" s.height,
       .loop .signedWord "kx" (natural s.kernelWidth) .braced alongRow]
  .inOrder
    (.declare true .signedWord
      [("ox", thread % natural s.outWidth),
       ("oy", .paren (thread / natural s.outWidth) % natural s.outHeight),
       ("o", .paren (thread / natural s.outImage) % natural s.banks),
       ("b", thread / natural s.outBatch)])
    [.declare false .double [("acc", .real "0.0")],
     .loop .signedWord "ch" channels .below
      (.loop .signedWord "ky" (natural s.kernelHeight) .braced alongColumn),
     .assign result (.cast element (v "acc"))]

def convolutionSizes (output : Shape) (inputs : List Shape) : Option ConvolutionSizes := do
  let x ← inputs[0]?
  let w ← inputs[1]?
  let channels ← x.extent? 1
  let height ← x.extent? 2
  let width ← x.extent? 3
  let kernelHeight ← w.extent? 2
  let kernelWidth ← w.extent? 3
  let banks ← output.extent? 1
  let outHeight ← output.extent? 2
  let outWidth ← output.extent? 3
  let outImage ← Word.mul outHeight outWidth
  let outBatch ← Word.mul (← Word.mul banks outHeight) outWidth
  some {
    channels, kernelHeight, kernelWidth, banks, outHeight, outWidth, outImage, outBatch
    height := Word.toSigned height
    width := Word.toSigned width }

def body (op : Operator) (output : Shape) (inputs : List Shape) : Outcome Stmt := do
  let element := CType.element output.dtype.cName
  match op with
  | .elementary fn => return .assign result (.call fn.name (← loadInput inputs 0))
  | .add => return .assign result ((← loadInput inputs 0) + (← loadInput inputs 1))
  | .mul => return .assign result (product (← loadInputs inputs))
  | .contiguous => return .assign result (← loadInput inputs 0)
  | .gemm factor =>
    let a ← inputs[0]?
    return gemmBody element factor (← a.extent? 1) (← output.extent? 1)
  | .softmax axis =>
    let len ← output.extent? axis
    let inner ← Word.product (output.lens.drop (axis + 1))
    return softmaxBody element len inner (← Word.mul len inner)
  | .convolution p => return convolutionBody element p (← convolutionSizes output inputs)
  | op => .refused (.lowering op.name "cuda" .noSource)

def source (op : Operator) (output : Shape) (inputs : List Shape) : Outcome Source := do
  let count ← output.elements
  let statements ← body op output inputs
  return {
    element := output.dtype.cName
    inputs := inputs.length
    body :=
      .inOrder
        (.declare true .unsignedWord
          [("i", .cast .unsignedWord (.name "blockIdx.x") * .name "blockDim.x"
            + .name "threadIdx.x")])
        [.leaveIf (.binary .atLeast thread (.word count)), statements] }

theorem axisTerms_cons_of_extent_eq_one {a : Axis} (h : a.extent = 1) (rest : List Axis) :
    axisTerms (a :: rest) = axisTerms rest := if_pos h

end Cuda
end TensorGraph
