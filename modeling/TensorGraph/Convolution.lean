/-
Parameters of a two-dimensional convolution.

The number of window positions along an axis is decided in 64-bit arithmetic, so
`outputLen` answers in two layers: `none` when an intermediate size is not a
word, and `some none` when the arithmetic succeeds but the window does not fit.
-/
import TensorGraph.Text.Listing
import TensorGraph.Word

namespace TensorGraph

structure Planar where
  height : Nat
  width : Nat
  deriving DecidableEq, Repr

def Planar.text (p : Planar) : String := Text.bracketed [toString p.height, toString p.width]

/-- How the window of a convolution moves: zeros assumed around the input, the
step between window positions and the step between taps. -/
structure Convolution where
  padding : Planar := ⟨0, 0⟩
  stride : Planar := ⟨1, 1⟩
  dilation : Planar := ⟨1, 1⟩
  deriving DecidableEq, Repr

namespace Convolution

def text (c : Convolution) : String :=
  "Convolution \x7b padding: " ++ c.padding.text ++ ", stride: " ++ c.stride.text
    ++ ", dilation: " ++ c.dilation.text ++ " \x7d"

/-- Window positions along one axis of an input of `input` elements for a kernel
of `kernel` taps.  The window of a dilated kernel spans
`dilation * (kernel - 1) + 1` elements of the padded input. -/
def outputLen (padding stride dilation input kernel : Nat) : Option (Option Nat) :=
  if kernel = 0 ∨ stride = 0 then some none
  else do
    let padded ← Word.add input (← Word.mul 2 padding)
    let span ← Word.add (← Word.mul dilation (kernel - 1)) 1
    if padded < span then some none
    else do
      let positions ← Word.add ((padded - span) / stride) 1
      some (some positions)

def outputHeight (c : Convolution) (input kernel : Nat) : Option (Option Nat) :=
  outputLen c.padding.height c.stride.height c.dilation.height input kernel

def outputWidth (c : Convolution) (input kernel : Nat) : Option (Option Nat) :=
  outputLen c.padding.width c.stride.width c.dilation.width input kernel

/-- A window that spans nothing or never moves has no positions. -/
theorem outputLen_degenerate {padding stride dilation input kernel : Nat}
    (h : kernel = 0 ∨ stride = 0) :
    outputLen padding stride dilation input kernel = some none := if_pos h

end Convolution

end TensorGraph
