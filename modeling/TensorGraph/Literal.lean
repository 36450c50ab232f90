/-
Tensor constants.

A literal is a shape with the bytes of its elements.  Each constructor takes the
key of the buffer it makes.  Two literals are equal when their shapes and bytes
are; the keys do not count.
-/
import TensorGraph.Outcome
import TensorGraph.Random.Uniform
import TensorGraph.Shape.Layout
import TensorGraph.Storage.Buffer

namespace TensorGraph

structure Literal where
  shape : Shape
  buffer : HostBuffer
  deriving Repr

namespace Literal

/-- The literal of elements in row-major order.  They have to be of the shape's
type and as many as the shape has, and the shape has to be in row-major layout. -/
def ofElements (key : Nat) (shape : Shape) (dtype : Dtype) (elements : List Nat) :
    Outcome Literal := do
  Outcome.require (dtype = shape.dtype) (.shape "literal" (.elementType dtype shape.dtype))
  let fault := Error.shape "literal" (.elementCount elements.length shape)
  Outcome.require (← shape.isStandard) fault
  Outcome.require (elements.length = (← shape.elements)) fault
  return ⟨shape, ← HostBuffer.ofElements key shape.dtype.size elements⟩

def ofBytes (key : Nat) (shape : Shape) (bytes : Bytes) : Outcome Literal := do
  Outcome.require (bytes.size = (← shape.storageBytes))
    (.shape "literal" (.byteCount bytes.size shape))
  return ⟨shape, .ofBytes key bytes⟩

/-- A literal of random elements, in row-major layout whatever the strides of the
shape. -/
def generate (key : Nat) (shape : Shape) (seed : UInt64) : Option Literal := do
  let shape ← shape.asStandard
  let count ← shape.elements
  let b ← HostBuffer.zeroed key (count * shape.dtype.size)
  let elements := Random.elements shape.dtype seed count
  some ⟨shape, { b with bytes := Bytes.ofWords shape.dtype.size elements }⟩

def bytes (l : Literal) : Bytes := l.buffer.bytes

def same (a b : Literal) : Bool := a.shape = b.shape && a.bytes = b.bytes

def text (l : Literal) : String := "\x7b" ++ l.shape.text ++ "\x7d"

end Literal

end TensorGraph
