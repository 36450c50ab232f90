/-
The strided view of a host argument that array libraries take over: where the
first element lies, extents, strides in bytes and a one-letter element code.
-/
import TensorGraph.Argument

namespace TensorGraph

structure BufferInfo where
  address : Nat
  itemSize : Nat
  code : String
  rank : Nat
  lens : List Nat
  strides : List Nat
  elements : Nat
  bytes : Nat
  deriving DecidableEq, Repr

def Dtype.requireExportCode (d : Dtype) : Outcome String :=
  match d.exportCode with
  | some code => .value code
  | none => .refused (.type .noExportCode)

namespace Argument

/-- The description of a host argument.  An element type without a code is
refused before the location is looked at. -/
def bufferInfo (a : Argument) : Outcome BufferInfo := do
  let code ← a.shape.dtype.requireExportCode
  Outcome.require (a.location = some .host) (.storage (.notExportable a.text))
  let buffer ← a.hostBuffer
  let strides ← a.shape.strides.mapM fun s => Word.mul s a.shape.dtype.size
  return {
    address := buffer.address
    itemSize := a.shape.dtype.size
    code := code
    rank := a.shape.rank
    lens := a.shape.lens
    strides := strides
    elements := ← a.shape.elements
    bytes := ← a.shape.bytes }

end Argument

end TensorGraph
