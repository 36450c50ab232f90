/-
Operators on host arguments.

Views share the storage of their input; computing operators give a new buffer
under the key they are handed, in row-major layout.
-/
import TensorGraph.Argument
import TensorGraph.Kernel.Reference

namespace TensorGraph
namespace Kernel

/-- The value of an operator on host arguments.  `output` is the shape that was
inferred for it; a computed value has the extents its inputs give it. -/
def onHost (key : Nat) (op : Operator) (output : Shape) (inputs : List Argument) :
    Outcome Argument :=
  match op with
  | .literal l => .value (.ofLiteral l)
  | .parameter name _ => .refused (.parameter name .suppliedLater)
  | .reshape _ | .transpose _ =>
    match inputs with
    | a :: _ => a.withShape output
    | [] => .halted
  | .contiguous =>
    match inputs with
    | a :: _ => do
      let v ← a.viewAs output.dtype
      return ← Argument.ofTensor key output.dtype v.toTensor
    | [] => .halted
  | .hostToDevice | .deviceToHost =>
    .refused (.lowering op.name "host" .transferNeedsDevice)
  | _ =>
    match output.dtype.arithmetic with
    | some num => do
      let views ← inputs.mapM fun a : Argument => a.viewAs output.dtype
      let t ← run num op output.lens views
      return ← Argument.ofTensor key output.dtype t
    | none => .refused (.type (.noHostKernel op.name output.dtype))

end Kernel
end TensorGraph
