/-
Targets: what a program is lowered to.

A target is a name, the passes that make a program fit for it, and a backend that
provides the kernels.  The host backend runs everything but transfers on the
host and may be told to refuse operators; the device backend launches computing
operators on one device.
-/
import TensorGraph.Argument
import TensorGraph.Operator.Basic

namespace TensorGraph

/-- A change of a program.  `insertContiguous` puts its copies before the inputs
of the operators that need them in row-major layout. -/
inductive Pass where
  | eliminateDeadCode
  | insertContiguous (needs : Operator → Bool)
  | insertTransfers (offload : Bool)

def Pass.name : Pass → String
  | eliminateDeadCode => "eliminate_dead_code"
  | insertContiguous _ => "insert_contiguous"
  | insertTransfers _ => "insert_transfers"

inductive Backend where
  | host (refused : List String)
  | device (id : DeviceId)

structure Target where
  name : String
  passes : List Pass
  backend : Backend

namespace Target

def hostName : String := "cpu"

def hostNeeds : Operator → Bool
  | .gemm _ | .softmax _ | .convolution _ => true
  | _ => false

/-- Whether device kernels want row-major inputs: all but the copy that makes
them. -/
def deviceNeeds : Operator → Bool
  | .contiguous => false
  | op => op.isCompute

def host : Target := ⟨hostName, [.eliminateDeadCode, .insertContiguous hostNeeds], .host []⟩

/-- Computation on a device.  With `offload` the output is copied back to the
host. -/
def device (id : DeviceId) (offload : Bool) : Target :=
  ⟨"gpu", [.eliminateDeadCode, .insertContiguous deviceNeeds, .insertTransfers offload], .device id⟩

/-- A host target of a caller's own, which refuses some operators by name. -/
def custom (name : String) (passes : List Pass) (refused : List String) : Target :=
  ⟨name, passes, .host refused⟩

end Target

inductive BoundKernel where
  | host (op : Operator)
  | literal (value : Literal)
  | resident (value : Argument)
  | upload (id : DeviceId)
  | download
  | view (name : String)
  | launch (op : Operator) (id : DeviceId)

namespace BoundKernel

def name : BoundKernel → String
  | host op => "cpu::" ++ op.name
  | literal _ => "gpu::literal"
  | resident _ => "gpu::resident_literal"
  | upload _ => "gpu::host_to_device"
  | download => "gpu::device_to_host"
  | view name => "gpu::" ++ name
  | launch op _ => "gpu::" ++ op.name

def resident? : BoundKernel → Option DeviceBuffer
  | resident a => a.deviceBuffer?
  | _ => none

end BoundKernel

end TensorGraph
