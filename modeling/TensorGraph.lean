import TensorGraph.Argument
import TensorGraph.Binary.Arithmetic
import TensorGraph.Binary.Elementary
import TensorGraph.Binary.Format
import TensorGraph.Convolution
import TensorGraph.Cuda.Code
import TensorGraph.Cuda.Kernel
import TensorGraph.Decimal.Layout
import TensorGraph.Decimal.Shortest
import TensorGraph.Demo
import TensorGraph.Device.Basic
import TensorGraph.Device.Calls
import TensorGraph.Device.Execute
import TensorGraph.Dtype
import TensorGraph.Error
import TensorGraph.Eval
import TensorGraph.Export
import TensorGraph.Kernel.Broadcast
import TensorGraph.Kernel.Host
import TensorGraph.Kernel.Reference
import TensorGraph.Literal
import TensorGraph.Log
import TensorGraph.Main
import TensorGraph.Operator.Basic
import TensorGraph.Operator.Infer
import TensorGraph.Outcome
import TensorGraph.Program.Basic
import TensorGraph.Program.Compile
import TensorGraph.Program.Pass
import TensorGraph.Proofs.Binary.Nearest
import TensorGraph.Proofs.Binary.Patterns
import TensorGraph.Proofs.Binary.Widened
import TensorGraph.Proofs.Crossing.Carries
import TensorGraph.Proofs.Crossing.Fresh
import TensorGraph.Proofs.Crossing.Lossless
import TensorGraph.Proofs.Crossing.Refused
import TensorGraph.Proofs.Cuda.Constant
import TensorGraph.Proofs.Cuda.Convolution
import TensorGraph.Proofs.Cuda.Dense
import TensorGraph.Proofs.Cuda.Execution
import TensorGraph.Proofs.Cuda.Factor
import TensorGraph.Proofs.Cuda.Frame
import TensorGraph.Proofs.Cuda.Gather
import TensorGraph.Proofs.Cuda.Machine
import TensorGraph.Proofs.Cuda.Offset
import TensorGraph.Proofs.Cuda.Visits
import TensorGraph.Proofs.Decimal.Shortest
import TensorGraph.Proofs.Device.Accepted
import TensorGraph.Proofs.Device.Balance
import TensorGraph.Proofs.Device.Calls
import TensorGraph.Proofs.Device.Clear
import TensorGraph.Proofs.Device.Discipline
import TensorGraph.Proofs.Device.Eager
import TensorGraph.Proofs.Device.Execute
import TensorGraph.Proofs.Device.Frame
import TensorGraph.Proofs.Device.Grown
import TensorGraph.Proofs.Device.Limit
import TensorGraph.Proofs.Device.Reached
import TensorGraph.Proofs.Device.Report
import TensorGraph.Proofs.Device.Request
import TensorGraph.Proofs.Device.Result
import TensorGraph.Proofs.Device.Work
import TensorGraph.Proofs.Device.World
import TensorGraph.Proofs.Ending
import TensorGraph.Proofs.Export
import TensorGraph.Proofs.Inference
import TensorGraph.Proofs.Isolation.Buffers
import TensorGraph.Proofs.Isolation.Compile
import TensorGraph.Proofs.Isolation.Evaluate
import TensorGraph.Proofs.Isolation.Follows
import TensorGraph.Proofs.Isolation.Foretells
import TensorGraph.Proofs.Isolation.Fresh
import TensorGraph.Proofs.Isolation.Interference
import TensorGraph.Proofs.Isolation.Kernels
import TensorGraph.Proofs.Isolation.Launch
import TensorGraph.Proofs.Isolation.Linked
import TensorGraph.Proofs.Isolation.Parameters
import TensorGraph.Proofs.Isolation.Refused
import TensorGraph.Proofs.Isolation.Restore
import TensorGraph.Proofs.Isolation.Transfers
import TensorGraph.Proofs.Isolation.World
import TensorGraph.Proofs.Kernel.Coordinates
import TensorGraph.Proofs.Kernel.Defined
import TensorGraph.Proofs.Kernel.Lanes
import TensorGraph.Proofs.Kernel.Layout
import TensorGraph.Proofs.Kernel.OnHost
import TensorGraph.Proofs.Kernel.Run
import TensorGraph.Proofs.Kernel.Softmax
import TensorGraph.Proofs.Kernel.Storable
import TensorGraph.Proofs.Kernel.Stored
import TensorGraph.Proofs.Kernel.Visits
import TensorGraph.Proofs.Kernel.Windows
import TensorGraph.Proofs.Meaning
import TensorGraph.Proofs.Oversized
import TensorGraph.Proofs.Ownership.Backed
import TensorGraph.Proofs.Ownership.Client
import TensorGraph.Proofs.Ownership.Compile
import TensorGraph.Proofs.Ownership.Evaluate
import TensorGraph.Proofs.Ownership.Holders
import TensorGraph.Proofs.Ownership.Session
import TensorGraph.Proofs.Program.Backed
import TensorGraph.Proofs.Program.Bind
import TensorGraph.Proofs.Program.Build
import TensorGraph.Proofs.Program.Capacity
import TensorGraph.Proofs.Program.Compile
import TensorGraph.Proofs.Program.Consistent
import TensorGraph.Proofs.Program.Contiguous
import TensorGraph.Proofs.Program.Course
import TensorGraph.Proofs.Program.DeadCode
import TensorGraph.Proofs.Program.Demand
import TensorGraph.Proofs.Program.Evaluate
import TensorGraph.Proofs.Program.History
import TensorGraph.Proofs.Program.Host
import TensorGraph.Proofs.Program.Limited
import TensorGraph.Proofs.Program.Liveness
import TensorGraph.Proofs.Program.Location
import TensorGraph.Proofs.Program.Lower
import TensorGraph.Proofs.Program.Moves
import TensorGraph.Proofs.Program.OnDevice
import TensorGraph.Proofs.Program.Oversized
import TensorGraph.Proofs.Program.Parity
import TensorGraph.Proofs.Program.Passes
import TensorGraph.Proofs.Program.Places
import TensorGraph.Proofs.Program.Ready
import TensorGraph.Proofs.Program.Rebuild
import TensorGraph.Proofs.Program.Release
import TensorGraph.Proofs.Program.Residence
import TensorGraph.Proofs.Program.RowMajor
import TensorGraph.Proofs.Program.Safety
import TensorGraph.Proofs.Program.Sharing
import TensorGraph.Proofs.Program.Start
import TensorGraph.Proofs.Program.Sweep
import TensorGraph.Proofs.Program.Transfers
import TensorGraph.Proofs.Program.Values
import TensorGraph.Proofs.Program.Walk
import TensorGraph.Proofs.Program.Work
import TensorGraph.Proofs.Reshape
import TensorGraph.Proofs.Shape.Packed
import TensorGraph.Proofs.Shape.Permute
import TensorGraph.Proofs.Shape.Position
import TensorGraph.Proofs.Shape.Span
import TensorGraph.Proofs.Shape.Standard
import TensorGraph.Proofs.Storage.Backed
import TensorGraph.Proofs.Storage.RoundTrip
import TensorGraph.Proofs.Storage.Words
import TensorGraph.Proofs.Traced
import TensorGraph.Proofs.Transpose
import TensorGraph.Random.Keystream
import TensorGraph.Random.Uniform
import TensorGraph.Session
import TensorGraph.Settings
import TensorGraph.Shape.Basic
import TensorGraph.Shape.Index
import TensorGraph.Shape.Layout
import TensorGraph.Storage.Buffer
import TensorGraph.Storage.Bytes
import TensorGraph.Target
import TensorGraph.Tensor
import TensorGraph.Text.Blank
import TensorGraph.Text.Listing
import TensorGraph.Text.Uppercase
import TensorGraph.Word
import TensorGraph.World
