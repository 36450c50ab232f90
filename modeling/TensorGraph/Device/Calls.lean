/-
The calls of a simulated device.

`launch` only checks and queues.  `free`, the copies and `synchronize` first run
the queue.  A failure found there is kept until a copy or a `synchronize` reports
it, once; a `free` is never refused for it.
-/
import TensorGraph.Device.Execute

namespace TensorGraph
namespace Device

/-- Runs the queued launches.  The first failure since the last report is kept. -/
def flush : Action Device Unit := fun d =>
  match d.memory.runAll d.queue with
  | none => .halted
  | some (memory, none) => .value () { d with memory := memory, queue := [] }
  | some (memory, some stop) =>
    let notice : Record :=
      ⟨.warn, s!"sim: {stop.launch.op.text} failed, dropping {stop.dropped} queued launches"⟩
    let failure := Error.launchFailed stop.launch.op.text stop.cause
    .value () { d with
      memory := memory
      queue := []
      failure := some (d.failure.getD failure)
      notices := d.notices ++ [notice] }

/-- Runs the queued launches and reports the first failure since the last report. -/
def settle : Action Device Unit := do
  flush
  let d ← get
  match d.failure with
  | some e => do
    set { d with failure := none }
    Action.refuse e
  | none => pure ()

def allocation (call : DeviceCall) (address : Nat) : Action Device Bytes := do
  match (← get).memory.find? address with
  | some bytes => pure bytes
  | none => Action.refuse (.device call (.notAllocated address))

def span (bytes : Nat) : Option Nat :=
  Word.mul ((max bytes 1 + (alignment - 1)) / alignment) alignment

def alloc (bytes : Nat) : Action Device Nat := do
  let d ← get
  if let some capacity := d.capacity then
    let wanted ← Word.add d.stats.liveBytes bytes
    if wanted > capacity then
      Action.refuse (.device .alloc (.outOfMemory bytes d.stats.liveBytes capacity))
  let next ← Word.add d.next (← span bytes)
  if (bytes + 7) / 8 * 8 > Word.maxSigned then Action.halt
  let liveBytes ← Word.add d.stats.liveBytes bytes
  set { d with
    memory := (d.next, Bytes.zeros bytes) :: d.memory
    next := next
    stats := { d.stats with
      allocations := d.stats.allocations + 1
      live := d.stats.live + 1
      liveBytes := liveBytes } }
  return d.next

def free (address : Nat) : Action Device Unit := do
  flush
  let d ← get
  match d.memory.find? address with
  | some bytes =>
    set { d with
      memory := d.memory.remove address
      stats := { d.stats with
        frees := d.stats.frees + 1
        live := d.stats.live - 1
        liveBytes := d.stats.liveBytes - bytes.size } }
  | none => do
    set { d with stats := { d.stats with invalidFrees := d.stats.invalidFrees + 1 } }
    Action.refuse (.device .free (.notAllocated address))

def copyin (bytes : Bytes) (address : Nat) : Action Device Unit := do
  settle
  let old ← allocation .copyin address
  if bytes.size > old.size then
    Action.refuse (.device .copyin (.copyTooLong bytes.size old.size))
  modify fun d => { d with memory := d.memory.replace address (Bytes.overwrite old bytes) }

def copyout (address len : Nat) : Action Device Bytes := do
  settle
  let bytes ← allocation .copyout address
  if len > bytes.size then
    Action.refuse (.device .copyout (.readTooLong len bytes.size))
  return bytes.extract 0 len

def requireFits (operand : Operand) : Action Device Unit := do
  let bytes ← allocation .launch operand.address
  if bytes.size < (← operand.shape.storageBytes) then
    Action.refuse (.device .launch (.doesNotFit operand.shape bytes.size operand.address))

/-- Queues a launch.  It is refused when the device has no kernel for it, when its
output is one of its inputs, or when an operand is not allocated or too small. -/
def launch (op : Operator) (output : Operand) (inputs : List Operand) : Action Device Unit := do
  let d ← get
  if !d.supports op output.shape.dtype then
    Action.refuse (.device .launch (.noKernel op.text output.shape.dtype))
  if inputs.any fun i => i.address = output.address then
    Action.refuse (.device .launch (.aliases op.text output.address))
  Action.forEach requireFits (inputs ++ [output])
  modify fun d => { d with
    queue := d.queue ++ [⟨op, output, inputs⟩]
    stats := { d.stats with launches := d.stats.launches + 1 } }

def synchronize : Action Device Unit := do
  modify fun d => { d with stats := { d.stats with syncs := d.stats.syncs + 1 } }
  settle

theorem flush_of_queue_nil {d : Device} (h : d.queue = []) : flush d = .value () d := by
  unfold flush
  rw [h, Memory.runAll_nil]
  cases d
  cases h
  rfl

end Device
end TensorGraph
