/-
Devices and who holds their memory.

A `World` is the devices of a session, the log, and `held`: the device buffers
that somebody holds, one entry for each holder.  `retain` adds a holder and
`release` takes one away; when the last one goes, the allocation is freed.  A
device may refuse that, and then the refusal is only logged, because nobody is
left to tell.
-/
import TensorGraph.Argument
import TensorGraph.Device.Calls
import TensorGraph.Settings

namespace TensorGraph

structure World where
  devices : List Device := []
  held : List DeviceBuffer := []
  nextKey : Nat := 0
  log : List Record := []
  settings : Settings := {}

namespace World

def note (level : Level) (message : String) : Action World Unit :=
  modify fun w => { w with log := w.log ++ [⟨level, message⟩] }

def freshKey : Action World Nat := fun w =>
  .value w.nextKey { w with nextKey := w.nextKey + 1 }

def addDevice (d : Device) : Action World DeviceId := fun w =>
  .value w.devices.length { w with devices := w.devices ++ [d] }

/-- The world with a device in a new state; its notices go to the log. -/
def setDevice (w : World) (id : DeviceId) (d : Device) : World :=
  { w with
    devices := w.devices.set id { d with notices := [] }
    log := w.log ++ d.notices }

def onDevice (id : DeviceId) (call : Action Device α) : Action World α := fun w =>
  match w.devices[id]? with
  | none => .halted
  | some d =>
    match call d with
    | .value a next => .value a (w.setDevice id next)
    | .refused e next => .refused e (w.setDevice id next)
    | .halted => .halted

def retainBuffer (b : DeviceBuffer) : Action World Unit :=
  modify fun w => { w with held := b :: w.held }

/-- Takes away a holder of a device buffer and frees it after the last. -/
def releaseBuffer (b : DeviceBuffer) : Action World Unit := do
  modify fun w => { w with held := w.held.erase b }
  if b ∉ (← get).held then
    match ← Action.attempt (onDevice b.device (Device.free b.address)) with
    | .ok () => pure ()
    | .error e => note .error s!"releasing {b.text}: {e.message}"

def retain (a : Argument) : Action World Unit :=
  match a.deviceBuffer? with
  | some b => retainBuffer b
  | none => pure ()

def release (a : Argument) : Action World Unit :=
  match a.deviceBuffer? with
  | some b => releaseBuffer b
  | none => pure ()

/-! ## Transfers -/

def allocate (id : DeviceId) (bytes : Nat) : Action World DeviceBuffer := do
  let address ← onDevice id (Device.alloc bytes)
  let b : DeviceBuffer := ⟨id, address, bytes⟩
  retainBuffer b
  return b

/-- A fresh device buffer that holds the given bytes.  It is released again if they
cannot be copied. -/
def upload (id : DeviceId) (bytes : Bytes) : Action World DeviceBuffer := do
  let b ← allocate id bytes.size
  (onDevice id (Device.copyin bytes b.address)).onRefusal (releaseBuffer b)
  return b

/-- The whole of a device buffer in a fresh host buffer, after the launches queued
before. -/
def download (b : DeviceBuffer) : Action World HostBuffer := do
  onDevice b.device Device.synchronize
  let host ← HostBuffer.zeroed (← freshKey) b.size
  let bytes ← onDevice b.device (Device.copyout b.address b.size)
  return { host with bytes := bytes }

def toHost (a : Argument) : Action World Argument := do
  let host ← match ← a.buffer with
    | .device b => download b
    | .host _ => do
      let bytes ← a.hostBytes
      pure (HostBuffer.ofBytes (← freshKey) bytes)
  return ← Argument.make a.shape (.host host)

/-- A tensor over a device buffer, which is given back if the shape does not fit. -/
def place (shape : Shape) (b : DeviceBuffer) : Action World Argument :=
  (Action.ofOutcome (Argument.make shape (.device b))).onRefusal (releaseBuffer b)

def allocateAs (id : DeviceId) (bytes : Nat) (shape : Shape) : Action World Argument := do
  place shape (← allocate id bytes)

def uploadAs (id : DeviceId) (bytes : Bytes) (shape : Shape) : Action World Argument := do
  place shape (← upload id bytes)

def sendHost (id : DeviceId) (a : Argument) : Action World Argument := do
  uploadAs id (← a.hostBytes) a.shape

/-- The tensor in a fresh device buffer, in the layout it has.  A tensor that is on
a device goes through the host. -/
def toDevice (id : DeviceId) (a : Argument) : Action World Argument := do
  if a.location = some .device then sendHost id (← toHost a)
  else sendHost id a

def operand (a : Argument) : Outcome Operand := do
  match ← a.buffer with
  | .device b => return ⟨b.address, a.shape⟩
  | .host _ => .refused (.storage (.operandNotOnDevice a.text))

/-- A host tensor has no holders to count. -/
theorem release_of_deviceBuffer?_eq_none {a : Argument} (h : a.deviceBuffer? = none) :
    release a = pure () := by
  unfold release
  rw [h]

end World

end TensorGraph
