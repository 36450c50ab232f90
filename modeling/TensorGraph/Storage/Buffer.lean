/-
Buffers that back tensors.

A host buffer is immutable and is told apart from others with the same bytes by a
key; two tensors share storage when they share that key.  A device buffer is a
handle: its bytes live in the memory of its device, and since a device hands out
no address twice, the device and the address identify it.
-/
import TensorGraph.Storage.Bytes
import TensorGraph.Text.Listing
import TensorGraph.Word

namespace TensorGraph

abbrev DeviceId := Nat

inductive Location where
  | host
  | device
  deriving DecidableEq, Repr

def Location.text : Location → String
  | host => "Host"
  | device => "Device"

/-- Bytes in host memory.  The address matters only for being null and for its
alignment. -/
structure HostBuffer where
  key : Nat
  address : Nat
  bytes : Bytes
  deriving DecidableEq, Repr

structure DeviceBuffer where
  device : DeviceId
  address : Nat
  size : Nat
  deriving DecidableEq, Repr

inductive Storage where
  | host (buffer : HostBuffer)
  | device (buffer : DeviceBuffer)
  deriving DecidableEq, Repr

def bufferAlignment : Nat := 8

def deviceName : String := "sim"

namespace HostBuffer

def ofBytes (key : Nat) (bytes : Bytes) : HostBuffer := ⟨key, bufferAlignment, bytes⟩

/-- A buffer of zeros, if a host can hold it: memory comes in words of eight
bytes. -/
def zeroed (key size : Nat) : Option HostBuffer :=
  if (size + 7) / 8 * 8 ≤ Word.maxSigned then some (ofBytes key (Bytes.zeros size)) else none

def ofElements (key size : Nat) (elements : List Nat) : Option HostBuffer := do
  let b ← zeroed key (elements.length * size)
  some { b with bytes := Bytes.ofWords size elements }

def size (b : HostBuffer) : Nat := b.bytes.size

def text (b : HostBuffer) : String := s!"<HostBuffer {b.size} bytes>"

theorem zeroed_eq_some {key size : Nat} {b : HostBuffer} :
    zeroed key size = some b ↔
      (size + 7) / 8 * 8 ≤ Word.maxSigned ∧ b = ofBytes key (Bytes.zeros size) := by
  unfold zeroed
  split
  · next h => simp [h, eq_comm]
  · next h => simp [h]

theorem ofElements_eq_some {key size : Nat} {elements : List Nat} {b : HostBuffer} :
    ofElements key size elements = some b ↔
      (elements.length * size + 7) / 8 * 8 ≤ Word.maxSigned ∧
        b = ofBytes key (Bytes.ofWords size elements) := by
  unfold ofElements zeroed
  split
  · next h => simp [h, ofBytes, eq_comm]
  · next h => simp [h]

end HostBuffer

namespace DeviceBuffer

def text (b : DeviceBuffer) : String :=
  "<DeviceBuffer " ++ Text.address b.address ++ s!" {b.size} bytes on {deviceName}>"

end DeviceBuffer

namespace Storage

def size : Storage → Nat
  | host b => b.size
  | device b => b.size

def location : Storage → Location
  | host _ => .host
  | device _ => .device

def deviceBuffer? : Storage → Option DeviceBuffer
  | host _ => none
  | device b => some b

def same : Storage → Storage → Bool
  | host a, host b => a.key = b.key
  | device a, device b => a.device = b.device && a.address = b.address
  | _, _ => false

def text : Storage → String
  | host b => b.text
  | device b => b.text

theorem same_refl (s : Storage) : s.same s = true := by
  cases s <;> simp [same]

end Storage

end TensorGraph
