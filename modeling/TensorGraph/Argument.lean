/-
Runtime tensors.

An argument is a shape with storage, on the host or on a device, or with none yet.
`Argument.make` is the only way to put a shape over given storage, and it checks
that the storage is large enough for every offset the strides reach, so a reader
of an argument never has to.  `viewAs` reads a host argument as a logical tensor.
-/
import TensorGraph.Literal
import TensorGraph.Tensor

namespace TensorGraph

structure Argument where
  shape : Shape
  storage : Option Storage
  deriving Repr

namespace Argument

/-- A tensor over given storage.  A host address has to be aligned for the
element type, and not null. -/
def make (shape : Shape) (storage : Storage) : Outcome Argument := do
  Outcome.require ((← shape.storageBytes) ≤ storage.size)
    (.storage (.tooSmall storage.size shape))
  match storage with
  | .host buffer =>
    Outcome.require (buffer.address ≠ 0 ∧ buffer.address % shape.dtype.size = 0)
      (.storage (.unaligned buffer.address shape.dtype))
  | .device _ => pure ()
  return ⟨shape, some storage⟩

def absent (shape : Shape) : Argument := ⟨shape, none⟩

def ofLiteral (l : Literal) : Argument := ⟨l.shape, some (.host l.buffer)⟩

def ofElements (key : Nat) (shape : Shape) (dtype : Dtype) (elements : List Nat) :
    Outcome Argument := do
  return ofLiteral (← Literal.ofElements key shape dtype elements)

def ofTensor (key : Nat) (dtype : Dtype) (t : Tensor) : Option Argument := do
  let shape ← Shape.standard dtype t.lens
  some ⟨shape, some (.host (← HostBuffer.ofElements key dtype.size t.elements))⟩

def ofFile (key : Nat) (shape : Shape) (contents : Option Bytes) : Outcome Argument :=
  match contents with
  | some bytes => make shape (.host (.ofBytes key bytes))
  | none => .refused (.io .notFound)

def isAbsent (a : Argument) : Bool := a.storage.isNone

def location (a : Argument) : Option Location := a.storage.map Storage.location

def deviceBuffer? (a : Argument) : Option DeviceBuffer := a.storage.bind Storage.deviceBuffer?

def text (a : Argument) : String :=
  match a.storage with
  | some s => s!"<Argument {a.shape.text} on {s.location.text}>"
  | none => s!"<Argument {a.shape.text} absent>"

def buffer (a : Argument) : Outcome Storage :=
  match a.storage with
  | some s => .value s
  | none => .refused (.storage (.absent a.shape))

def hostBuffer (a : Argument) : Outcome HostBuffer := do
  match ← a.buffer with
  | .host b => return b
  | .device _ => .refused (.storage (.onDevice a.shape))

/-- Whether two arguments share storage; one without storage shares nothing. -/
def sharesStorage (a b : Argument) : Bool :=
  match a.storage, b.storage with
  | some s, some t => s.same t
  | _, _ => false

def withShape (a : Argument) (shape : Shape) : Outcome Argument :=
  match a.storage with
  | some s => make shape s
  | none => .value (absent shape)

def hostBytes (a : Argument) : Outcome Bytes := do
  let b ← a.hostBuffer
  return b.bytes.extract 0 (← a.shape.storageBytes)

def viewAs (a : Argument) (dtype : Dtype) : Outcome View := do
  Outcome.require (dtype = a.shape.dtype) (.type (.cannotView a.shape.dtype dtype))
  let b ← a.hostBuffer
  if a.shape.isAddressable dtype.size then
    return View.ofBytes a.shape dtype.size b.bytes
  else .halted

/-- The elements of a host argument in row-major order, if memory holds them. -/
def elementsAs (a : Argument) (dtype : Dtype) : Outcome (List Nat) := do
  let v ← a.viewAs dtype
  return (← v.held dtype.size).elements

theorem ofTensor_eq_some {key : Nat} {dtype : Dtype} {t : Tensor} {a : Argument} :
    ofTensor key dtype t = some a ↔ ∃ shape, Shape.standard dtype t.lens = some shape ∧
      (t.elements.length * dtype.size + 7) / 8 * 8 ≤ Word.maxSigned ∧
        a = ⟨shape, some (.host (.ofBytes key (Bytes.ofWords dtype.size t.elements)))⟩ := by
  unfold ofTensor
  simp only [Option.bind_eq_bind, Option.bind_eq_some_iff, HostBuffer.ofElements_eq_some,
    Option.some.injEq]
  refine exists_congr fun shape => and_congr_right fun _ => ?_
  constructor
  · rintro ⟨b, ⟨h, rfl⟩, rfl⟩
    exact ⟨h, rfl⟩
  · rintro ⟨h, rfl⟩
    exact ⟨_, ⟨h, rfl⟩, rfl⟩

theorem shape_of_make {shape : Shape} {storage : Storage} {a : Argument}
    (h : make shape storage = .value a) : a = ⟨shape, some storage⟩ := by
  unfold make at h
  obtain ⟨n, _, h⟩ := Outcome.bind_eq_value.mp h
  obtain ⟨_, _, h⟩ := Outcome.bind_eq_value.mp h
  cases storage with
  | host b =>
    obtain ⟨_, _, h⟩ := Outcome.bind_eq_value.mp h
    cases h
    rfl
  | device b =>
    cases h
    rfl

end Argument

end TensorGraph
