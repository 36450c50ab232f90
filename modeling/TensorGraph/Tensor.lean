/-
Logical tensors.

A `View` says which element is at each multi-index; how the elements are laid out
is behind it.  A `Tensor` is the list of a view's elements in row-major order.
`View.elements` leads from the first to the second, and reading a tensor at the
row-major position of an index leads back.
-/
import TensorGraph.Shape.Index
import TensorGraph.Storage.Bytes

-- Products are those of the core library, whatever else is imported.
attribute [local instance (2000)] One.ofOfNat1

namespace TensorGraph

/-- The extents of a tensor and the element at each multi-index. -/
structure View where
  lens : List Nat
  read : List Nat → Nat

/-- The extents of a tensor and its elements in row-major order. -/
structure Tensor where
  lens : List Nat
  elements : List Nat
  deriving DecidableEq, Repr

namespace View

def ofBytes (shape : Shape) (size : Nat) (bytes : Bytes) : View :=
  ⟨shape.lens, fun idx => Bytes.wordAt bytes (Index.offset idx shape.axes * size) size⟩

def elements (v : View) : List Nat := (Index.indices v.lens).map v.read

def toTensor (v : View) : Tensor := ⟨v.lens, v.elements⟩

/-- Whether a list of the elements can be held in memory, `size` bytes each. -/
def isListable (size : Nat) (lens : List Nat) : Bool := lens.prod * size ≤ Word.maxSigned

def held (size : Nat) (v : View) : Option View := if isListable size v.lens then some v else none

def at? (v : View) (idx : List Nat) : Option Nat :=
  if Index.Within idx v.lens then some (v.read idx) else none

def map (f : Nat → Nat) (v : View) : View := ⟨v.lens, fun idx => f (v.read idx)⟩

theorem length_elements (v : View) : v.elements.length = v.lens.prod := by
  rw [elements, List.length_map, Index.length_indices]

theorem held_of_isListable {size : Nat} {v : View} (h : isListable size v.lens = true) :
    v.held size = some v := if_pos h

theorem held_eq_some {size : Nat} {v u : View} :
    v.held size = some u ↔ isListable size v.lens = true ∧ u = v := by
  unfold held
  split
  · next h => simp [h, eq_comm]
  · next h => simp [h]

theorem at?_of_within {v : View} {idx : List Nat} (h : Index.Within idx v.lens) :
    v.at? idx = some (v.read idx) := if_pos h

end View

namespace Tensor

def view (t : Tensor) : View := ⟨t.lens, fun idx => t.elements.getD (Index.position idx t.lens) 0⟩

def Complete (t : Tensor) : Prop := t.elements.length = t.lens.prod

end Tensor

theorem View.complete_toTensor (v : View) : v.toTensor.Complete := v.length_elements

end TensorGraph
