/-
Shapes of tensors.

A shape is an element type and, for every axis, an extent and a stride.  Keeping
the two numbers of an axis together makes it impossible to state a shape with
more extents than strides, so reordering the axes is one operation on one list.
-/
import TensorGraph.Dtype
import TensorGraph.Text.Listing

namespace TensorGraph

/-- One axis of a tensor: how many positions it has, and how many elements of
storage lie between two neighbouring positions. -/
structure Axis where
  extent : Nat
  stride : Nat
  deriving DecidableEq, Repr

structure Shape where
  dtype : Dtype
  axes : List Axis
  deriving DecidableEq, Repr

namespace Shape

def lens (s : Shape) : List Nat := s.axes.map Axis.extent

def strides (s : Shape) : List Nat := s.axes.map Axis.stride

def rank (s : Shape) : Nat := s.axes.length

/-- The shape with the given extents and strides, as far as both lists go. -/
def ofLists (dtype : Dtype) (lens strides : List Nat) : Shape :=
  ⟨dtype, List.zipWith Axis.mk lens strides⟩

def extent? (s : Shape) (axis : Nat) : Option Nat := (s.axes[axis]?).map Axis.extent

def text (s : Shape) : String :=
  s.dtype.text ++ ", \x7b" ++ Text.numbers s.lens ++ "\x7d, \x7b" ++ Text.numbers s.strides ++ "\x7d"

theorem length_lens (s : Shape) : s.lens.length = s.rank := List.length_map _

end Shape

end TensorGraph
