/-
Multi-indices of a tensor and where they lie in storage.

`indices` lists the multi-indices of a tensor in row-major order, the last axis
fastest; everything that walks over a tensor walks over this list.  The main
statements are `mem_indices`, which says that an index is listed exactly when it
has one coordinate below each extent, and `length_indices`.
-/
import TensorGraph.Shape.Layout

-- Products are those of the core library, whatever else is imported.
attribute [local instance (2000)] One.ofOfNat1

namespace TensorGraph
namespace Index

/-- The multi-indices within the given extents, in row-major order. -/
def indices : List Nat → List (List Nat)
  | [] => [[]]
  | n :: ns => (List.range n).flatMap fun i => (indices ns).map (i :: ·)

def Within : List Nat → List Nat → Prop
  | [], [] => True
  | i :: is, n :: ns => i < n ∧ Within is ns
  | _, _ => False

instance decidableWithin : (idx lens : List Nat) → Decidable (Within idx lens)
  | [], [] => isTrue trivial
  | [], _ :: _ => isFalse id
  | _ :: _, [] => isFalse id
  | _ :: is, _ :: ns =>
    have := decidableWithin is ns
    inferInstanceAs (Decidable (_ ∧ _))

/-- The offset of an index, in elements: coordinates times strides, summed. -/
def offset : List Nat → List Axis → Nat
  | i :: is, a :: as => i * a.stride + offset is as
  | _, _ => 0

/-- The place of an index in the row-major order of the extents. -/
def position : List Nat → List Nat → Nat
  | i :: is, _ :: ns => i * ns.prod + position is ns
  | _, _ => 0

theorem indices_cons (n : Nat) (ns : List Nat) :
    indices (n :: ns) = (List.range n).flatMap fun i => (indices ns).map (i :: ·) := rfl

theorem offset_cons (i : Nat) (is : List Nat) (a : Axis) (as : List Axis) :
    offset (i :: is) (a :: as) = i * a.stride + offset is as := rfl

theorem position_cons (i n : Nat) (is ns : List Nat) :
    position (i :: is) (n :: ns) = i * ns.prod + position is ns := rfl

theorem mem_indices {idx lens : List Nat} : idx ∈ indices lens ↔ Within idx lens := by
  induction lens generalizing idx with
  | nil =>
    cases idx with
    | nil => exact ⟨fun _ => trivial, fun _ => List.mem_singleton.mpr rfl⟩
    | cons i is => exact ⟨fun h => (nomatch List.mem_singleton.mp h), False.elim⟩
  | cons n ns ih =>
    rw [indices_cons, List.mem_flatMap]
    constructor
    · rintro ⟨i, hi, h⟩
      obtain ⟨is, his, rfl⟩ := List.mem_map.mp h
      exact ⟨List.mem_range.mp hi, ih.mp his⟩
    · cases idx with
      | nil => exact False.elim
      | cons i is =>
        rintro ⟨hi, his⟩
        exact ⟨i, List.mem_range.mpr hi, List.mem_map.mpr ⟨is, ih.mpr his, rfl⟩⟩

theorem length_indices (lens : List Nat) : (indices lens).length = lens.prod := by
  induction lens with
  | nil => rfl
  | cons n ns ih =>
    rw [indices_cons, List.length_flatMap, List.prod_cons]
    simp only [List.length_map, ih, List.map_const', List.length_range, List.sum_replicate_nat]

theorem length_of_within {idx lens : List Nat} (h : Within idx lens) :
    idx.length = lens.length := by
  induction lens generalizing idx with
  | nil =>
    cases idx with
    | nil => rfl
    | cons => exact h.elim
  | cons n ns ih =>
    cases idx with
    | nil => exact h.elim
    | cons i is => exact congrArg (· + 1) (ih h.2)

/-- An index within the extents has a place below their product. -/
theorem position_lt {idx lens : List Nat} (h : Within idx lens) :
    position idx lens < lens.prod := by
  induction lens generalizing idx with
  | nil =>
    cases idx with
    | nil => exact Nat.one_pos
    | cons => exact h.elim
  | cons n ns ih =>
    cases idx with
    | nil => exact h.elim
    | cons i is =>
      rw [position_cons, List.prod_cons]
      have hp := ih h.2
      calc i * ns.prod + position is ns < i * ns.prod + ns.prod := Nat.add_lt_add_left hp _
        _ = (i + 1) * ns.prod := by rw [Nat.add_mul, Nat.one_mul]
        _ ≤ n * ns.prod := Nat.mul_le_mul_right _ h.1

end Index
end TensorGraph
