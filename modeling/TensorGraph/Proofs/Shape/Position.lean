/-
Row-major positions.

The multi-indices of a tensor, listed in row-major order, stand at the positions
0, 1, 2 and so on.  `indices_getElem?_position` and `position_getElem_indices` say
that `position` and the list of indices undo one another; the first is why a list of
elements in row-major order can be read at an index.
-/
import TensorGraph.Tensor
import Mathlib.Tactic

namespace TensorGraph
namespace Index

/-- Blocks of equal length, one after the other, make one range. -/
theorem range_flatMap_add (n m : Nat) :
    ((List.range n).flatMap fun i => (List.range m).map (i * m + ·)) = List.range (n * m) := by
  induction n with
  | zero => simp
  | succ n ih =>
    rw [List.range_succ, List.flatMap_append, ih, List.flatMap_singleton, Nat.succ_mul,
      List.range_add]

theorem map_position_indices (lens : List Nat) :
    (indices lens).map (position · lens) = List.range lens.prod := by
  induction lens with
  | nil => rfl
  | cons n ns ih =>
    rw [indices_cons, List.map_flatMap, List.prod_cons, ← range_flatMap_add, ← ih]
    refine List.flatMap_congr fun i _ => ?_
    rw [List.map_map, List.map_map]
    rfl

theorem position_getElem_indices {lens : List Nat} {k : Nat} (h : k < (indices lens).length) :
    position (indices lens)[k] lens = k := by
  have hm := congrArg (fun l : List Nat => l[k]?) (map_position_indices lens)
  rw [length_indices] at h
  simpa [h, length_indices] using hm

/-- Two indices within the extents that have one position are the same. -/
theorem position_injective {lens idx jdx : List Nat} (hi : Within idx lens) (hj : Within jdx lens)
    (h : position idx lens = position jdx lens) : idx = jdx := by
  obtain ⟨k, hk, rfl⟩ := List.mem_iff_getElem.mp (mem_indices.mpr hi)
  obtain ⟨l, hl, rfl⟩ := List.mem_iff_getElem.mp (mem_indices.mpr hj)
  rw [position_getElem_indices hk, position_getElem_indices hl] at h
  subst h
  rfl

theorem indices_getElem?_position {lens idx : List Nat} (h : Within idx lens) :
    (indices lens)[position idx lens]? = some idx := by
  have hlt : position idx lens < (indices lens).length := by
    rw [length_indices]
    exact position_lt h
  rw [List.getElem?_eq_getElem hlt]
  exact congrArg some
    (position_injective (mem_indices.mp (List.getElem_mem hlt)) h (position_getElem_indices hlt))

end Index

namespace View

def Agrees (v w : View) : Prop :=
  v.lens = w.lens ∧ ∀ idx, Index.Within idx v.lens → v.read idx = w.read idx

theorem Agrees.refl (v : View) : v.Agrees v := ⟨rfl, fun _ _ => rfl⟩

theorem Agrees.symm {v w : View} (h : v.Agrees w) : w.Agrees v :=
  ⟨h.1.symm, fun idx hi => (h.2 idx (h.1 ▸ hi)).symm⟩

theorem Agrees.trans {u v w : View} (h : u.Agrees v) (h' : v.Agrees w) : u.Agrees w :=
  ⟨h.1.trans h'.1, fun idx hi => (h.2 idx hi).trans (h'.2 idx (h.1 ▸ hi))⟩

/-- Tensors that agree have the same elements in row-major order. -/
theorem Agrees.elements_eq {v w : View} (h : v.Agrees w) : v.elements = w.elements := by
  rw [elements, elements, ← h.1]
  exact List.map_congr_left fun idx hi => h.2 idx (Index.mem_indices.mp hi)

theorem elements_getElem?_position {v : View} {idx : List Nat} (h : Index.Within idx v.lens) :
    v.elements[Index.position idx v.lens]? = some (v.read idx) := by
  rw [elements, List.getElem?_map, Index.indices_getElem?_position h]
  rfl

/-- A tensor listed in row-major order and read again is the same tensor. -/
theorem view_toTensor (v : View) : v.toTensor.view.Agrees v := by
  refine ⟨rfl, fun idx hi => ?_⟩
  show v.elements.getD (Index.position idx v.lens) 0 = v.read idx
  rw [List.getD_eq_getElem?_getD, elements_getElem?_position (v := v) hi]
  rfl

end View
end TensorGraph
