/-
Tensors that bytes hold.

A view of an operand reads the same bytes under its own shape, `denote_view`; a tensor
written in row-major order is read back under a row-major shape, `ofBytes_ofWords`.  A shape
that can be addressed has a size in bytes and extents that are words.  As strides may be 0,
memory need not hold a list of its elements.
-/
import TensorGraph.Proofs.Kernel.Storable
import TensorGraph.Proofs.Shape.Permute
import TensorGraph.Proofs.Storage.Words

namespace TensorGraph

/-! ## Addressable shapes -/

theorem Dtype.size_le (d : Dtype) : d.size ≤ 8 := by
  cases d <;> decide

namespace Shape

variable {s t : Shape}

/-- Whether every element of the shape can be addressed. -/
def Addressable (s : Shape) : Prop := s.isAddressable s.dtype.size = true

theorem Addressable.bounds (h : s.Addressable) :
    (s.lens.filter (· ≠ 0)).prod ≤ Word.maxSigned ∧
      (s.axes.map Axis.reach).sum * s.dtype.size ≤ Word.maxSigned := by
  unfold Addressable isAddressable at h
  rw [Bool.and_eq_true, Bool.and_eq_true, decide_eq_true_iff, decide_eq_true_iff] at h
  exact ⟨h.1.2, h.2⟩

theorem Addressable.storageBytes (h : s.Addressable) (hp : s.Populated) :
    s.storageBytes = some (s.space * s.dtype.size) := by
  refine (storageBytes_eq_some hp).mpr ⟨rfl, ?_⟩
  have hreach := h.bounds.2
  have hsize := Dtype.size_le s.dtype
  have hmax : Word.maxSigned + 8 ≤ Word.maxUnsigned := by decide
  rw [space, Nat.add_mul, Nat.one_mul]
  omega

theorem Addressable.isCountable (h : s.Addressable) : View.isCountable s.lens = true :=
  decide_eq_true h.bounds.1

/-- The extents of a populated shape are all factors of a product that is a signed word. -/
theorem Addressable.extent_le (h : s.Addressable) (hp : s.Populated) {n : Nat} (hn : n ∈ s.lens) :
    n ≤ Word.maxSigned := by
  have hfilter : s.lens.filter (· ≠ 0) = s.lens :=
    List.filter_eq_self.mpr fun m hm => decide_eq_true (Nat.pos_iff_ne_zero.mp (hp m hm))
  have hprod := h.bounds.1
  rw [hfilter] at hprod
  have hpos : 0 < s.lens.prod := List.prod_pos hp
  exact (Nat.le_of_dvd hpos (List.dvd_prod hn)).trans hprod

/-- Whether memory holds a list of as many elements as the shape has. -/
def Listable (s : Shape) : Prop := View.isListable s.dtype.size s.lens = true

/-- Whether memory holds a buffer of as many elements: it comes in words of eight bytes. -/
def Holdable (s : Shape) : Prop := (s.lens.prod * s.dtype.size + 7) / 8 * 8 ≤ Word.maxSigned

instance (s : Shape) : Decidable s.Listable := inferInstanceAs (Decidable (_ = _))

instance (s : Shape) : Decidable s.Holdable := inferInstanceAs (Decidable (_ ≤ _))

theorem Holdable.listable (h : s.Holdable) : s.Listable := by
  unfold Holdable at h
  exact decide_eq_true (by omega)

theorem Holdable.isCountable (h : s.Holdable) (hp : s.Populated) :
    View.isCountable s.lens = true := by
  have hfilter : s.lens.filter (· ≠ 0) = s.lens :=
    List.filter_eq_self.mpr fun n hn => decide_eq_true (Nat.pos_iff_ne_zero.mp (hp n hn))
  have hle : s.lens.prod ≤ s.lens.prod * s.dtype.size :=
    Nat.le_mul_of_pos_right _ s.dtype.size_pos
  unfold Holdable at h
  unfold View.isCountable
  rw [hfilter]
  exact decide_eq_true (by omega)

/-- A row-major shape has no offset that no element is at. -/
theorem holdable_of_space (ht : standard s.dtype s.lens = some s) (hp : s.Populated)
    (h : (s.space * s.dtype.size + 7) / 8 * 8 ≤ Word.maxSigned) : s.Holdable := by
  rw [space_of_standard ht hp] at h
  exact h

end Shape

/-! ## Views -/

namespace View

variable {s t : Shape} {permutation : List Nat} {b : Bytes}

theorem ofBytes_reshaped (hs : s.isStandard = some true) (ht : t.isStandard = some true)
    (hprod : t.lens.prod = s.lens.prod) (size : Nat) (b : Bytes) :
    (View.ofBytes t size b).Agrees ((View.ofBytes s size b).reshaped t.lens) := by
  refine ⟨rfl, fun idx hi => ?_⟩
  have hlt : Index.position idx t.lens < (Index.indices s.lens).length := by
    rw [Index.length_indices, ← hprod]
    exact Index.position_lt hi
  have hin := Index.mem_indices.mp (List.getElem_mem hlt)
  show Bytes.wordAt b (Index.offset idx t.axes * size) size =
    (View.ofBytes s size b).elements.getD (Index.position idx t.lens) 0
  rw [View.elements, List.getD_eq_getElem?_getD, List.getElem?_map,
    show (View.ofBytes s size b).lens = s.lens from rfl, List.getElem?_eq_getElem hlt,
    Shape.offset_of_isStandard ht hi]
  show _ = Bytes.wordAt b (Index.offset (Index.indices s.lens)[Index.position idx t.lens] s.axes
    * size) size
  rw [Shape.offset_of_isStandard hs hin, Index.position_getElem_indices hlt]

theorem ofBytes_transposed (hp : Operator.isPermutation s.rank permutation = true)
    (h : s.permute permutation = some t) (size : Nat) (b : Bytes) :
    (View.ofBytes t size b).Agrees ((View.ofBytes s size b).transposed permutation) := by
  refine ⟨Shape.lens_permute h, fun idx hi => ?_⟩
  show Bytes.wordAt b (Index.offset idx t.axes * size) size = _
  rw [Shape.offset_permute hp h hi]
  rfl

/-- A tensor in row-major order is read back under a row-major shape. -/
theorem ofBytes_ofWords {v : View} (h : t.isStandard = some true) (hl : v.lens = t.lens)
    (hs : v.Storable t.dtype.size) :
    (View.ofBytes t t.dtype.size (Bytes.ofWords t.dtype.size v.elements)).Agrees v := by
  refine ⟨hl.symm, fun idx hi => ?_⟩
  have hi' : Index.Within idx v.lens := by
    rw [hl]
    exact hi
  obtain ⟨hlt, hget⟩ := List.getElem?_eq_some_iff.mp (elements_getElem?_position hi')
  show Bytes.wordAt _ (Index.offset idx t.axes * t.dtype.size) t.dtype.size = v.read idx
  rw [Shape.offset_of_isStandard h hi, ← hl, Bytes.wordAt_ofWords hlt, hget,
    Nat.mod_eq_of_lt (hs idx)]

end View

namespace Operator

variable {op : Operator} {s t : Shape}

/-- A view of an operand reads the bytes of the operand as what it denotes, and spans as many
of them. -/
theorem denote_view (h : Infers op [s] t) (hv : op.isView = true) (hp : s.Populated)
    (hlaid : Program.isReshape op = true → s.isStandard = some true) (b : Bytes) :
    ∃ v, op.denote t [View.ofBytes s s.dtype.size b] = some v ∧
      (View.ofBytes t t.dtype.size b).Agrees v ∧ t.dtype = s.dtype ∧ t.space = s.space := by
  cases h with
  | reshape hresolves ht =>
    have hs := hlaid rfl
    have hstandard := Shape.isStandard_of_standard ht
    have hprod := hresolves.prod_eq
    have hlens := Shape.lens_of_standard ht
    have hd := Shape.dtype_of_standard ht
    rw [← hlens] at hprod
    have hpt : t.Populated := by
      intro n hn
      refine Nat.pos_of_ne_zero fun hzero => ?_
      have hall : t.lens.prod = 0 := List.prod_eq_zero (hzero ▸ hn)
      have hpos : 0 < s.lens.prod := List.prod_pos hp
      omega
    refine ⟨_, rfl, ?_, hd, ?_⟩
    · rw [hd]
      exact View.ofBytes_reshaped hs hstandard hprod _ b
    · rw [Shape.space_of_isStandard hstandard hpt, Shape.space_of_isStandard hs hp, hprod]
  | transpose hperm ht =>
    have hd := (Shape.permute_eq_some.mp ht).1
    refine ⟨_, rfl, ?_, hd, Shape.space_permute hperm ht⟩
    rw [hd]
    exact View.ofBytes_transposed hperm ht _ b
  | _ => cases hv

theorem agrees_of_isView {u v : View} {b : Bytes} (h : Infers op [s] t) (hv : op.isView = true)
    (hp : s.Populated) (hlaid : Program.isReshape op = true → s.isStandard = some true)
    (hd : op.denote t [u] = some v) (hb : (View.ofBytes s s.dtype.size b).Agrees u) :
    (View.ofBytes t t.dtype.size b).Agrees v := by
  obtain ⟨v', hv', hagrees, -, -⟩ := denote_view h hv hp hlaid b
  obtain ⟨v'', hv'', hagrees'⟩ := denote_congr h (.cons rfl .nil) (.cons hb .nil) hv'
  rw [hd] at hv''
  cases hv''
  exact hagrees.trans hagrees'

/-- What computing operators give is row-major. -/
theorem Infers.isStandard {shapes : List Shape} (h : Infers op shapes t)
    (hc : op.isCompute = true) : Shape.standard t.dtype t.lens = some t := by
  have hself : ∀ {d : Dtype} {lens : List Nat}, Shape.standard d lens = some t →
      Shape.standard t.dtype t.lens = some t := fun ht => by
    rw [Shape.dtype_of_standard ht, Shape.lens_of_standard ht]
    exact ht
  cases h with
  | elementary fn hf ht => exact hself ht
  | add hf hd hl ht => exact hself ht
  | mul hf hs ht => exact hself ht
  | gemm factor hf hd ha hb ht => exact hself ht
  | softmax hf ha ht => exact hself ht
  | convolution hf hd hx hw hrows hcolumns ht => exact hself ht
  | contiguous ht => exact hself ht
  | _ => cases hc

end Operator
end TensorGraph
