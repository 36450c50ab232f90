/-
Results can be stored.

Elements read from storage are words of the size of their type, and so are the elements
that operators give for such inputs: `storable_denote`.  Numeric operators compute in double
precision in between, where every intermediate result is again a bit pattern.
-/
import TensorGraph.Proofs.Binary.Patterns
import TensorGraph.Proofs.Meaning

namespace TensorGraph
namespace View

def Storable (size : Nat) (v : View) : Prop := ∀ idx, v.read idx < 256 ^ size

theorem storable_ofBytes (s : Shape) (size : Nat) (b : Bytes) :
    (View.ofBytes s size b).Storable size := fun _ => Bytes.wordAt_lt _ _ _

variable {num : Arithmetic} {size : Nat} {v w : View}

theorem Storable.combine {f : Nat → Nat → Nat}
    (hf : ∀ {a b}, a < 256 ^ size → b < 256 ^ size → f a b < 256 ^ size) (hv : v.Storable size)
    (hw : w.Storable size) : (v.combine f w).Storable size :=
  fun idx => hf (hv idx) (hw idx)

theorem Storable.foldl_combine {f : Nat → Nat → Nat}
    (hf : ∀ {a b}, a < 256 ^ size → b < 256 ^ size → f a b < 256 ^ size) {ws : List View}
    (hv : v.Storable size) (hw : ∀ w ∈ ws, w.Storable size) :
    (ws.foldl (View.combine f) v).Storable size :=
  List.foldlRecOn ws (View.combine f) hv fun _ hu w hm => hu.combine hf (hw w hm)

theorem isPattern_negativeZero : Format.double.IsPattern Format.double.negativeZero :=
  Format.isPattern_zero .double true

theorem Storable.matmul (hnum : num.Closed size) (hv : v.Storable size) (hw : w.Storable size)
    (factor : Nat) : (View.matmul num factor v w).Storable size := by
  intro idx
  have hrow : ∀ row column, Format.double.IsPattern (rowByColumn num v w row column) := by
    intro row column
    refine List.foldlRecOn _ _ isPattern_negativeZero fun acc hacc l _ => ?_
    exact Format.isPattern_add hacc
      (Format.isPattern_mul (hnum.widen (hv _)) (hnum.widen (hw _)) (by decide)) (by decide)
  exact hnum.narrow (Format.isPattern_mul (hrow _ _)
    (Format.isPattern_convert .single (by decide) factor) (by decide))

theorem isPattern_largest (hnum : num.Closed size) {lane : List Nat}
    (h : ∀ x ∈ lane, x < 256 ^ size) : Format.double.IsPattern (largest num lane) :=
  List.foldlRecOn lane _ (Format.isPattern_infinity .double true)
    fun _ hm x hx => Format.isPattern_maximum hm (hnum.widen (h x hx))

theorem isPattern_shiftedExp (hnum : num.Closed size) {m x : Nat}
    (hm : Format.double.IsPattern m) (hx : x < 256 ^ size) :
    Format.double.IsPattern (Kernel.shiftedExp num m x) :=
  Elementary.isPattern_double .exp (Format.isPattern_sub (hnum.widen hx) hm (by decide))

theorem isPattern_total (hnum : num.Closed size) {lane : List Nat}
    (h : ∀ x ∈ lane, x < 256 ^ size) : Format.double.IsPattern (total num lane) :=
  List.foldlRecOn lane _ isPattern_negativeZero fun _ hs x hx =>
    Format.isPattern_add hs (isPattern_shiftedExp hnum (isPattern_largest hnum h) (h x hx))
      (by decide)

theorem Storable.softmax (hnum : num.Closed size) (hv : v.Storable size) (axis : Nat) :
    (View.softmax num axis v).Storable size := by
  intro idx
  have hlane : ∀ x ∈ v.lane axis idx, x < 256 ^ size := by
    intro x hx
    obtain ⟨j, _, rfl⟩ := List.mem_map.mp hx
    exact hv _
  exact hnum.narrow (Format.isPattern_div
    (isPattern_shiftedExp hnum (isPattern_largest hnum hlane) (hv idx))
    (isPattern_total hnum hlane) (by decide))

theorem Storable.convolved (hnum : num.Closed size) (hv : v.Storable size)
    (hw : w.Storable size) (c : Convolution) (lens : List Nat) :
    (View.convolved num c lens v w).Storable size := by
  intro idx
  refine hnum.narrow ?_
  refine List.foldlRecOn _ _ (Format.isPattern_zero .double false) fun acc hacc channel _ => ?_
  refine List.foldlRecOn _ _ hacc fun acc hacc ky _ => ?_
  refine List.foldlRecOn _ _ hacc fun acc hacc kx _ => ?_
  unfold addTap
  dsimp only
  split
  · exact Format.isPattern_add hacc
      (Format.isPattern_mul (hnum.widen (hv _)) (hnum.widen (hw _)) (by decide)) (by decide)
  · exact hacc

end View

namespace Operator

/-- What a numeric operator gives for stored elements can be stored. -/
theorem storable_numeric {op : Operator} {num : Arithmetic} {size : Nat} (hnum : num.Closed size)
    {lens : List Nat} {views : List View} (hs : ∀ v ∈ views, v.Storable size) {v : View}
    (h : op.numeric num lens views = some v) : v.Storable size := by
  unfold numeric at h
  split at h
  · next fn x =>
    cases h
    exact fun idx => hnum.apply fn (hs x List.mem_cons_self idx)
  · next x y =>
    cases h
    exact (hs x List.mem_cons_self).combine hnum.add (hs y (by simp))
  · next x y rest =>
    cases h
    exact (hs x List.mem_cons_self).foldl_combine hnum.mul
      fun w hw => hs w (List.mem_cons_of_mem _ hw)
  · next factor x y =>
    cases h
    exact (hs x List.mem_cons_self).matmul hnum (hs y (by simp)) factor
  · next axis x =>
    cases h
    exact (hs x List.mem_cons_self).softmax hnum axis
  · next c x w =>
    cases h
    exact (hs x List.mem_cons_self).convolved hnum (hs w (by simp)) c lens
  · cases h

/-- What a computing operator gives for stored elements of its type can be stored. -/
theorem storable_denote {op : Operator} {shapes : List Shape} {t : Shape} {views : List View}
    (h : Infers op shapes t) (hc : op.isCompute = true)
    (hv : View.Shaped shapes views) (hs : ∀ v ∈ views, v.Storable t.dtype.size) {v : View}
    (hd : op.denote t views = some v) :
    v.Storable t.dtype.size := by
  by_cases hn : op = .contiguous
  · subst hn
    cases h with
    | contiguous ht =>
      obtain _ | ⟨-, _ | _⟩ := hv
      cases hd
      exact hs _ List.mem_cons_self
  · obtain ⟨num, hnum⟩ := exists_arithmetic (h.isFloat hc hn).1
    rw [denote_of_arithmetic hc hn hnum] at hd
    exact storable_numeric (Dtype.closed_arithmetic hnum) hs hd

end Operator
end TensorGraph
