/-
Axes in another order.

Axis `d` of a permuted shape is axis `permutation[d]` of the shape it was made from, so the
coordinate of an index on axis `d` is a coordinate on axis `permutation[d]` there.
`unpermute` puts the coordinates back.  The statement this module exists for is
`offset_permute`: both shapes find an element at the same place of the storage they share.
-/
import TensorGraph.Operator.Infer
import TensorGraph.Proofs.Shape.Span

namespace TensorGraph

namespace Index

/-- The coordinates of an index of permuted axes, in the order the axes had before. -/
def unpermute (permutation idx : List Nat) : List Nat :=
  (List.range permutation.length).map fun p => idx.getD (permutation.idxOf p) 0

theorem length_unpermute (permutation idx : List Nat) :
    (unpermute permutation idx).length = permutation.length := by
  rw [unpermute, List.length_map, List.length_range]

theorem getD_unpermute {permutation idx : List Nat} (hnd : permutation.Nodup) {d : Nat}
    (hd : d < permutation.length) (hlt : permutation[d] < permutation.length) :
    (unpermute permutation idx).getD permutation[d] 0 = idx.getD d 0 := by
  rw [unpermute, List.getD_eq_getElem?_getD, List.getElem?_map, List.getElem?_range hlt,
    Option.map_some, Option.getD_some, List.Nodup.idxOf_getElem hnd d hd]

theorem offset_eq_sum {idx : List Nat} {axes : List Axis} (h : idx.length = axes.length) :
    offset idx axes =
      ((List.range axes.length).map fun k => idx.getD k 0 * (axes.getD k ⟨0, 0⟩).stride).sum := by
  induction axes generalizing idx with
  | nil =>
    cases idx with
    | nil => rfl
    | cons => cases h
  | cons a as ih =>
    cases idx with
    | nil => cases h
    | cons i is =>
      rw [offset_cons, ih (Nat.succ.inj h), List.length_cons, List.range_succ_eq_map,
        List.map_cons, List.sum_cons, List.map_map]
      rfl

theorem within_iff_getD {idx lens : List Nat} :
    Within idx lens ↔
      idx.length = lens.length ∧ ∀ k, k < lens.length → idx.getD k 0 < lens.getD k 0 := by
  induction lens generalizing idx with
  | nil =>
    cases idx with
    | nil => simp [Within]
    | cons => simp [Within]
  | cons n ns ih =>
    cases idx with
    | nil => simp [Within]
    | cons i is =>
      show i < n ∧ Within is ns ↔ _
      rw [ih]
      constructor
      · rintro ⟨hi, hl, hk⟩
        refine ⟨congrArg (· + 1) hl, fun k hlt => ?_⟩
        cases k with
        | zero => exact hi
        | succ k => exact hk k (Nat.lt_of_succ_lt_succ hlt)
      · rintro ⟨hl, hk⟩
        refine ⟨hk 0 (Nat.zero_lt_succ _), Nat.succ.inj hl, fun k hlt => ?_⟩
        exact hk (k + 1) (Nat.succ_lt_succ hlt)

end Index

namespace Operator

theorem perm_range_of_isPermutation {rank : Nat} {permutation : List Nat}
    (h : isPermutation rank permutation = true) : (List.range rank).Perm permutation := by
  unfold isPermutation at h
  rw [Bool.and_eq_true, decide_eq_true_eq, List.all_eq_true] at h
  obtain ⟨hl, hall⟩ := h
  have hsub : (List.range rank).Subperm permutation :=
    List.nodup_range.subperm fun i hi => by simpa using hall i hi
  exact hsub.perm_of_length_le (by rw [hl, List.length_range])

end Operator

namespace Shape

variable {s t : Shape} {permutation : List Nat}

def axisAt (s : Shape) (p : Nat) : Axis := s.axes.getD p ⟨0, 0⟩

theorem map_axisAt_range (s : Shape) : (List.range s.rank).map s.axisAt = s.axes := by
  refine List.ext_getElem? fun k => ?_
  rw [List.getElem?_map]
  by_cases hk : k < s.axes.length
  · rw [List.getElem?_range (show k < s.rank from hk), Option.map_some, axisAt,
      List.getD_eq_getElem?_getD, List.getElem?_eq_getElem hk, Option.getD_some]
  · rw [List.getElem?_eq_none (by rw [List.length_range]; exact Nat.not_lt.mp hk),
      List.getElem?_eq_none (Nat.not_lt.mp hk)]
    rfl

theorem axes_of_permute (h : s.permute permutation = some t) :
    t.axes = permutation.map s.axisAt := by
  have hall : ∀ (ps : List Nat) (axes : List Axis),
      (ps.mapM fun p => s.axes[p]?) = some axes → axes = ps.map s.axisAt := by
    intro ps
    induction ps with
    | nil =>
      intro axes h
      cases h
      rfl
    | cons p ps ih =>
      intro axes h
      rw [List.mapM_cons] at h
      obtain ⟨a, ha, h⟩ := Option.bind_eq_some_iff.mp h
      obtain ⟨as, has, h⟩ := Option.bind_eq_some_iff.mp h
      cases h
      rw [List.map_cons, ← ih as has, axisAt, List.getD_eq_getElem?_getD, ha, Option.getD_some]
  exact hall permutation t.axes (permute_eq_some.mp h).2

theorem permute_of_isPermutation (hp : Operator.isPermutation s.rank permutation = true) :
    s.permute permutation = some ⟨s.dtype, permutation.map s.axisAt⟩ := by
  refine permute_eq_some.mpr ⟨rfl, ?_⟩
  have hall : ∀ ps : List Nat, (∀ p ∈ ps, p < s.axes.length) →
      (ps.mapM fun p => s.axes[p]?) = some (ps.map s.axisAt) := by
    intro ps
    induction ps with
    | nil => exact fun _ => rfl
    | cons p ps ih =>
      intro hps
      have hp : p < s.axes.length := hps p List.mem_cons_self
      rw [List.mapM_cons, ih fun q hq => hps q (List.mem_cons_of_mem _ hq),
        List.getElem?_eq_getElem hp, List.map_cons, axisAt, List.getD_eq_getElem?_getD,
        List.getElem?_eq_getElem hp]
      rfl
  refine hall permutation fun p hm => ?_
  have hr := (Operator.perm_range_of_isPermutation hp).mem_iff.mpr hm
  exact List.mem_range.mp hr

theorem axes_permute_perm (hp : Operator.isPermutation s.rank permutation = true)
    (h : s.permute permutation = some t) : t.axes.Perm s.axes := by
  rw [axes_of_permute h]
  conv_rhs => rw [← map_axisAt_range s]
  exact ((Operator.perm_range_of_isPermutation hp).map s.axisAt).symm

theorem space_permute (hp : Operator.isPermutation s.rank permutation = true)
    (h : s.permute permutation = some t) : t.space = s.space := by
  rw [space, space, ((axes_permute_perm hp h).map Axis.reach).sum_eq]

theorem lens_permute (h : s.permute permutation = some t) :
    t.lens = permutation.map fun p => s.lens.getD p 0 := by
  rw [lens, axes_of_permute h, List.map_map]
  refine List.map_congr_left fun p _ => ?_
  show (s.axisAt p).extent = s.lens.getD p 0
  rw [axisAt, lens, List.getD_eq_getElem?_getD, List.getD_eq_getElem?_getD, List.getElem?_map]
  cases s.axes[p]? <;> rfl

theorem populated_permute (hp : Operator.isPermutation s.rank permutation = true)
    (h : s.permute permutation = some t) (hs : s.Populated) : t.Populated := by
  intro n hn
  have hperm : t.lens.Perm s.lens := (axes_permute_perm hp h).map Axis.extent
  exact hs n (hperm.mem_iff.mp hn)

theorem within_unpermute (hp : Operator.isPermutation s.rank permutation = true)
    (h : s.permute permutation = some t) {idx : List Nat} (hi : Index.Within idx t.lens) :
    Index.Within (Index.unpermute permutation idx) s.lens := by
  have hperm := Operator.perm_range_of_isPermutation hp
  have hlen : permutation.length = s.rank := by rw [← hperm.length_eq, List.length_range]
  have hnd : permutation.Nodup := hperm.nodup_iff.mp List.nodup_range
  rw [Index.within_iff_getD] at hi ⊢
  rw [lens_permute h, List.length_map] at hi
  refine ⟨by rw [Index.length_unpermute, hlen, length_lens], fun k hk => ?_⟩
  rw [length_lens] at hk
  have hmem : k ∈ permutation := hperm.mem_iff.mp (List.mem_range.mpr hk)
  obtain ⟨d, hd, rfl⟩ := List.mem_iff_getElem.mp hmem
  rw [Index.getD_unpermute hnd hd (by omega)]
  have hlt := hi.2 d hd
  simpa [List.getD_eq_getElem?_getD, hd] using hlt

/-- Both shapes find an element at the same place. -/
theorem offset_permute (hp : Operator.isPermutation s.rank permutation = true)
    (h : s.permute permutation = some t) {idx : List Nat} (hi : Index.Within idx t.lens) :
    Index.offset idx t.axes = Index.offset (Index.unpermute permutation idx) s.axes := by
  have hperm := Operator.perm_range_of_isPermutation hp
  have hlen : permutation.length = s.rank := by rw [← hperm.length_eq, List.length_range]
  have hnd : permutation.Nodup := hperm.nodup_iff.mp List.nodup_range
  have haxes := axes_of_permute h
  have htl : t.axes.length = permutation.length := by rw [haxes, List.length_map]
  have hil : idx.length = t.axes.length := by
    rw [Index.length_of_within hi, length_lens]
    rfl
  have hul : (Index.unpermute permutation idx).length = s.axes.length := by
    rw [Index.length_unpermute, hlen]
    rfl
  let f : Nat → Nat := fun p => (Index.unpermute permutation idx).getD p 0 * (s.axisAt p).stride
  calc Index.offset idx t.axes
      = ((List.range t.axes.length).map fun k =>
          idx.getD k 0 * (t.axes.getD k ⟨0, 0⟩).stride).sum := Index.offset_eq_sum hil
    _ = (permutation.map f).sum := by
      congr 1
      refine List.ext_getElem? fun k => ?_
      rw [List.getElem?_map, List.getElem?_map, htl]
      by_cases hk : k < permutation.length
      · have hlt : permutation[k] < permutation.length := by
          have hm := hperm.mem_iff.mpr (List.getElem_mem hk)
          rw [hlen]
          exact List.mem_range.mp hm
        rw [List.getElem?_range hk, List.getElem?_eq_getElem hk, Option.map_some, Option.map_some]
        show some (idx.getD k 0 * (t.axes.getD k ⟨0, 0⟩).stride) = some (f permutation[k])
        rw [show f permutation[k] = (Index.unpermute permutation idx).getD permutation[k] 0
            * (s.axisAt permutation[k]).stride from rfl, Index.getD_unpermute hnd hk hlt, haxes,
          List.getD_eq_getElem?_getD (l := permutation.map s.axisAt), List.getElem?_map,
          List.getElem?_eq_getElem hk]
        rfl
      · rw [List.getElem?_eq_none (by rw [List.length_range]; omega),
          List.getElem?_eq_none (by omega)]
        rfl
    _ = ((List.range s.rank).map f).sum := ((hperm.map f).sum_eq).symm
    _ = Index.offset (Index.unpermute permutation idx) s.axes := (Index.offset_eq_sum hul).symm

end Shape
end TensorGraph
