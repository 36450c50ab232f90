/-
What a packed shape leaves out.

A shape is packed if it has as many elements as its storage spans.  That counts elements and not
places: strides can lead two indices to one place and leave another place out, and the numbers
still agree.  The two always come together, since as many offsets as places either reach every
place or reach one of them twice.  They are absent exactly if the axes can be brought into an order
in which the shape is row-major.  Ordering the axes by their strides does it: without overlap and
without gap, one step along an axis leads just behind what the axes after it reach together, which
is `Index.offsets_tail_perm`.

The result is `Shape.packed_exact`.
-/
import TensorGraph.Proofs.Shape.Standard

namespace TensorGraph

/-! ## Offsets of all indices -/

namespace Index

variable {a : Axis} {axes : List Axis} {n : Nat}

def offsets (axes : List Axis) : List Nat :=
  (indices (axes.map Axis.extent)).map (offset · axes)

/-- Axes repeat what the axes after the first reach, once for every step of the first. -/
theorem offsets_cons (a : Axis) (axes : List Axis) :
    offsets (a :: axes) =
      (List.range a.extent).flatMap fun i => (offsets axes).map (i * a.stride + ·) := by
  rw [offsets, List.map_cons, indices_cons, List.map_flatMap]
  refine List.flatMap_congr fun i _ => ?_
  rw [offsets, List.map_map, List.map_map]
  rfl

theorem nodup_indices (lens : List Nat) : (indices lens).Nodup := by
  refine List.Nodup.of_map (position · lens) ?_
  rw [map_position_indices]
  exact List.nodup_range

theorem mem_offsets {k : Nat} :
    k ∈ offsets axes ↔ ∃ idx, Within idx (axes.map Axis.extent) ∧ offset idx axes = k := by
  simp only [offsets, List.mem_map, mem_indices]

theorem mem_offsets_cons {k : Nat} :
    k ∈ offsets (a :: axes) ↔ ∃ i < a.extent, ∃ m ∈ offsets axes, i * a.stride + m = k := by
  simp only [offsets_cons, List.mem_flatMap, List.mem_range, List.mem_map]

/-- Places are distinct exactly if no two indices lead to one. -/
theorem nodup_offsets_iff : (offsets axes).Nodup ↔
    ∀ idx jdx, Within idx (axes.map Axis.extent) → Within jdx (axes.map Axis.extent) →
      offset idx axes = offset jdx axes → idx = jdx := by
  rw [offsets, List.nodup_map_iff_inj_on (nodup_indices _)]
  simp only [mem_indices]
  exact ⟨fun h idx jdx hi hj => h idx hi jdx hj, fun h idx hi jdx hj => h idx jdx hi hj⟩

theorem length_offsets (axes : List Axis) :
    (offsets axes).length = (axes.map Axis.extent).prod := by
  rw [offsets, List.length_map, length_indices]

theorem lt_of_mem_offsets {k : Nat} (h : k ∈ offsets axes) :
    k < (axes.map Axis.reach).sum + 1 := by
  obtain ⟨idx, hidx, rfl⟩ := mem_offsets.mp h
  exact Nat.lt_succ_of_le (offset_le_reach hidx)

/-- As many places as there are below `n`, all of them below it, leave none out if none is there
twice. -/
theorem perm_range_of_nodup {ks : List Nat} (hlength : ks.length = n) (hlt : ∀ k ∈ ks, k < n)
    (h : ks.Nodup) : ks.Perm (List.range n) :=
  (h.subperm fun k hk => List.mem_range.mpr (hlt k hk)).perm_of_length_le
    (by rw [hlength, List.length_range])

/-- None is there twice if they leave none out. -/
theorem perm_range_of_forall_mem {ks : List Nat} (hlength : ks.length = n)
    (h : ∀ k < n, k ∈ ks) : ks.Perm (List.range n) :=
  ((List.nodup_range.subperm fun k hk => h k (List.mem_range.mp hk)).perm_of_length_le
    (by rw [hlength, List.length_range])).symm

/-- The places that two steps of the first axis lead to have none in common. -/
theorem step_eq_of_nodup (h : (offsets (a :: axes)).Nodup) {i j k m : Nat} (hi : i < a.extent)
    (hj : j < a.extent) (hk : k ∈ offsets axes) (hm : m ∈ offsets axes)
    (heq : i * a.stride + k = j * a.stride + m) : i = j := by
  rw [offsets_cons, List.nodup_flatMap] at h
  have hsymm : Std.Symm (Function.onFun List.Disjoint fun i =>
      (offsets axes).map (i * a.stride + ·)) := ⟨fun _ _ hdisjoint => hdisjoint.symm⟩
  by_contra hne
  exact h.2.forall (List.mem_range.mpr hi) (List.mem_range.mpr hj) hne
    (List.mem_map_of_mem hk) (List.mem_map.mpr ⟨m, hm, heq.symm⟩)

/-- Steps of at most `c` places never lead over all the places from `c` to `2 * c`. -/
theorem exists_offset_between {c : Nat} (hc : 0 < c) (hstride : ∀ a ∈ axes, a.stride ≤ c)
    {k : Nat} (hk : k ∈ offsets axes) (hle : c ≤ k) : ∃ m ∈ offsets axes, c ≤ m ∧ m < c + c := by
  induction axes generalizing k with
  | nil =>
    obtain rfl : k = 0 := List.mem_singleton.mp hk
    omega
  | cons a as ih =>
    rw [List.forall_mem_cons] at hstride
    obtain ⟨i, hi, m, hm, rfl⟩ := mem_offsets_cons.mp hk
    by_cases htail : c ≤ m
    · obtain ⟨p, hp, hbetween⟩ := ih hstride.2 hm htail
      refine ⟨p, mem_offsets_cons.mpr ⟨0, Nat.zero_lt_of_lt hi, p, hp, ?_⟩, hbetween⟩
      rw [Nat.zero_mul, Nat.zero_add]
    · -- The coordinate along the first axis is lowered until one step less would be too little.
      clear hk
      induction i with
      | zero => omega
      | succ i lower =>
        by_cases hless : c ≤ i * a.stride + m
        · exact lower (Nat.lt_of_succ_lt hi) hless
        · refine ⟨_, mem_offsets_cons.mpr ⟨i + 1, hi, m, hm, rfl⟩, hle, ?_⟩
          rw [Nat.succ_mul]
          have := hstride.1
          omega

/-! ## Offsets without overlap and gap -/

section Tiled

variable (h : (offsets (a :: axes)).Perm (List.range n)) (hmany : 1 < a.extent)
include h hmany

theorem stride_pos_of_perm {m : Nat} (hm : m ∈ offsets axes) : 0 < a.stride := by
  refine Nat.pos_of_ne_zero fun hstay => ?_
  have heq := step_eq_of_nodup (Permutation.nodup_of_perm h) (Nat.lt_of_succ_lt hmany) hmany
    hm hm (by rw [hstay, Nat.mul_zero])
  cases heq

/-- The places before the first step along an axis are reached by the axes after it. -/
theorem mem_offsets_of_lt_stride {k m : Nat} (hm : m ∈ offsets axes) (hk : k < a.stride) :
    k ∈ offsets axes := by
  have hmem : ∀ k, k ∈ offsets (a :: axes) ↔ k < n := fun k => h.mem_iff.trans List.mem_range
  have hstep : 1 * a.stride + m < n := (hmem _).mp (mem_offsets_cons.mpr ⟨1, hmany, m, hm, rfl⟩)
  obtain ⟨i, -, p, hp, rfl⟩ := mem_offsets_cons.mp ((hmem k).mpr (by omega))
  obtain rfl | hi := Nat.eq_zero_or_pos i
  · rwa [Nat.zero_mul, Nat.zero_add]
  · have := Nat.le_mul_of_pos_left a.stride hi
    omega

/-- If no stride after an axis is larger, these are the only ones.  A place from the first step to
the second would be reached again from a place before the first. -/
theorem lt_stride_of_mem_offsets (hstride : ∀ b ∈ axes, b.stride ≤ a.stride) {k : Nat}
    (hk : k ∈ offsets axes) : k < a.stride := by
  refine Nat.lt_of_not_le fun hle => ?_
  obtain ⟨m, hm, hge, hlt⟩ :=
    exists_offset_between (stride_pos_of_perm h hmany hk) hstride hk hle
  have hback := mem_offsets_of_lt_stride h hmany hk (k := m - a.stride) (by omega)
  have heq := step_eq_of_nodup (Permutation.nodup_of_perm h) (Nat.lt_of_succ_lt hmany) hmany
    hm hback (by omega)
  cases heq

theorem offsets_tail_perm (hpos : ∀ b ∈ axes, 0 < b.extent)
    (hstride : ∀ b ∈ axes, b.stride ≤ a.stride) :
    (offsets axes).Perm (List.range a.stride) := by
  have hnodup : (offsets axes).Nodup := by
    have hall := Permutation.nodup_of_perm h
    rw [offsets_cons, List.nodup_flatMap] at hall
    exact (hall.1 0 (List.mem_range.mpr (Nat.lt_of_succ_lt hmany))).of_map
  obtain ⟨last, hlast, -⟩ := exists_offset_eq_reach hpos
  refine (List.perm_ext_iff_of_nodup hnodup List.nodup_range).mpr fun k => ?_
  rw [List.mem_range]
  exact ⟨lt_stride_of_mem_offsets h hmany hstride,
    mem_offsets_of_lt_stride h hmany (mem_offsets.mpr ⟨last, hlast, rfl⟩)⟩

end Tiled

/-- Axes in the order of their strides that reach the first `n` places, each of them once, reach
them in row-major order. -/
theorem offset_eq_position_of_perm (h : (offsets axes).Perm (List.range n))
    (hpos : ∀ a ∈ axes, 0 < a.extent) (hsorted : axes.Pairwise fun a b => b.stride ≤ a.stride)
    {idx : List Nat} (hidx : Within idx (axes.map Axis.extent)) :
    offset idx axes = position idx (axes.map Axis.extent) := by
  induction axes generalizing n idx with
  | nil =>
    cases idx with
    | nil => rfl
    | cons => exact hidx.elim
  | cons a as ih =>
    cases idx with
    | nil => exact hidx.elim
    | cons i is =>
      rw [List.forall_mem_cons] at hpos
      obtain ⟨hstride, hsorted⟩ := List.pairwise_cons.mp hsorted
      obtain ⟨hi, his⟩ := hidx
      rw [offset_cons, List.map_cons, position_cons]
      rcases Nat.eq_or_lt_of_le hpos.1 with hone | hmany
      · have htail : offsets (a :: as) = offsets as := by
          rw [offsets_cons, ← hone]
          simp
        have hi : i = 0 := by omega
        rw [hi, Nat.zero_mul, Nat.zero_mul, ih (htail ▸ h) hpos.2 hsorted his]
      · have htail := offsets_tail_perm h hmany hpos.2 hstride
        have hcount : (as.map Axis.extent).prod = a.stride := by
          rw [← length_offsets, htail.length_eq, List.length_range]
        rw [hcount, ih htail hpos.2 hsorted his]

/-- Different indices of permuted axes come from different indices. -/
theorem unpermute_injective {p i j : List Nat} (hp : p.Perm (List.range n)) (hi : i.length = n)
    (hj : j.length = n) (h : unpermute p i = unpermute p j) : i = j := by
  have hlen := Permutation.length_of_perm hp
  refine List.ext_getElem (hi.trans hj.symm) fun d hd hd' => ?_
  have hcoordinate : i.getD d 0 = j.getD d 0 := by
    rw [← carried_unpermute hp i d (by omega), ← carried_unpermute hp j d (by omega), h]
  rwa [List.getD_eq_getElem _ _ hd, List.getD_eq_getElem _ _ hd'] at hcoordinate

end Index

namespace Shape

variable {s t : Shape} {permutation : List Nat} {n : Nat}

/-! ## Orders of the axes -/

def byStride (s : Shape) : List Nat :=
  (List.range s.rank).mergeSort fun p q => (s.axisAt q).stride ≤ (s.axisAt p).stride

theorem byStride_perm (s : Shape) : s.byStride.Perm (List.range s.rank) :=
  List.mergeSort_perm _ _

theorem pairwise_stride_of_byStride (h : s.permute s.byStride = some t) :
    t.axes.Pairwise fun a b => b.stride ≤ a.stride := by
  rw [axes_of_permute h, List.pairwise_map]
  have hsorted : s.byStride.Pairwise fun p q =>
      decide ((s.axisAt q).stride ≤ (s.axisAt p).stride) = true :=
    List.pairwise_mergeSort (by simpa using fun a b c hab hbc => Nat.le_trans hbc hab)
      (by simpa using fun a b => Nat.le_total _ _) _
  exact hsorted.imp of_decide_eq_true

/-- The indices of a permuted shape, their coordinates put back, are those it was made from. -/
theorem indices_permute (hperm : permutation.Perm (List.range s.rank))
    (h : s.permute permutation = some t) :
    ((Index.indices t.lens).map (Index.unpermute permutation)).Perm (Index.indices s.lens) := by
  have hp := Operator.isPermutation_iff.mpr hperm
  have hrank : t.rank = s.rank := (rank_permute h).trans (Permutation.length_of_perm hperm)
  have hlength : ∀ idx ∈ Index.indices t.lens, idx.length = s.rank := fun idx hidx =>
    (Index.length_of_within (Index.mem_indices.mp hidx)).trans (t.length_lens.trans hrank)
  have hnodup : ((Index.indices t.lens).map (Index.unpermute permutation)).Nodup :=
    (Index.nodup_indices t.lens).map_on fun i hi j hj =>
      Index.unpermute_injective hperm (hlength i hi) (hlength j hj)
  refine (hnodup.subperm fun idx hidx => ?_).perm_of_length_le ?_
  · obtain ⟨j, hj, rfl⟩ := List.mem_map.mp hidx
    exact Index.mem_indices.mpr (within_unpermute hp h (Index.mem_indices.mp hj))
  · rw [List.length_map, Index.length_indices, Index.length_indices, prod_lens_permute hperm h]

/-- So both shapes find their elements at the same places. -/
theorem offsets_permute (hperm : permutation.Perm (List.range s.rank))
    (h : s.permute permutation = some t) :
    (Index.offsets t.axes).Perm (Index.offsets s.axes) := by
  have hoffsets : Index.offsets t.axes =
      ((Index.indices t.lens).map (Index.unpermute permutation)).map (Index.offset · s.axes) := by
    rw [List.map_map]
    exact List.map_congr_left fun idx hidx =>
      offset_permute (Operator.isPermutation_iff.mpr hperm) h (Index.mem_indices.mp hidx)
  rw [hoffsets]
  exact (indices_permute hperm h).map _

/-- The offsets of a row-major shape are all places up to the number of its elements. -/
theorem offsets_of_isStandard (h : s.isStandard = some true) :
    Index.offsets s.axes = List.range s.lens.prod := by
  rw [← Index.map_position_indices]
  exact List.map_congr_left fun idx hidx => offset_of_isStandard h (Index.mem_indices.mp hidx)

/-- The places of a shape are the first ones, each of them once, exactly if some order of its axes
is row-major. -/
theorem offsets_perm_iff (hp : s.Populated) (hle : s.lens.prod ≤ Word.maxUnsigned) :
    (Index.offsets s.axes).Perm (List.range s.lens.prod) ↔
      ∃ permutation t, permutation.Perm (List.range s.rank) ∧ s.permute permutation = some t ∧
        t.isStandard = some true := by
  constructor
  · intro hoffsets
    have hperm := byStride_perm s
    have ht := permute_of_perm hperm
    have hpt := populated_permute (Operator.isPermutation_iff.mpr hperm) ht hp
    obtain ⟨b, hb, hiff⟩ := isStandard_iff_offset hpt ((prod_lens_permute hperm ht).trans_le hle)
    refine ⟨_, _, hperm, ht, ?_⟩
    rw [hb, hiff.mpr fun idx => Index.offset_eq_position_of_perm
      ((offsets_permute hperm ht).trans hoffsets) (fun _ => hpt.extent_pos)
      (pairwise_stride_of_byStride ht)]
  · rintro ⟨permutation, t, hperm, ht, hstandard⟩
    have hoffsets := offsets_permute hperm ht
    rw [offsets_of_isStandard hstandard, prod_lens_permute hperm ht] at hoffsets
    exact hoffsets.symm

/-- Among as many places as there are elements, each holds one element if none is left out, and
if no two elements are at one place. -/
theorem places_tfae (hp : s.Populated) (helements : s.elements = some n)
    (hspace : s.elementSpace = some n) : List.TFAE [
      ∀ k < n, ∃! idx, Index.Within idx s.lens ∧ Index.offset idx s.axes = k,
      ∀ k < n, ∃ idx, Index.Within idx s.lens ∧ Index.offset idx s.axes = k,
      ∀ idx jdx, Index.Within idx s.lens → Index.Within jdx s.lens →
        Index.offset idx s.axes = Index.offset jdx s.axes → idx = jdx,
      ∃ permutation t, permutation.Perm (List.range s.rank) ∧
        s.permute permutation = some t ∧ t.isStandard = some true] := by
  rw [elements_eq_fit hp, Word.fit_eq_some] at helements
  rw [elementSpace_eq_fit hp, Word.fit_eq_some] at hspace
  obtain ⟨hle, hn⟩ := helements
  have hlength : (Index.offsets s.axes).length = n := (Index.length_offsets s.axes).trans hn.symm
  have hiff := offsets_perm_iff hp hle
  rw [← hn] at hiff
  tfae_have 1 → 2 := fun h k hk => (h k hk).exists
  tfae_have 2 → 4 := fun h => hiff.mp
    (Index.perm_range_of_forall_mem hlength fun k hk => Index.mem_offsets.mpr (h k hk))
  tfae_have 4 → 3 := fun h =>
    Index.nodup_offsets_iff.mp (Permutation.nodup_of_perm (hiff.mpr h))
  tfae_have 3 → 1 := by
    intro h k hk
    have hperm := Index.perm_range_of_nodup hlength
      (fun _ hm => hspace.2 ▸ Index.lt_of_mem_offsets hm) (Index.nodup_offsets_iff.mpr h)
    obtain ⟨idx, hidx⟩ := Index.mem_offsets.mp (hperm.mem_iff.mpr (List.mem_range.mpr hk))
    exact ⟨idx, hidx, fun jdx hjdx => h jdx idx hjdx.1 hidx.1 (hjdx.2.trans hidx.2.symm)⟩
  tfae_finish

/-- A packed shape has as many elements as places, and all of them at these places.  That each
place holds one element is as much as that no place is left out, or that no two elements are at one
place, and it is so exactly if some order of the axes is row-major.  No axis then repeats an
element. -/
theorem packed_exact {s : Shape} (hp : s.Populated) (hpacked : s.isPacked = some true) :
    ∃ n, s.elements = some n ∧ s.elementSpace = some n ∧
      (∀ idx, Index.Within idx s.lens → Index.offset idx s.axes < n) ∧
      List.TFAE [
        ∀ k < n, ∃! idx, Index.Within idx s.lens ∧ Index.offset idx s.axes = k,
        ∀ k < n, ∃ idx, Index.Within idx s.lens ∧ Index.offset idx s.axes = k,
        ∀ idx jdx, Index.Within idx s.lens → Index.Within jdx s.lens →
          Index.offset idx s.axes = Index.offset jdx s.axes → idx = jdx,
        ∃ permutation t, permutation.Perm (List.range s.rank) ∧
          s.permute permutation = some t ∧ t.isStandard = some true] ∧
      ((∀ k < n, ∃! idx, Index.Within idx s.lens ∧ Index.offset idx s.axes = k) →
        s.isBroadcast = false) := by
  obtain ⟨n, helements, hspace⟩ := isPacked_eq_some_true.mp hpacked
  have htfae := places_tfae hp helements hspace
  refine ⟨n, helements, hspace, fun idx hidx => ?_, htfae, fun h => ?_⟩
  · rw [elementSpace_eq_fit hp, Word.fit_eq_some] at hspace
    exact hspace.2 ▸ Index.lt_of_mem_offsets (Index.mem_offsets.mpr ⟨idx, hidx, rfl⟩)
  · obtain ⟨permutation, t, hperm, ht, hstandard⟩ := (htfae.out 0 3).mp h
    have hpt := populated_permute (Operator.isPermutation_iff.mpr hperm) ht hp
    rw [← isBroadcast_permute hperm ht, isBroadcast_of_isStandard hpt hstandard]

/-- Two rows of three, stored column by column, with an axis of one position: taking the
second axis first is row-major, so each of the six places holds one element. -/
theorem packed_exact_columns :
    ∃ s : Shape, s = ⟨.float, [⟨2, 1⟩, ⟨3, 2⟩, ⟨1, 9⟩]⟩ ∧ s.isPacked = some true ∧
      s.isTransposed = true ∧
      ∀ k < 6, ∃! idx, Index.Within idx s.lens ∧ Index.offset idx s.axes = k := by
  have hpacked : isPacked ⟨.float, [⟨2, 1⟩, ⟨3, 2⟩, ⟨1, 9⟩]⟩ = some true := by decide
  obtain ⟨n, hn, -, -, htfae, -⟩ := packed_exact (by unfold Populated; decide) hpacked
  obtain rfl : 6 = n := Option.some.inj ((show _ = some 6 by decide).symm.trans hn)
  refine ⟨_, rfl, hpacked, by decide, (htfae.out 0 3).mpr ?_⟩
  exact ⟨[1, 0, 2], _, by decide, rfl, by decide⟩

/-- A packed shape of which no axis repeats an element can still lead two indices to one place and
leave a place out. -/
theorem packed_not_tiled :
    ∃ s : Shape, s.Populated ∧ s.isPacked = some true ∧ s.isBroadcast = false ∧
      s.elements = some 9 ∧ (¬∃ idx, Index.Within idx s.lens ∧ Index.offset idx s.axes = 1) ∧
      Index.Within [0, 1] s.lens ∧ Index.Within [1, 0] s.lens ∧
      Index.offset [0, 1] s.axes = Index.offset [1, 0] s.axes := by
  refine ⟨⟨.float, [⟨3, 2⟩, ⟨3, 2⟩]⟩, by unfold Populated; decide, by decide, by decide, by decide,
    fun h => ?_, by decide, by decide, by decide⟩
  exact absurd (Index.mem_offsets.mpr h) (by decide)

end Shape
end TensorGraph
