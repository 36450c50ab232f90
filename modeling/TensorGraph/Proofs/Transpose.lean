/-
Transposes.

Axis `d` of a transpose by `p` is axis `p[d]` of the tensor it is made from.  Transposing by `p`
and then by `q` therefore takes axis `p[q[d]]` at `d`, which is what `Permutation.compose` says,
and `Permutation.inverse` lists the positions at which `p` takes each axis.  An index of the
transpose names the element whose coordinates it `Index.Carried`; that both shapes find it at one
place of their storage is `Shape.offset_permute`.

The result is `transpose_exact`: which lists are accepted, what a transposed argument reads, and
how transposes compose.
-/
import Mathlib.Data.List.GetD
import TensorGraph.Proofs.Storage.RoundTrip

namespace TensorGraph

/-! ## Permutations as lists -/

namespace Permutation

variable {p q : List Nat} {n : Nat}

/-- First `p` and then `q`: position `d` holds what `p` has at position `q[d]`. -/
def compose (p q : List Nat) : List Nat := q.map fun d => p.getD d 0

def inverse (p : List Nat) : List Nat := (List.range p.length).map p.idxOf

theorem map_getD_range (p : List Nat) : ((List.range p.length).map fun d => p.getD d 0) = p := by
  refine List.ext_getElem (by rw [List.length_map, List.length_range]) fun d _ hd => ?_
  rw [List.getElem_map, List.getElem_range, List.getD_eq_getElem _ _ hd]

theorem map_idxOf (hnd : p.Nodup) : p.map p.idxOf = List.range p.length := by
  refine List.ext_getElem (by rw [List.length_map, List.length_range]) fun d hd _ => ?_
  rw [List.length_map] at hd
  rw [List.getElem_map, List.getElem_range, hnd.idxOf_getElem d hd]

theorem length_of_perm (hp : p.Perm (List.range n)) : p.length = n := by
  rw [hp.length_eq, List.length_range]

theorem nodup_of_perm (hp : p.Perm (List.range n)) : p.Nodup :=
  hp.nodup_iff.mpr List.nodup_range

theorem getD_lt_of_perm (hp : p.Perm (List.range n)) {d : Nat} (hd : d < p.length) :
    p.getD d 0 < n := by
  rw [List.getD_eq_getElem _ _ hd]
  exact List.mem_range.mp (hp.mem_iff.mp (List.getElem_mem hd))

theorem compose_perm (hp : p.Perm (List.range n)) (hq : q.Perm (List.range n)) :
    (compose p q).Perm (List.range n) := by
  have hmap : (compose p q).Perm ((List.range n).map fun d => p.getD d 0) := hq.map _
  rw [← length_of_perm hp, map_getD_range] at hmap
  exact hmap.trans hp

theorem inverse_perm (hp : p.Perm (List.range n)) : (inverse p).Perm (List.range n) := by
  have hmap : (inverse p).Perm (p.map p.idxOf) := by
    rw [inverse, length_of_perm hp]
    exact hp.symm.map _
  rwa [map_idxOf (nodup_of_perm hp), length_of_perm hp] at hmap

theorem compose_inverse (hp : p.Perm (List.range n)) : compose p (inverse p) = List.range n := by
  rw [compose, inverse, List.map_map, length_of_perm hp]
  conv_rhs => rw [← List.map_id (List.range n)]
  refine List.map_congr_left fun k hk => ?_
  have hlt : p.idxOf k < p.length := List.idxOf_lt_length_iff.mpr (hp.mem_iff.mpr hk)
  show p.getD (p.idxOf k) 0 = k
  rw [List.getD_eq_getElem _ _ hlt, List.getElem_idxOf]

end Permutation

/-! ## Indices -/

namespace Index

variable {p i j : List Nat} {n : Nat}

/-- Whether an index of the transpose by `p` has at every position `d` the coordinate that the
index it comes from has at `p[d]`. -/
def Carried (p i j : List Nat) : Prop :=
  ∀ d, d < p.length → i.getD (p.getD d 0) 0 = j.getD d 0

theorem carried_unpermute (hp : p.Perm (List.range n)) (j : List Nat) :
    Carried p (unpermute p j) j := by
  intro d hd
  have hlt := Permutation.getD_lt_of_perm hp hd
  rw [List.getD_eq_getElem _ _ hd] at hlt ⊢
  exact getD_unpermute (Permutation.nodup_of_perm hp) hd (Permutation.length_of_perm hp ▸ hlt)

/-- An index is determined by the one it is carried to, since a permutation leaves out no
position. -/
theorem Carried.eq_unpermute (h : Carried p i j) (hp : p.Perm (List.range n))
    (hi : i.length = n) : i = unpermute p j := by
  have hlen := Permutation.length_of_perm hp
  refine List.ext_getElem (by rw [length_unpermute, hi, hlen]) fun k hk hk' => ?_
  obtain ⟨d, hd, hdk⟩ :=
    List.mem_iff_getElem.mp (hp.mem_iff.mpr (List.mem_range.mpr (hi ▸ hk)))
  have hboth := (h d hd).trans (carried_unpermute hp j d hd).symm
  rwa [List.getD_eq_getElem p 0 hd, hdk, List.getD_eq_getElem _ _ hk,
    List.getD_eq_getElem _ _ hk'] at hboth

end Index

/-! ## Shapes -/

namespace Operator

theorem isPermutation_iff {rank : Nat} {p : List Nat} :
    isPermutation rank p = true ↔ p.Perm (List.range rank) := by
  refine ⟨fun h => (perm_range_of_isPermutation h).symm, fun h => ?_⟩
  unfold isPermutation
  rw [Bool.and_eq_true, decide_eq_true_eq, List.all_eq_true]
  exact ⟨Permutation.length_of_perm h, fun i hi => decide_eq_true (h.mem_iff.mpr hi)⟩

theorem infer_transpose_eq_value {p : List Nat} {s t : Shape} :
    (transpose p).infer [s] = .value t ↔ p.Perm (List.range s.rank) ∧ s.permute p = some t := by
  rw [infer_transpose_eq, ← isPermutation_iff]
  split
  case isTrue hp => rw [Outcome.ofOption_eq_value, and_iff_right hp]
  case isFalse hp => exact ⟨(fun h => nomatch h), fun h => absurd h.1 hp⟩

end Operator

namespace Shape

variable {s t : Shape} {p q : List Nat}

theorem permute_of_perm (hp : p.Perm (List.range s.rank)) :
    s.permute p = some ⟨s.dtype, p.map s.axisAt⟩ :=
  permute_of_isPermutation (Operator.isPermutation_iff.mpr hp)

theorem rank_permute (h : s.permute p = some t) : t.rank = p.length := by
  rw [rank, axes_of_permute h, List.length_map]

theorem axisAt_permute (h : s.permute p = some t) {d : Nat} (hd : d < p.length) :
    t.axisAt d = s.axisAt (p.getD d 0) := by
  rw [axisAt, axes_of_permute h, List.getD_eq_getElem _ _ (by rwa [List.length_map]),
    List.getElem_map, List.getD_eq_getElem p 0 hd]

/-- Axes that are reordered twice. -/
theorem permute_permute (hp : p.Perm (List.range s.rank)) (h : s.permute p = some t)
    (hq : q.Perm (List.range t.rank)) : t.permute q = s.permute (Permutation.compose p q) := by
  have hrank : t.rank = s.rank := (rank_permute h).trans (Permutation.length_of_perm hp)
  rw [permute_of_perm hq, permute_of_perm (Permutation.compose_perm hp (hrank ▸ hq)),
    (permute_eq_some.mp h).1, Permutation.compose, List.map_map]
  refine congrArg some (congrArg (Shape.mk s.dtype) (List.map_congr_left fun d hd => ?_))
  have hlt : d < p.length := rank_permute h ▸ List.mem_range.mp (hq.mem_iff.mp hd)
  exact axisAt_permute h hlt

theorem permute_range (s : Shape) : s.permute (List.range s.rank) = some s := by
  rw [permute_of_perm (List.Perm.refl _), map_axisAt_range]

/-- The index of the element that an index of the transpose names. -/
theorem existsUnique_carried (hp : p.Perm (List.range s.rank)) (h : s.permute p = some t)
    {j : List Nat} (hj : Index.Within j t.lens) :
    ∃! i, Index.Within i s.lens ∧ Index.Carried p i j := by
  have hwithin := within_unpermute (Operator.isPermutation_iff.mpr hp) h hj
  refine ⟨Index.unpermute p j, ⟨hwithin, Index.carried_unpermute hp j⟩, ?_⟩
  rintro i ⟨hi, hcarried⟩
  exact hcarried.eq_unpermute hp ((Index.length_of_within hi).trans s.length_lens)

theorem offset_of_carried (hp : p.Perm (List.range s.rank)) (h : s.permute p = some t)
    {i j : List Nat} (hi : Index.Within i s.lens) (hj : Index.Within j t.lens)
    (hcarried : Index.Carried p i j) : Index.offset j t.axes = Index.offset i s.axes := by
  rw [hcarried.eq_unpermute hp ((Index.length_of_within hi).trans s.length_lens)]
  exact offset_permute (Operator.isPermutation_iff.mpr hp) h hj

end Shape

/-! ## Arguments -/

namespace Argument

variable {s t : Shape} {st : Storage} {a : Argument}

/-- Storage that was found large enough for a shape is so for every shape of the same span. -/
theorem make_of_storageBytes_eq (hd : t.dtype = s.dtype) (hb : t.storageBytes = s.storageBytes)
    (h : make s st = .value a) : make t st = .value ⟨t, some st⟩ := by
  unfold make at h ⊢
  obtain ⟨n, hn, h⟩ := Outcome.bind_eq_value.mp h
  obtain ⟨_, hsize, h⟩ := Outcome.bind_eq_value.mp h
  rw [hb, hn, Outcome.value_bind, Outcome.require_pos (Outcome.require_eq_value.mp hsize),
    Outcome.value_bind, hd]
  cases st with
  | host b =>
    obtain ⟨_, haddress, -⟩ := Outcome.bind_eq_value.mp h
    exact congrArg (· >>= _) (Outcome.require_pos (Outcome.require_eq_value.mp haddress) _)
  | device b => rfl

/-- Whether `r` is the tensor `a` with its axes in the order of `p`, over the storage of `a`. -/
structure Transposed (p : List Nat) (a r : Argument) : Prop where
  shared : r.sharesStorage a = true
  reshaped : ∀ u, r.withShape u = a.withShape u
  restored : r.withShape a.shape = .value a
  offset : ∀ i j, Index.Within i a.shape.lens → Index.Within j r.shape.lens →
    Index.Carried p i j → Index.offset j r.shape.axes = Index.offset i a.shape.axes
  reads : (∃ b, a.storage = some (.host b)) → a.shape.Addressable →
    ∃ v w, a.viewAs a.shape.dtype = .value v ∧ r.viewAs a.shape.dtype = .value w ∧
      v.lens = a.shape.lens ∧ w.lens = r.shape.lens ∧
      ∀ i j, Index.Within i a.shape.lens → Index.Within j r.shape.lens →
        Index.Carried p i j → w.read j = v.read i

theorem transposed_of_make {p : List Nat} (hp : p.Perm (List.range s.rank))
    (ht : s.permute p = some t) (h : make s st = .value a) :
    ∃ r, a.withShape t = .value r ∧ r.shape = t ∧ a.Transposed p r := by
  have hp' := Operator.isPermutation_iff.mpr hp
  have hd : t.dtype = s.dtype := (Shape.permute_eq_some.mp ht).1
  have hoffset := fun i j => Shape.offset_of_carried hp ht (i := i) (j := j)
  obtain rfl := shape_of_make h
  refine ⟨⟨t, some st⟩, make_of_storageBytes_eq hd (Shape.storageBytes_permute hp' ht) h, rfl,
    st.same_refl, fun _ => rfl, h, hoffset, ?_⟩
  rintro ⟨b, hb⟩ hs
  cases hb
  have hview : viewAs ⟨t, some (.host b)⟩ s.dtype = .value (.ofBytes t t.dtype.size b.bytes) :=
    hd ▸ viewAs_onHost (hs.permute hp' ht)
  refine ⟨_, _, viewAs_onHost hs, hview, rfl, rfl, fun i j hi hj hc => ?_⟩
  show Bytes.wordAt b.bytes (Index.offset j t.axes * t.dtype.size) t.dtype.size =
    Bytes.wordAt b.bytes (Index.offset i s.axes * s.dtype.size) s.dtype.size
  rw [hoffset i j hi hj hc, hd]

end Argument

/-- A transpose is exactly a permutation of the indices.  It is accepted for the permutations of
the axes and for nothing else, two transposes are the one by the composed permutation, and the
inverse permutation leads back to the shape, strides included.  Each index of the transpose names
exactly one element of the tensor, and over storage that backs the tensor there always is a
transposed one, which shares the storage and reads that element at the index. -/
theorem transpose_exact (p : List Nat) (s : Shape) :
    ((∃ t, (Operator.transpose p).infer [s] = .value t) ↔ p.Perm (List.range s.rank)) ∧
    ∀ t, (Operator.transpose p).infer [s] = .value t →
      (∀ q u, (Operator.transpose q).infer [t] = .value u →
        (Operator.transpose (Permutation.compose p q)).infer [s] = .value u) ∧
      (Operator.transpose (Permutation.inverse p)).infer [t] = .value s ∧
      (∀ j, Index.Within j t.lens → ∃! i, Index.Within i s.lens ∧ Index.Carried p i j) ∧
      ∀ st a, Argument.make s st = .value a →
        ∃ r, a.withShape t = .value r ∧ r.shape = t ∧ a.Transposed p r := by
  refine ⟨⟨fun ⟨t, ht⟩ => (Operator.infer_transpose_eq_value.mp ht).1, fun hp =>
    ⟨_, Operator.infer_transpose_eq_value.mpr ⟨hp, Shape.permute_of_perm hp⟩⟩⟩, fun t ht => ?_⟩
  obtain ⟨hp, ht⟩ := Operator.infer_transpose_eq_value.mp ht
  have hrank : t.rank = s.rank := (Shape.rank_permute ht).trans (Permutation.length_of_perm hp)
  refine ⟨fun q u hu => ?_, ?_, fun j => Shape.existsUnique_carried hp ht,
    fun st a ha => Argument.transposed_of_make hp ht ha⟩
  · obtain ⟨hq, hu⟩ := Operator.infer_transpose_eq_value.mp hu
    exact Operator.infer_transpose_eq_value.mpr ⟨Permutation.compose_perm hp (hrank ▸ hq),
      (Shape.permute_permute hp ht hq).symm.trans hu⟩
  · have hq := Permutation.inverse_perm hp
    rw [← hrank] at hq
    refine Operator.infer_transpose_eq_value.mpr ⟨hq, ?_⟩
    rw [Shape.permute_permute hp ht hq, Permutation.compose_inverse hp, Shape.permute_range]

/-- Three axes in a cycle, which is not its own inverse, of a tensor with gaps between its last
positions: the element at (1, 2, 0), five bytes in, is at (0, 1, 2) of the transpose. -/
theorem transpose_exact_cycle :
    ∃ t a r w, (Operator.transpose [2, 0, 1]).infer [⟨.int8, [⟨2, 1⟩, ⟨3, 2⟩, ⟨2, 7⟩]⟩] = .value t ∧
      t = ⟨.int8, [⟨2, 7⟩, ⟨2, 1⟩, ⟨3, 2⟩]⟩ ∧
      (Operator.transpose [1, 2, 0]).infer [t] = .value ⟨.int8, [⟨2, 1⟩, ⟨3, 2⟩, ⟨2, 7⟩]⟩ ∧
      Argument.make ⟨.int8, [⟨2, 1⟩, ⟨3, 2⟩, ⟨2, 7⟩]⟩
        (.host (.ofBytes 0 #[10, 11, 12, 13, 14, 15, 16, 17, 18, 19, 20, 21, 22])) = .value a ∧
      a.withShape t = .value r ∧ a.Transposed [2, 0, 1] r ∧ r.viewAs .int8 = .value w ∧
      Index.Carried [2, 0, 1] [1, 2, 0] [0, 1, 2] ∧ w.read [0, 1, 2] = 15 := by
  obtain ⟨-, h⟩ := transpose_exact [2, 0, 1] ⟨.int8, [⟨2, 1⟩, ⟨3, 2⟩, ⟨2, 7⟩]⟩
  obtain ⟨-, hinverse, -, hmake⟩ := h ⟨.int8, [⟨2, 7⟩, ⟨2, 1⟩, ⟨3, 2⟩]⟩ (by rfl)
  obtain ⟨r, hr, hshape, htransposed⟩ := hmake
    (.host (.ofBytes 0 #[10, 11, 12, 13, 14, 15, 16, 17, 18, 19, 20, 21, 22])) _ (by rfl)
  obtain ⟨v, w, hv, hw, -, -, hread⟩ := htransposed.reads ⟨_, rfl⟩ (by decide)
  have hcarried : Index.Carried [2, 0, 1] [1, 2, 0] [0, 1, 2] := by
    unfold Index.Carried
    decide
  refine ⟨_, _, r, w, by rfl, rfl, hinverse, by rfl, hr, htransposed, hw, hcarried, ?_⟩
  rw [hread [1, 2, 0] [0, 1, 2] (by decide) (by rw [hshape]; decide) hcarried]
  cases hv
  rfl

end TensorGraph
