/-
The softmax kernel, which works in place on a dense copy of its input.

A lane reads and writes its own positions only and lanes are disjoint, so each lane sees
the elements of the input, whatever was written before it.  `softmax_eq` is the
result: the kernel gives every element's share of its lane.
-/
import TensorGraph.Proofs.Meaning

namespace TensorGraph
namespace Kernel

/-! ## One lane -/

def share (num : Arithmetic) (elements : Array Nat) (positions : List Nat) (p : Nat) : Nat :=
  let values := positions.map fun q => elements.getD q 0
  num.narrow (Format.double.div
    (shiftedExp num (View.largest num values) (elements.getD p 0)) (View.total num values))

variable {num : Arithmetic}

theorem getD_setIfInBounds (es : Array Nat) (p q x : Nat) :
    (es.setIfInBounds p x).getD q 0 = if q = p ∧ p < es.size then x else es.getD q 0 := by
  rw [Array.getD_eq_getD_getElem?, Array.getElem?_setIfInBounds, Array.getD_eq_getD_getElem?]
  by_cases hq : p = q
  · subst hq
    by_cases hp : p < es.size <;> simp [hp]
  · simp [hq, Ne.symm hq]

/-- Writes at distinct positions, each from the element it replaces. -/
theorem getD_foldl_rewrite (g : Nat → Nat) {positions : List Nat} (hnd : positions.Nodup)
    (es : Array Nat) (p : Nat) :
    (positions.foldl (fun es q => es.setIfInBounds q (g (es.getD q 0))) es).getD p 0 =
      if p ∈ positions ∧ p < es.size then g (es.getD p 0) else es.getD p 0 := by
  induction positions generalizing es with
  | nil => simp
  | cons q qs ih =>
    obtain ⟨hq, hqs⟩ := List.nodup_cons.mp hnd
    rw [List.foldl_cons, ih hqs, Array.size_setIfInBounds, getD_setIfInBounds]
    by_cases hp : p = q
    · subst hp
      by_cases hlt : p < es.size <;> simp [hq, hlt]
    · simp [hp]

theorem getD_normaliseLane {positions : List Nat} (hnd : positions.Nodup) (es : Array Nat)
    (p : Nat) :
    (normaliseLane num es positions).getD p 0 =
      if p ∈ positions ∧ p < es.size then share num es positions p else es.getD p 0 :=
  let values := positions.map fun q => es.getD q 0
  getD_foldl_rewrite (fun x => num.narrow (Format.double.div
    (shiftedExp num (View.largest num values) x) (View.total num values))) hnd es p

theorem size_normaliseLane (es : Array Nat) (positions : List Nat) :
    (normaliseLane num es positions).size = es.size := by
  unfold normaliseLane
  refine List.foldlRecOn (motive := fun es' : Array Nat => es'.size = es.size) positions _ rfl ?_
  exact fun es' h q _ => by rw [Array.size_setIfInBounds, h]

/-- A lane depends on the elements at its positions only. -/
theorem share_congr {es fs : Array Nat} {positions : List Nat}
    (h : ∀ q ∈ positions, es.getD q 0 = fs.getD q 0) {p : Nat} (hp : p ∈ positions) :
    share num es positions p = share num fs positions p := by
  have hmap : (positions.map fun q => es.getD q 0) = positions.map fun q => fs.getD q 0 :=
    List.map_congr_left h
  unfold share
  rw [hmap, h p hp]

/-! ## All lanes -/

theorem getD_foldl_of_notMem {lanes : List (List Nat)} (hnd : ∀ l ∈ lanes, l.Nodup) {p : Nat}
    (hp : ∀ l ∈ lanes, p ∉ l) (es : Array Nat) :
    (lanes.foldl (normaliseLane num) es).getD p 0 = es.getD p 0 := by
  induction lanes generalizing es with
  | nil => rfl
  | cons l ls ih =>
    rw [List.foldl_cons, ih (fun m hm => hnd m (List.mem_cons_of_mem _ hm))
        (fun m hm => hp m (List.mem_cons_of_mem _ hm)),
      getD_normaliseLane (hnd l List.mem_cons_self), if_neg]
    exact fun h => hp l List.mem_cons_self h.1

theorem getD_foldl_of_mem {lanes : List (List Nat)} (hnd : ∀ l ∈ lanes, l.Nodup)
    (hdis : lanes.Pairwise List.Disjoint) {l : List Nat} (hl : l ∈ lanes) {p : Nat} (hp : p ∈ l)
    {es : Array Nat} (hlt : p < es.size) :
    (lanes.foldl (normaliseLane num) es).getD p 0 = share num es l p := by
  induction lanes generalizing es with
  | nil => cases hl
  | cons m ms ih =>
    obtain ⟨hm, hms⟩ := List.pairwise_cons.mp hdis
    have hnd' : ∀ l ∈ ms, l.Nodup := fun l h => hnd l (List.mem_cons_of_mem _ h)
    rw [List.foldl_cons]
    rcases List.mem_cons.mp hl with rfl | hl
    · rw [getD_foldl_of_notMem hnd' (fun m h hpm => hm m h hp hpm),
        getD_normaliseLane (hnd l List.mem_cons_self), if_pos ⟨hp, hlt⟩]
    · rw [ih hnd' hms hl (by rw [size_normaliseLane]; exact hlt)]
      refine share_congr (fun q hq => ?_) hp
      rw [getD_normaliseLane (hnd m List.mem_cons_self), if_neg]
      exact fun h => hm l hl h.1 hq

/-! ## The positions of lanes -/

/-- The position of an index moved along an axis. -/
theorem position_set {lens idx : List Nat} (hi : Index.Within idx lens) {axis count : Nat}
    (ha : lens[axis]? = some count) (j : Nat) :
    Index.position (idx.set axis j) lens =
      Index.position (idx.take axis) (lens.take axis) * (count * (lens.drop (axis + 1)).prod)
        + Index.position (idx.drop (axis + 1)) (lens.drop (axis + 1))
        + j * (lens.drop (axis + 1)).prod := by
  induction lens generalizing idx axis with
  | nil => cases ha
  | cons n ns ih =>
    cases idx with
    | nil => exact hi.elim
    | cons i is =>
      cases axis with
      | zero =>
        show j * ns.prod + Index.position is ns =
          0 * _ + Index.position is ns + j * ns.prod
        omega
      | succ axis =>
        have ha' : ns[axis]? = some count := ha
        have htail := ih hi.2 ha'
        have hprod : ns.prod = (ns.take axis).prod * (count * (ns.drop (axis + 1)).prod) := by
          obtain ⟨hlt, hget⟩ := List.getElem?_eq_some_iff.mp ha'
          rw [← hget, ← List.prod_cons, List.cons_getElem_drop_succ, List.prod_take_mul_prod_drop]
        show i * ns.prod + Index.position (is.set axis j) ns =
          (i * (ns.take axis).prod + Index.position (is.take axis) (ns.take axis)) * _ + _ + _
        rw [htail, hprod, Nat.add_mul]
        simp only [Nat.mul_assoc, Nat.add_assoc]
        rfl

theorem within_take {idx lens : List Nat} (hi : Index.Within idx lens) (k : Nat) :
    Index.Within (idx.take k) (lens.take k) := by
  induction lens generalizing idx k with
  | nil =>
    cases idx with
    | nil => simp [Index.Within]
    | cons => exact hi.elim
  | cons n ns ih =>
    cases idx with
    | nil => exact hi.elim
    | cons i is =>
      cases k with
      | zero => trivial
      | succ k => exact ⟨hi.1, ih hi.2 k⟩

theorem within_drop {idx lens : List Nat} (hi : Index.Within idx lens) (k : Nat) :
    Index.Within (idx.drop k) (lens.drop k) := by
  induction lens generalizing idx k with
  | nil =>
    cases idx with
    | nil => simp [Index.Within]
    | cons => exact hi.elim
  | cons n ns ih =>
    cases idx with
    | nil => exact hi.elim
    | cons i is =>
      cases k with
      | zero => exact hi
      | succ k => exact ih hi.2 k

/-- A position lies in one lane, at one place. -/
theorem lane_place_unique {count after o r j o' r' j' : Nat} (hr : r < after) (hr' : r' < after)
    (hj : j < count) (hj' : j' < count)
    (h : o * (count * after) + r + j * after = o' * (count * after) + r' + j' * after) :
    o = o' ∧ r = r' ∧ j = j' := by
  have hform : ∀ o r j : Nat, o * (count * after) + r + j * after = r + after * (o * count + j) := by
    intro o r j
    ring
  rw [hform, hform] at h
  have hmod := congrArg (· % after) h
  have hdiv := congrArg (· / after) h
  have hpos : 0 < after := by omega
  simp only [Nat.add_mul_mod_self_left, Nat.mod_eq_of_lt hr, Nat.mod_eq_of_lt hr'] at hmod
  simp only [Nat.add_mul_div_left _ _ hpos, Nat.div_eq_of_lt hr, Nat.div_eq_of_lt hr',
    Nat.zero_add] at hdiv
  have hmod' := congrArg (· % count) hdiv
  simp only [Nat.mul_add_mod_self_right, Nat.mod_eq_of_lt hj, Nat.mod_eq_of_lt hj'] at hmod'
  subst hmod hmod'
  have hmul : o * count = o' * count := by omega
  exact ⟨Nat.eq_of_mul_eq_mul_right (by omega) hmul, rfl, rfl⟩

theorem mem_lane {first step count p : Nat} :
    p ∈ lane first step count ↔ ∃ j, j < count ∧ p = first + j * step := by
  simp [lane, eq_comm]

theorem nodup_lane {first step count : Nat} (h : 0 < step) : (lane first step count).Nodup := by
  refine List.Nodup.map (fun i j hij => ?_) List.nodup_range
  have hmul : i * step = j * step := by
    have hij' : first + i * step = first + j * step := hij
    omega
  exact Nat.eq_of_mul_eq_mul_right h hmul

theorem mem_lanes {before count after : Nat} {l : List Nat} :
    l ∈ lanes before count after ↔ ∃ o r, o < before ∧ r < after ∧
      l = lane (o * (count * after) + r) after count := by
  simp only [lanes, List.mem_flatMap, List.mem_map, List.mem_range]
  constructor
  · rintro ⟨o, ho, r, hr, rfl⟩
    exact ⟨o, r, ho, hr, rfl⟩
  · rintro ⟨o, r, ho, hr, rfl⟩
    exact ⟨o, ho, r, hr, rfl⟩

theorem disjoint_lanes (before count after : Nat) :
    (lanes before count after).Pairwise List.Disjoint := by
  have hdis : ∀ {o r o' r' : Nat}, r < after → r' < after → ¬(o = o' ∧ r = r') →
      List.Disjoint (lane (o * (count * after) + r) after count)
        (lane (o' * (count * after) + r') after count) := by
    intro o r o' r' hr hr' hne p hp hp'
    obtain ⟨j, hj, rfl⟩ := mem_lane.mp hp
    obtain ⟨j', hj', h⟩ := mem_lane.mp hp'
    obtain ⟨ho, hrr, -⟩ := lane_place_unique hr hr' hj hj' h
    exact hne ⟨ho, hrr⟩
  rw [lanes, List.pairwise_flatMap]
  constructor
  · intro o _
    rw [List.pairwise_map]
    refine List.pairwise_lt_range.imp_of_mem fun {r r'} hr hr' hlt => ?_
    exact hdis (List.mem_range.mp hr) (List.mem_range.mp hr') fun h => absurd h.2 (by omega)
  · refine List.pairwise_lt_range.imp fun {o o'} hlt l hl l' hl' => ?_
    obtain ⟨r, hr, rfl⟩ := List.mem_map.mp hl
    obtain ⟨r', hr', rfl⟩ := List.mem_map.mp hl'
    exact hdis (List.mem_range.mp hr) (List.mem_range.mp hr') fun h => absurd h.1 (by omega)

theorem size_foldl_normaliseLane (lanes : List (List Nat)) (es : Array Nat) :
    (lanes.foldl (normaliseLane num) es).size = es.size :=
  List.foldlRecOn (motive := fun es' : Array Nat => es'.size = es.size) lanes _ rfl
    fun es' h l _ => by rw [size_normaliseLane, h]

/-! ## The kernel -/

section Elements

variable {v : View} {es : Array Nat} {idx : List Nat}

theorem getD_elements (hi : Index.Within idx v.lens) :
    v.elements.toArray.getD (Index.position idx v.lens) 0 = v.read idx := by
  rw [Array.getD_eq_getD_getElem?, List.getElem?_toArray, View.elements_getElem?_position hi,
    Option.getD_some]

/-- An array that holds at every position what a tensor has there lists the tensor's elements. -/
theorem toList_eq_elements (hsize : es.size = v.lens.prod)
    (h : ∀ idx, Index.Within idx v.lens → es.getD (Index.position idx v.lens) 0 = v.read idx) :
    es.toList = v.elements := by
  refine List.ext_getElem? fun k => ?_
  by_cases hk : k < v.lens.prod
  · have hk' : k < (Index.indices v.lens).length := by rw [Index.length_indices]; exact hk
    have hread := h _ (Index.mem_indices.mp (List.getElem_mem hk'))
    rw [Index.position_getElem_indices hk'] at hread
    have hright : v.elements[k]? = some (v.read (Index.indices v.lens)[k]) := by
      rw [View.elements, List.getElem?_map, List.getElem?_eq_getElem hk', Option.map_some]
    have hlen : k < es.size := hsize ▸ hk
    rw [hright, ← hread, Array.getElem?_toList, Array.getD_eq_getD_getElem?,
      Array.getElem?_eq_getElem hlen, Option.getD_some]
  · rw [List.getElem?_eq_none (by rw [Array.length_toList, hsize]; omega),
      List.getElem?_eq_none (by rw [View.length_elements]; exact Nat.not_lt.mp hk)]

end Elements

/-- After all lanes, an element is its share of the one lane that it lies in. -/
theorem getD_foldl_lanes (num : Arithmetic) {axis count : Nat} {v : View} {idx : List Nat}
    (ha : v.lens[axis]? = some count) (hi : Index.Within idx v.lens) :
    ((lanes (v.lens.take axis).prod count (v.lens.drop (axis + 1)).prod).foldl (normaliseLane num)
        v.elements.toArray).getD (Index.position idx v.lens) 0 =
      (View.softmax num axis v).read idx := by
  have h : axis < v.lens.length := (List.getElem?_eq_some_iff.mp ha).1
  have hcount : v.lens.getD axis 0 = count := by
    rw [List.getD_eq_getElem?_getD, ha, Option.getD_some]
  generalize hafter : (v.lens.drop (axis + 1)).prod = after
  let o := Index.position (idx.take axis) (v.lens.take axis)
  let r := Index.position (idx.drop (axis + 1)) (v.lens.drop (axis + 1))
  have hset : ∀ j, Index.position (idx.set axis j) v.lens = o * (count * after) + r + j * after :=
    hafter ▸ position_set hi ha
  have hr : r < after := hafter ▸ Index.position_lt (within_drop hi _)
  have hl : lane (o * (count * after) + r) after count ∈
      lanes (v.lens.take axis).prod count after :=
    mem_lanes.mpr ⟨o, r, Index.position_lt (within_take hi _), hr, rfl⟩
  have hnd : ∀ l ∈ lanes (v.lens.take axis).prod count after, l.Nodup := by
    intro l hl
    obtain ⟨o, r, _, hr, rfl⟩ := mem_lanes.mp hl
    exact nodup_lane (by omega)
  have hj : idx.getD axis 0 < count := by
    rw [← hcount]
    exact (Index.within_iff_getD.mp hi).2 axis h
  have hself : Index.position idx v.lens = o * (count * after) + r + idx.getD axis 0 * after := by
    rw [← hset]
    congr 1
    have hlt : axis < idx.length := by rw [Index.length_of_within hi]; exact h
    rw [List.getD_eq_getElem?_getD, List.getElem?_eq_getElem hlt, Option.getD_some,
      List.set_getElem_self]
  have hmem : Index.position idx v.lens ∈ lane (o * (count * after) + r) after count :=
    mem_lane.mpr ⟨_, hj, hself⟩
  rw [getD_foldl_of_mem hnd (disjoint_lanes _ _ _) hl hmem
    (by rw [List.size_toArray, View.length_elements]; exact Index.position_lt hi)]
  have hvalues : ((lane (o * (count * after) + r) after count).map fun q =>
      v.elements.toArray.getD q 0) = v.lane axis idx := by
    rw [lane, View.lane, List.map_map, hcount]
    refine List.map_congr_left fun j hj => ?_
    rw [Function.comp_apply, ← hset]
    exact getD_elements (View.within_set hi (by rw [hcount]; exact List.mem_range.mp hj))
  unfold share View.softmax
  dsimp only
  rw [hvalues, getD_elements hi]

/-- The kernel computes in a copy of its input, if memory holds one. -/
theorem softmax_eq (num : Arithmetic) {axis : Nat} {v : View} (h : axis < v.lens.length) :
    softmax num axis v = do
      let copy ← v.held num.size
      return (View.softmax num axis copy).toTensor := by
  have ha : v.lens[axis]? = some v.lens[axis] := List.getElem?_eq_getElem h
  unfold softmax
  rw [ha]
  cases hcopy : v.held num.size with
  | none => rfl
  | some copy =>
    obtain ⟨-, rfl⟩ := View.held_eq_some.mp hcopy
    refine congrArg Outcome.value (congrArg (Tensor.mk copy.lens) ?_)
    refine toList_eq_elements (v := View.softmax num axis copy) ?_
      fun idx hi => getD_foldl_lanes num ha hi
    rw [size_foldl_normaliseLane, List.size_toArray, View.length_elements]
    rfl

theorem softmax_eq_value {num : Arithmetic} {axis : Nat} {v : View} {r : Tensor}
    (h : axis < v.lens.length) : softmax num axis v = .value r ↔
      View.isListable num.size v.lens = true ∧ r = (View.softmax num axis v).toTensor := by
  rw [softmax_eq num h, View.held]
  split
  · next hlist =>
    rw [and_iff_right hlist]
    exact ⟨fun hr => by cases hr; rfl, fun hr => by rw [hr]; rfl⟩
  · next hlist => exact iff_of_false (fun hr => nomatch hr) fun hr => hlist hr.1

end Kernel
end TensorGraph
