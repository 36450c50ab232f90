/-
Lanes of a tensor.

The indices that agree except on an axis are a `Lane`, listed in the order of that axis.  Softmax
goes through a dense copy one lane after the other and writes each where it stands; lanes cover
every position once, so a pass over a lane starts from the elements that the tensor came with.

The result is `softmax_exact`, which is about a host argument of any strides: every element is
its share of its own lane, read from the argument.
-/
import TensorGraph.Proofs.Kernel.Layout
import TensorGraph.Proofs.Kernel.Softmax

namespace TensorGraph

/-! ## Indices -/

namespace Index

variable {lens idx jdx : List Nat} {axis : Nat}

/-- The indices that agree with an index except on an axis, in the order of that axis. -/
structure Lane (lens : List Nat) (axis : Nat) (idx : List Nat) (lane : List (List Nat)) : Prop where
  mem : ∀ jdx, jdx ∈ lane ↔ Within jdx lens ∧ ∀ k, k ≠ axis → jdx[k]? = idx[k]?
  ordered : lane.Pairwise fun i j => i.getD axis 0 < j.getD axis 0

def along (lens : List Nat) (axis : Nat) (idx : List Nat) : List (List Nat) :=
  (List.range (lens.getD axis 0)).map fun j => idx.set axis j

theorem getD_set_self (h : axis < idx.length) (j : Nat) : (idx.set axis j).getD axis 0 = j := by
  rw [List.getD_eq_getElem?_getD, List.getElem?_set_self h, Option.getD_some]

theorem lane_along (hi : Within idx lens) (ha : axis < lens.length) :
    Lane lens axis idx (along lens axis idx) := by
  have hlen : axis < idx.length := length_of_within hi ▸ ha
  refine ⟨fun jdx => ?_, ?_⟩
  · unfold along
    rw [List.mem_map]
    constructor
    · rintro ⟨j, hj, rfl⟩
      exact ⟨View.within_set hi (List.mem_range.mp hj),
        fun k hk => List.getElem?_set_ne (Ne.symm hk)⟩
    · rintro ⟨hjdx, hoff⟩
      have hlen' : axis < jdx.length := length_of_within hjdx ▸ ha
      refine ⟨jdx.getD axis 0, List.mem_range.mpr ((within_iff_getD.mp hjdx).2 axis ha), ?_⟩
      refine List.ext_getElem? fun k => ?_
      by_cases hk : k = axis
      · subst hk
        rw [List.getElem?_set_self hlen, List.getD_eq_getElem?_getD, List.getElem?_eq_getElem hlen',
          Option.getD_some]
      · rw [List.getElem?_set_ne (Ne.symm hk), hoff k hk]
  · unfold along
    rw [List.pairwise_map]
    refine List.pairwise_lt_range.imp fun hlt => ?_
    rw [getD_set_self hlen, getD_set_self hlen]
    exact hlt

/-- There is one lane along an axis through an index. -/
theorem Lane.unique {lane lane' : List (List Nat)} (h : Lane lens axis idx lane)
    (h' : Lane lens axis idx lane') : lane = lane' := by
  have hirrefl : ∀ {l : List (List Nat)}, Lane lens axis idx l → l.Nodup := fun hl =>
    hl.ordered.imp fun hlt heq => absurd hlt (by rw [heq]; exact Nat.lt_irrefl _)
  have hperm : lane.Perm lane' :=
    (List.perm_ext_iff_of_nodup (hirrefl h) (hirrefl h')).mpr fun jdx =>
      (h.mem jdx).trans (h'.mem jdx).symm
  exact hperm.eq_of_pairwise (fun _ _ _ _ hlt hgt => absurd hgt (Nat.lt_asymm hlt)) h.ordered
    h'.ordered

end Index

namespace Kernel

variable {num : Arithmetic} {axis before count after : Nat} {v : View}

/-! ## Positions -/

def lanesOf (lens : List Nat) (axis : Nat) : List (List Nat) :=
  lanes (lens.take axis).prod (lens.getD axis 0) (lens.drop (axis + 1)).prod

theorem prod_split {lens : List Nat} (h : axis < lens.length) :
    lens.prod = (lens.take axis).prod * (lens.getD axis 0 * (lens.drop (axis + 1)).prod) := by
  rw [List.getD_eq_getElem?_getD, List.getElem?_eq_getElem h, Option.getD_some, ← List.prod_cons,
    List.cons_getElem_drop_succ, List.prod_take_mul_prod_drop]

theorem nodup_lanes {l : List Nat} (h : l ∈ lanes before count after) : l.Nodup := by
  obtain ⟨o, r, -, hr, rfl⟩ := mem_lanes.mp h
  exact nodup_lane (Nat.zero_lt_of_lt hr)

/-- Lanes cover every position once. -/
theorem flatten_lanes_perm (before count after : Nat) :
    (lanes before count after).flatten.Perm (List.range (before * (count * after))) := by
  have hnd : (lanes before count after).flatten.Nodup :=
    List.nodup_flatten.mpr ⟨fun _ h => nodup_lanes h, disjoint_lanes before count after⟩
  refine (List.perm_ext_iff_of_nodup hnd List.nodup_range).mpr fun p => ?_
  rw [List.mem_flatten, List.mem_range]
  constructor
  · rintro ⟨l, hl, hp⟩
    obtain ⟨o, r, ho, hr, rfl⟩ := mem_lanes.mp hl
    obtain ⟨j, hj, rfl⟩ := mem_lane.mp hp
    calc o * (count * after) + r + j * after
        < o * (count * after) + (j + 1) * after := by rw [Nat.succ_mul]; omega
      _ ≤ o * (count * after) + count * after :=
        Nat.add_le_add_left (Nat.mul_le_mul_right after hj) _
      _ = (o + 1) * (count * after) := (Nat.succ_mul _ _).symm
      _ ≤ before * (count * after) := Nat.mul_le_mul_right _ ho
  · intro hp
    have hafter : 0 < after := by
      rcases Nat.eq_zero_or_pos after with rfl | h
      · simp at hp
      · exact h
    have hblock : 0 < count * after := by
      rcases Nat.eq_zero_or_pos (count * after) with h | h
      · rw [h] at hp
        simp at hp
      · exact h
    refine ⟨_, mem_lanes.mpr ⟨p / (count * after), p % after, Nat.div_lt_of_lt_mul
      (by rwa [Nat.mul_comm]), Nat.mod_lt _ hafter, rfl⟩, mem_lane.mpr
        ⟨p % (count * after) / after, Nat.div_lt_of_lt_mul
          ((Nat.mod_lt p hblock).trans_eq (Nat.mul_comm count after)), ?_⟩⟩
    have hmod : p % (count * after) % after = p % after :=
      Nat.mod_mod_of_dvd p (Nat.dvd_mul_left after count)
    have hblocks := Nat.div_add_mod p (count * after)
    have hsteps := Nat.div_add_mod (p % (count * after)) after
    rw [hmod] at hsteps
    rw [Nat.mul_comm (p / (count * after)), Nat.mul_comm (p % (count * after) / after)]
    omega

/-- The positions of the indices of a lane are a lane that softmax goes through. -/
theorem map_position_along {lens idx : List Nat} (hi : Index.Within idx lens)
    (ha : axis < lens.length) :
    (Index.along lens axis idx).map (Index.position · lens) ∈ lanesOf lens axis := by
  have hcount : lens[axis]? = some (lens.getD axis 0) := by
    rw [List.getD_eq_getElem?_getD, List.getElem?_eq_getElem ha, Option.getD_some]
  refine mem_lanes.mpr ⟨_, _, Index.position_lt (within_take hi axis),
    Index.position_lt (within_drop hi (axis + 1)), ?_⟩
  unfold Index.along lane
  rw [List.map_map]
  exact List.map_congr_left fun j _ => position_set hi hcount j

/-- The passes over other lanes leave a lane as it came. -/
theorem getD_foldl_of_append {done rest : List (List Nat)} {l : List Nat}
    (h : lanes before count after = done ++ l :: rest) (es : Array Nat) {p : Nat} (hp : p ∈ l) :
    (done.foldl (normaliseLane num) es).getD p 0 = es.getD p 0 := by
  have hmem : ∀ m ∈ done, m ∈ lanes before count after := fun m hm => by
    rw [h]
    exact List.mem_append_left _ hm
  have hdis := disjoint_lanes before count after
  rw [h, List.pairwise_append] at hdis
  exact getD_foldl_of_notMem (fun m hm => nodup_lanes (hmem m hm))
    (fun m hm hpm => hdis.2.2 m hm l List.mem_cons_self hpm hp) es

/-! ## Elements -/

theorem lane_eq_map (v : View) (axis : Nat) (idx : List Nat) :
    v.lane axis idx = (Index.along v.lens axis idx).map v.read := by
  unfold View.lane Index.along
  rw [List.map_map]
  rfl

theorem at?_of_softmax {r : Tensor} {idx : List Nat} (ha : axis < v.lens.length)
    (hi : Index.Within idx v.lens) (h : softmax num axis v = .value r) :
    r.view.at? idx = some ((View.softmax num axis v).read idx) := by
  obtain ⟨-, rfl⟩ := (softmax_eq_value ha).mp h
  have hview := View.view_toTensor (View.softmax num axis v)
  have hi' : Index.Within idx (View.softmax num axis v).toTensor.view.lens := hi
  rw [View.at?_of_within hi', hview.2 idx hi']

/-- What softmax gives at an index is decided by the elements of its lane. -/
theorem read_softmax_congr {w : View} {idx : List Nat} (hl : w.lens = v.lens)
    (hi : Index.Within idx v.lens) (ha : axis < v.lens.length)
    (h : ∀ jdx ∈ Index.along v.lens axis idx, w.read jdx = v.read jdx) :
    (View.softmax num axis w).read idx = (View.softmax num axis v).read idx := by
  have hlane : w.lane axis idx = v.lane axis idx := by
    rw [lane_eq_map, lane_eq_map, hl]
    exact List.map_congr_left h
  have hself : idx ∈ Index.along v.lens axis idx :=
    ((Index.lane_along hi ha).mem idx).mpr ⟨hi, fun _ _ => rfl⟩
  unfold View.softmax
  dsimp only
  rw [hlane, h idx hself]

end Kernel

namespace Argument

/-- What is stored can be read back. -/
theorem Stores.tensor? {a : Argument} {s : Shape} {v : View} (h : a.Stores s v) :
    ∃ u, a.tensor? = some u ∧ u.Agrees v := by
  obtain ⟨rfl, b, hb, -, -, -, hagrees⟩ := h
  exact ⟨_, by unfold Argument.tensor?; rw [hb], hagrees⟩

end Argument

namespace Kernel

theorem onHost_softmax_ends {a : Argument} {t : Shape} (key : Nat)
    (hnum : t.dtype.arithmetic = some num) (h : Operator.Infers (.softmax axis) [a.shape] t)
    (hp : a.shape.Populated) (hstores : a.Stores a.shape v) :
    (onHost key (.softmax axis) t [a]).Ends (a.shape.Addressable ∧ t.Holdable)
      (·.Stores t (View.softmax num axis v)) := by
  have hpopulated : ∀ s ∈ [a.shape], s.Populated := List.forall_mem_singleton.mpr hp
  have hlens : t.lens = a.shape.lens := by
    cases h with
    | softmax hf ha ht => exact (Shape.asStandard_eq_some ht).1
  have hd : (Operator.softmax axis).denote t [v] = some (View.softmax num axis v) :=
    Operator.denote_of_arithmetic rfl Operator.noConfusion hnum
  exact numeric_ends key h rfl Operator.noConfusion (.cons hstores .nil) hpopulated
    (h.populated_of_isCompute rfl hpopulated)
    (fun hfit => ⟨hlens ▸ hfit.1.isCountable, trivial⟩) And.right
    (fun hfit => List.forall_mem_singleton.mpr hfit.1) hd

end Kernel

/-- Softmax gives every element its share of its lane.  An argument over host storage whose shape
inference accepts is read through its strides, and a dense copy of it is rewritten lane by lane:
lanes cover each position once, and every pass finds the elements of its lane as they came.  The
result has the inferred shape, if memory holds it.  At every index it has the exponential of the
distance from the largest element of the lane over the sum of those, in double precision and
narrowed once, where the lane is read from the argument in the order of the axis; so what is there
depends on nothing outside the lane. -/
theorem softmax_exact (axis : Nat) (a : Argument) (t : Shape) (key : Nat)
    (hinfer : (Operator.softmax axis).infer [a.shape] = .value t) (ha : a.OnHost)
    (hp : a.shape.Populated) :
    ∃ num v, t.dtype.arithmetic = some num ∧ a.tensor? = some v ∧ v.lens = t.lens ∧
      (Kernel.lanesOf t.lens axis).flatten.Perm (List.range t.lens.prod) ∧
      (∀ done lane rest, Kernel.lanesOf t.lens axis = done ++ lane :: rest →
        ∀ p ∈ lane, (done.foldl (Kernel.normaliseLane num) v.elements.toArray).getD p 0 =
          v.elements.toArray.getD p 0) ∧
      (Kernel.onHost key (.softmax axis) t [a]).Ends (a.shape.Addressable ∧ t.Holdable) fun r =>
        r.shape = t ∧ ∃ u, r.tensor? = some u ∧ ∀ idx, Index.Within idx t.lens →
          ∃ lane m s, Index.Lane t.lens axis idx lane ∧
            lane.map (Index.position · t.lens) ∈ Kernel.lanesOf t.lens axis ∧
            m = (lane.map v.read).foldl (fun m x => Format.double.maximum m (num.widen x))
              Format.double.negativeInfinity ∧
            s = (lane.map v.read).foldl (fun s x => Format.double.add s
              (Elementary.exp.double (Format.double.sub (num.widen x) m)))
              Format.double.negativeZero ∧
            u.read idx = num.narrow (Format.double.div
              (Elementary.exp.double (Format.double.sub (num.widen (v.read idx)) m)) s) ∧
            ∀ w r', w.lens = t.lens → (∀ jdx ∈ lane, w.read jdx = v.read jdx) →
              Kernel.softmax num axis w = .value r' → r'.view.at? idx = some (u.read idx) := by
  have hinfers := Operator.infer_eq_value.mp hinfer
  obtain ⟨num, hnum⟩ := Operator.exists_arithmetic (hinfers.isFloat rfl Operator.noConfusion).1
  obtain ⟨v, hv, hstores⟩ := ha.stores hp
  have hvl : v.lens = a.shape.lens := Argument.lens_of_tensor? hv
  obtain ⟨hl, hrank⟩ : v.lens = t.lens ∧ axis < t.lens.length := by
    cases hinfers with
    | softmax hf hax ht =>
      have hs := (Shape.asStandard_eq_some ht).1
      exact ⟨hvl.trans hs.symm, hs ▸ a.shape.length_lens ▸ hax⟩
  refine ⟨num, v, hnum, hv, hl, ?_, fun done lane rest h p hpl => ?_, ?_⟩
  · rw [Kernel.prod_split hrank]
    exact Kernel.flatten_lanes_perm _ _ _
  · exact Kernel.getD_foldl_of_append h _ hpl
  · refine (Kernel.onHost_softmax_ends key hnum hinfers hp hstores).mono fun r hr => ?_
    obtain ⟨u, hu, hagrees⟩ := hr.tensor?
    refine ⟨hr.shape, u, hu, fun idx hi => ?_⟩
    have hiv : Index.Within idx v.lens := hl ▸ hi
    have hread : u.read idx = (View.softmax num axis v).read idx :=
      hagrees.2 idx (hagrees.1 ▸ hiv)
    have hlane := Kernel.lane_eq_map v axis idx
    rw [hl] at hlane
    refine ⟨Index.along t.lens axis idx, _, _, Index.lane_along hi hrank,
      Kernel.map_position_along hi hrank, rfl, rfl, ?_, fun w r' hw hagree hr' => ?_⟩
    · rw [hread, ← hlane]
      rfl
    · rw [Kernel.at?_of_softmax (hw ▸ hrank) (hw ▸ hi) hr', hread]
      exact congrArg some
        (Kernel.read_softmax_congr (hw.trans hl.symm) hiv (hl ▸ hrank) (hl ▸ hagree))

def repeatedColumns : Argument :=
  ⟨⟨.float, [⟨2, 0⟩, ⟨2, 1⟩, ⟨2, 2⟩]⟩, some (.host (.ofBytes 0 (Bytes.ofWords 4
    [0x3f800000, 0x40000000, 0x40400000, 0x40800000])))⟩

/-- Along the middle axis the second column of the second matrix is a lane of its own. -/
theorem softmax_exact_repeatedColumns : ∃ num r u m s,
    Dtype.float.arithmetic = some num ∧
    Kernel.onHost 1 (.softmax 1) ⟨.float, [⟨2, 4⟩, ⟨2, 2⟩, ⟨2, 1⟩]⟩ [repeatedColumns] = .value r ∧
    r.tensor? = some u ∧
    m = [0x40400000, 0x40800000].foldl (fun m x => Format.double.maximum m (num.widen x))
      Format.double.negativeInfinity ∧
    s = [0x40400000, 0x40800000].foldl (fun s x => Format.double.add s
      (Elementary.exp.double (Format.double.sub (num.widen x) m))) Format.double.negativeZero ∧
    u.read [1, 0, 1] = num.narrow (Format.double.div
      (Elementary.exp.double (Format.double.sub (num.widen 0x40400000) m)) s) := by
  have hreadable : repeatedColumns.Readable :=
    Argument.readable_ofBytes (by unfold Shape.Populated; decide) (by decide) (by decide)
  obtain ⟨num, v, hnum, hv, -, -, -, hends⟩ :=
    softmax_exact 1 repeatedColumns ⟨.float, [⟨2, 4⟩, ⟨2, 2⟩, ⟨2, 1⟩]⟩ 1 (by rfl)
      hreadable.onHost hreadable.populated
  cases hv
  obtain ⟨r, hr, -, u, hu, hread⟩ := hends.eq_value_of_fits ⟨hreadable.addressable, by decide⟩
  obtain ⟨lane, m, s, hlane, -, hm, hs, helement, -⟩ := hread [1, 0, 1] (by decide)
  obtain rfl : lane = [[1, 0, 1], [1, 1, 1]] :=
    hlane.unique (Index.lane_along (by decide) (by decide))
  exact ⟨num, r, u, m, s, hnum, hr, hu, hm, hs, helement⟩

end TensorGraph
