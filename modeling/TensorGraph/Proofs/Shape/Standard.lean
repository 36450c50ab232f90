/-
What the layout predicates of a shape mean.

The predicates compare strides and sizes.  What they are used for is where elements lie: a shape
passes for row-major exactly if every index lies at its row-major position, unit axes and their
strides aside, and its span is one more than the farthest offset.  Row-major shapes themselves have
all the properties at once, `Shape.Compact`, and reordering the axes changes no size.

The result is `layout_exact`.
-/
import TensorGraph.Proofs.Transpose

namespace TensorGraph

namespace Axis

variable {lens : List Nat} {axes rowMajorAxes : List Axis} {count : Nat}

/-- Row-major axes exist if the number of their elements is a word. -/
theorem exists_rowMajor (hpos : ∀ n ∈ lens, 0 < n) (hle : lens.prod ≤ Word.maxUnsigned) :
    ∃ axes, rowMajorWithCount lens = some (axes, lens.prod) := by
  refine rowMajorWithCount_of_filter_le ?_
  rwa [List.filter_eq_self.mpr fun n hn => decide_eq_true (Nat.pos_iff_ne_zero.mp (hpos n hn))]

theorem count_le_of_rowMajorWithCount (h : rowMajorWithCount lens = some (axes, count)) :
    count ≤ Word.maxUnsigned := by
  cases lens with
  | nil =>
    cases h
    decide
  | cons n ns =>
    obtain ⟨tail, inner, -, hcount, -⟩ := rowMajorWithCount_cons_eq_some.mp h
    obtain ⟨hle, rfl⟩ := Word.fit_eq_some.mp hcount
    exact hle

/-- Row-major strides do not increase. -/
theorem pairwise_stride_of_rowMajorWithCount (h : rowMajorWithCount lens = some (axes, count))
    (hpos : ∀ n ∈ lens, 0 < n) : axes.Pairwise fun a b => b.stride ≤ a.stride := by
  induction lens generalizing axes count with
  | nil =>
    cases h
    exact .nil
  | cons n ns ih =>
    obtain ⟨tail, inner, hr, -, rfl⟩ := rowMajorWithCount_cons_eq_some.mp h
    rw [List.forall_mem_cons] at hpos
    rw [List.pairwise_cons]
    refine ⟨fun b hb => ?_, ih hr hpos.2⟩
    exact (stride_le_of_rowMajorWithCount hr hpos.2 b hb).trans_eq
      (count_rowMajorWithCount hr).symm

theorem stride_pos_of_rowMajorWithCount (h : rowMajorWithCount lens = some (axes, count))
    (hpos : ∀ n ∈ lens, 0 < n) : ∀ a ∈ axes, 0 < a.stride := by
  induction lens generalizing axes count with
  | nil =>
    cases h
    exact fun _ ha => nomatch ha
  | cons n ns ih =>
    obtain ⟨tail, inner, hr, -, rfl⟩ := rowMajorWithCount_cons_eq_some.mp h
    rw [List.forall_mem_cons] at hpos ⊢
    exact ⟨(List.prod_pos hpos.2).trans_eq (count_rowMajorWithCount hr).symm, ih hr hpos.2⟩

/-- Strides that lead every index to its row-major position are the row-major ones, except on axes
of one position.  The stride of an axis is seen by moving one step along it. -/
theorem stride_eq_of_offset (h : rowMajorWithCount (axes.map extent) = some (rowMajorAxes, count))
    (hpos : ∀ a ∈ axes, 0 < a.extent)
    (hoffset : ∀ idx, Index.Within idx (axes.map extent) →
      Index.offset idx axes = Index.position idx (axes.map extent)) :
    ∀ ab ∈ axes.zip rowMajorAxes, ab.1.extent = 1 ∨ ab.1.stride = ab.2.stride := by
  induction axes generalizing rowMajorAxes count with
  | nil => exact fun _ hab => nomatch hab
  | cons a as ih =>
    obtain ⟨tail, inner, hr, -, rfl⟩ := rowMajorWithCount_cons_eq_some.mp h
    rw [List.forall_mem_cons] at hpos
    have htail : ∀ idx, Index.Within idx (as.map extent) →
        Index.offset idx as = Index.position idx (as.map extent) := by
      intro idx hidx
      have hzero := hoffset (0 :: idx) ⟨hpos.1, hidx⟩
      rwa [List.map_cons, Index.offset_cons, Index.position_cons, Nat.zero_mul, Nat.zero_mul,
        Nat.zero_add, Nat.zero_add] at hzero
    rw [List.zip_cons_cons, List.forall_mem_cons]
    refine ⟨?_, ih hr hpos.2 htail⟩
    rcases Nat.eq_or_lt_of_le hpos.1 with hone | hmany
    · exact Or.inl hone.symm
    · obtain ⟨idx, hidx, -⟩ := Index.exists_offset_eq_reach hpos.2
      have hstep := hoffset (1 :: idx) ⟨hmany, hidx⟩
      rw [List.map_cons, Index.offset_cons, Index.position_cons, htail idx hidx, Nat.one_mul,
        Nat.one_mul] at hstep
      have hstride : a.stride = (as.map extent).prod := Nat.add_right_cancel hstep
      exact Or.inr (hstride.trans (count_rowMajorWithCount hr).symm)

end Axis

namespace Shape

variable {s t : Shape} {permutation : List Nat}

theorem nonincreasing_of_pairwise {ns : List Nat} (h : ns.Pairwise fun a b => b ≤ a) :
    nonincreasing ns = true := by
  induction ns with
  | nil => rfl
  | cons a ns ih =>
    obtain ⟨hhead, htail⟩ := List.pairwise_cons.mp h
    cases ns with
    | nil => rfl
    | cons b ns =>
      show (decide (a ≥ b) && nonincreasing (b :: ns)) = true
      rw [ih htail, Bool.and_true]
      exact decide_eq_true (hhead b List.mem_cons_self)

/-! ## Row-major shapes -/

theorem prod_le_of_standard {d : Dtype} {lens : List Nat} (h : standard d lens = some s) :
    s.lens.prod ≤ Word.maxUnsigned := by
  obtain ⟨axes, haxes, -⟩ := standard_eq_some.mp h
  obtain ⟨count, hcount⟩ := Axis.rowMajor_eq_some.mp haxes
  rw [lens_of_standard h, ← Axis.count_rowMajorWithCount hcount]
  exact Axis.count_le_of_rowMajorWithCount hcount

/-- A shape passes for row-major exactly if every index lies at its row-major position. -/
theorem isStandard_iff_offset (hp : s.Populated) (hle : s.lens.prod ≤ Word.maxUnsigned) :
    ∃ b, s.isStandard = some b ∧ (b = true ↔
      ∀ idx, Index.Within idx s.lens → Index.offset idx s.axes = Index.position idx s.lens) := by
  obtain ⟨axes, hr⟩ := Axis.exists_rowMajor hp hle
  have hrow : Axis.rowMajor s.lens = some axes := Axis.rowMajor_eq_some.mpr ⟨_, hr⟩
  cases hstd : s.isStandard with
  | none =>
    rw [isStandard_eq_none, hrow] at hstd
    cases hstd
  | some b =>
    refine ⟨b, rfl, fun hb idx => offset_of_isStandard (hb ▸ hstd), fun hoffset => ?_⟩
    have hzip := Axis.stride_eq_of_offset hr (fun _ => hp.extent_pos) hoffset
    rw [isStandard_eq_some_true.mpr ⟨axes, hrow, hzip⟩] at hstd
    exact (Option.some.inj hstd).symm

/-- No row-major shape repeats an element. -/
theorem isBroadcast_of_isStandard (hp : s.Populated) (h : s.isStandard = some true) :
    s.isBroadcast = false := by
  obtain ⟨axes, hrow, hzip⟩ := isStandard_eq_some_true.mp h
  obtain ⟨count, hr⟩ := Axis.rowMajor_eq_some.mp hrow
  have hlength : axes.length = s.axes.length := by
    rw [← List.length_map Axis.extent, Axis.extents_rowMajor hrow, length_lens]
    rfl
  unfold isBroadcast
  rw [List.any_eq_false]
  intro a ha
  obtain ⟨k, hk, rfl⟩ := List.mem_iff_getElem.mp ha
  have hk' : k < axes.length := hlength ▸ hk
  have hmem : (s.axes[k], axes[k]) ∈ s.axes.zip axes := by
    rw [← List.getElem_zip (h := by rw [List.length_zip]; omega)]
    exact List.getElem_mem _
  have hpos := Axis.stride_pos_of_rowMajorWithCount hr hp axes[k] (List.getElem_mem hk')
  have hsame := hzip _ hmem
  simp only [Bool.and_eq_true, decide_eq_true_eq] at hsame ⊢
  omega

/-- Under a row-major shape the elements are the words of the storage, one behind the other. -/
theorem elements_ofBytes_of_isStandard (h : s.isStandard = some true) (size : Nat) (bytes : Bytes) :
    (View.ofBytes s size bytes).elements =
      (List.range s.lens.prod).map fun k => bytes.wordAt (k * size) size := by
  rw [← Index.map_position_indices, List.map_map]
  refine List.map_congr_left fun idx hidx => ?_
  show bytes.wordAt (Index.offset idx s.axes * size) size =
    bytes.wordAt (Index.position idx s.lens * size) size
  rw [offset_of_isStandard h (Index.mem_indices.mp hidx)]

theorem isPacked_eq_some_true : s.isPacked = some true ↔
    ∃ n, s.elements = some n ∧ s.elementSpace = some n := by
  unfold isPacked
  cases s.elements with
  | none => simp
  | some count =>
    cases s.elementSpace with
    | none => simp
    | some space => simp [eq_comm]

/-- Whether a shape is row-major and packed, with no axis before one of larger stride and none that
repeats an element, and has one size, which is a word, for its elements and for their places. -/
structure Compact (s : Shape) : Prop where
  standard : s.isStandard = some true
  packed : s.isPacked = some true
  untransposed : s.isTransposed = false
  unrepeated : s.isBroadcast = false
  sizes : ∃ n, s.elements = some n ∧ s.elementSpace = some n

theorem compact_of_standard {d : Dtype} {lens : List Nat} (h : standard d lens = some s)
    (hpos : ∀ n ∈ lens, 0 < n) : s.Compact := by
  have hlens := lens_of_standard h
  have hp : s.Populated := fun n hn => hpos n (hlens ▸ hn)
  have hspace : s.space = s.lens.prod := hlens ▸ space_of_standard h hpos
  obtain ⟨axes, hrow, hs⟩ := standard_eq_some.mp h
  obtain ⟨count, hr⟩ := Axis.rowMajor_eq_some.mp hrow
  have haxes : s.axes = axes := congrArg Shape.axes hs
  have hword : s.lens.prod ≤ Word.maxUnsigned := prod_le_of_standard h
  have helements : s.elements = some s.lens.prod := by
    rw [elements_eq_fit hp, Word.fit_of_le hword]
  have helementSpace : s.elementSpace = some s.lens.prod := by
    rw [elementSpace_eq_fit hp, hspace, Word.fit_of_le hword]
  refine ⟨isStandard_of_standard h, isPacked_eq_some_true.mpr ⟨_, helements, helementSpace⟩, ?_,
    isBroadcast_of_isStandard hp (isStandard_of_standard h), s.lens.prod, helements,
    helementSpace⟩
  have hpairwise := (Axis.pairwise_stride_of_rowMajorWithCount hr hpos).filter
    fun a => a.extent ≠ 1
  unfold isTransposed
  rw [haxes, nonincreasing_of_pairwise (List.pairwise_map.mpr hpairwise)]
  rfl

/-! ## Permuted shapes -/

theorem prod_lens_permute (hperm : permutation.Perm (List.range s.rank))
    (h : s.permute permutation = some t) : t.lens.prod = s.lens.prod :=
  ((axes_permute_perm (Operator.isPermutation_iff.mpr hperm) h).map Axis.extent).prod_eq

theorem elements_permute (hp : s.Populated) (hperm : permutation.Perm (List.range s.rank))
    (h : s.permute permutation = some t) : t.elements = s.elements := by
  have hpt := populated_permute (Operator.isPermutation_iff.mpr hperm) h hp
  rw [elements_eq_fit hp, elements_eq_fit hpt, prod_lens_permute hperm h]

theorem elementSpace_permute (hp : s.Populated) (hperm : permutation.Perm (List.range s.rank))
    (h : s.permute permutation = some t) : t.elementSpace = s.elementSpace := by
  have hp' := Operator.isPermutation_iff.mpr hperm
  rw [elementSpace_eq_fit hp, elementSpace_eq_fit (populated_permute hp' h hp), space_permute hp' h]

theorem isBroadcast_permute (hperm : permutation.Perm (List.range s.rank))
    (h : s.permute permutation = some t) : t.isBroadcast = s.isBroadcast :=
  (axes_permute_perm (Operator.isPermutation_iff.mpr hperm) h).any_eq

theorem isScalar_permute (hperm : permutation.Perm (List.range s.rank))
    (h : s.permute permutation = some t) : t.isScalar = s.isScalar :=
  (axes_permute_perm (Operator.isPermutation_iff.mpr hperm) h).all_eq

end Shape

/-- The predicates and sizes of a shape say where its elements lie.  It is row-major exactly if
every index lies at its row-major position, and then every row-major shape of as many elements
reads the same elements from any storage; its span is one more than the farthest offset.  The
row-major shape of its extents, like every one whose strides are words, is compact, and no order of
its axes changes its sizes, whether it repeats an element or whether it is a scalar. -/
theorem layout_exact {s : Shape} {count space : Nat} (hp : s.Populated)
    (hcount : s.elements = some count) (hspace : s.elementSpace = some space) :
    (∃ b, s.isStandard = some b ∧
      (b = true ↔ ∀ idx, Index.Within idx s.lens →
        Index.offset idx s.axes = Index.position idx s.lens) ∧
      (b = true → ∀ t : Shape, t.isStandard = some true → t.lens.prod = s.lens.prod →
        ∀ size bytes, (View.ofBytes t size bytes).elements =
          (View.ofBytes s size bytes).elements)) ∧
    (∀ idx, Index.Within idx s.lens → Index.offset idx s.axes < space) ∧
    (∃ idx, Index.Within idx s.lens ∧ Index.offset idx s.axes + 1 = space) ∧
    (∃ t, s.asStandard = some t ∧ t.Compact) ∧
    (∀ d lens t, (∀ n ∈ lens, 0 < n) → Shape.standard d lens = some t → t.Compact) ∧
    ∀ permutation, permutation.Perm (List.range s.rank) → ∃ t, s.permute permutation = some t ∧
      t.elements = s.elements ∧ t.elementSpace = s.elementSpace ∧
      t.isBroadcast = s.isBroadcast ∧ t.isScalar = s.isScalar := by
  rw [Shape.elements_eq_fit hp, Word.fit_eq_some] at hcount
  rw [Shape.elementSpace_eq_fit hp, Word.fit_eq_some] at hspace
  obtain ⟨-, rfl⟩ := hspace
  refine ⟨?_, fun idx hidx => Nat.lt_succ_of_le (Index.offset_le_reach hidx), ?_, ?_,
    fun d lens t hpos ht => Shape.compact_of_standard ht hpos, fun permutation hperm => ?_⟩
  · obtain ⟨b, hb, hiff⟩ := Shape.isStandard_iff_offset hp hcount.1
    refine ⟨b, hb, hiff, fun htrue t ht hprod size bytes => ?_⟩
    rw [Shape.elements_ofBytes_of_isStandard ht, hprod,
      Shape.elements_ofBytes_of_isStandard (htrue ▸ hb)]
  · obtain ⟨idx, hidx, hoffset⟩ := Index.exists_offset_eq_reach fun _ => hp.extent_pos
    exact ⟨idx, hidx, congrArg (· + 1) hoffset⟩
  · obtain ⟨axes, hr⟩ := Axis.exists_rowMajor hp hcount.1
    have ht : s.asStandard = some ⟨s.dtype, axes⟩ :=
      Shape.standard_eq_some.mpr ⟨axes, Axis.rowMajor_eq_some.mpr ⟨_, hr⟩, rfl⟩
    exact ⟨_, ht, Shape.compact_of_standard ht hp⟩
  · have ht := Shape.permute_of_perm hperm
    exact ⟨_, ht, Shape.elements_permute hp hperm ht, Shape.elementSpace_permute hp hperm ht,
      Shape.isBroadcast_permute hperm ht, Shape.isScalar_permute hperm ht⟩

/-- Two steps with a gap behind each of them and an axis of one position between: the six elements
span twelve places, the last of them at the end, and taking the axes in another order changes
neither number. -/
theorem layout_exact_gapped :
    ∃ s t : Shape, s = ⟨.float, [⟨2, 7⟩, ⟨1, 5⟩, ⟨3, 2⟩]⟩ ∧ s.isStandard = some false ∧
      (∃ idx, Index.Within idx s.lens ∧ Index.offset idx s.axes + 1 = 12) ∧
      s.permute [2, 0, 1] = some t ∧ t.elements = some 6 ∧ t.elementSpace = some 12 := by
  have hcount : Shape.elements ⟨.float, [⟨2, 7⟩, ⟨1, 5⟩, ⟨3, 2⟩]⟩ = some 6 := by decide
  have hspace : Shape.elementSpace ⟨.float, [⟨2, 7⟩, ⟨1, 5⟩, ⟨3, 2⟩]⟩ = some 12 := by decide
  obtain ⟨-, -, hlast, -, -, hpermute⟩ :=
    layout_exact (by unfold Shape.Populated; decide) hcount hspace
  obtain ⟨t, ht, helements, helementSpace, -, -⟩ := hpermute [2, 0, 1] (by decide)
  exact ⟨_, t, rfl, by decide, hlast, ht, helements.trans hcount, helementSpace.trans hspace⟩

end TensorGraph
