/-
Sizes of shapes without overflow, and where their elements lie.

For a shape whose extents are all positive, the sizes that 64-bit arithmetic forms
step by step are the plain ones cut off at the end of the range: the steps grow, so
the last one decides.  `offset_lt_of_storageBytes` is what a reader of storage relies
on, `offset_of_isStandard` what lets row-major storage be read as another shape.
-/
import TensorGraph.Proofs.Shape.Position

namespace TensorGraph

namespace Word

theorem fit_of_gt {n : Nat} (h : maxUnsigned < n) : fit n = none :=
  if_neg (Nat.not_le.mpr h)

/-- A sum of words is the plain sum, cut off at the end of the range. -/
theorem sumFrom_eq_fit (acc : Nat) (ns : List Nat) (h : acc ≤ maxUnsigned) :
    sumFrom acc ns = fit (acc + ns.sum) := by
  induction ns generalizing acc with
  | nil => rw [sumFrom_nil, List.sum_nil, Nat.add_zero, fit_of_le h]
  | cons n ns ih =>
    rw [sumFrom_cons, List.sum_cons, ← Nat.add_assoc, add]
    by_cases hn : acc + n ≤ maxUnsigned
    · rw [fit_of_le hn, Option.bind_some, ih _ hn]
    · rw [fit_of_gt (by omega), fit_of_gt (by omega), Option.bind_none]

theorem sum_eq_fit (ns : List Nat) : sum ns = fit ns.sum := by
  rw [sum, sumFrom_eq_fit 0 ns (Nat.zero_le _), Nat.zero_add]

/-- So is a product, if no factor is 0 and brings what was too large back. -/
theorem productFrom_eq_fit (acc : Nat) (ns : List Nat) (h : ∀ n ∈ ns, 0 < n)
    (hacc : acc ≤ maxUnsigned) : productFrom acc ns = fit (acc * ns.prod) := by
  induction ns generalizing acc with
  | nil => rw [productFrom_nil, List.prod_nil, Nat.mul_one, fit_of_le hacc]
  | cons n ns ih =>
    rw [List.forall_mem_cons] at h
    rw [productFrom_cons, List.prod_cons, ← Nat.mul_assoc, mul]
    by_cases hn : acc * n ≤ maxUnsigned
    · rw [fit_of_le hn, Option.bind_some, ih _ h.2 hn]
    · have hle : acc * n ≤ acc * n * ns.prod := Nat.le_mul_of_pos_right _ (List.prod_pos h.2)
      rw [fit_of_gt (by omega), fit_of_gt (by omega), Option.bind_none]

theorem product_eq_fit {ns : List Nat} (h : ∀ n ∈ ns, 0 < n) : product ns = fit ns.prod := by
  rw [product, productFrom_eq_fit 1 ns h (by decide), Nat.one_mul]

theorem product_of_pos {ns : List Nat} (h : ∀ n ∈ ns, 0 < n) (hle : ns.prod ≤ maxUnsigned) :
    product ns = some ns.prod := (product_eq_fit h).trans (fit_of_le hle)

end Word

namespace Axis

theorem offset_rowMajorWithCount {lens : List Nat} {axes : List Axis} {count : Nat}
    (h : rowMajorWithCount lens = some (axes, count)) {idx : List Nat}
    (hi : Index.Within idx lens) : Index.offset idx axes = Index.position idx lens := by
  induction lens generalizing axes count idx with
  | nil =>
    cases idx with
    | nil => rfl
    | cons => exact hi.elim
  | cons n ns ih =>
    cases idx with
    | nil => exact hi.elim
    | cons i is =>
      obtain ⟨tail, inner, hr, -, rfl⟩ := rowMajorWithCount_cons_eq_some.mp h
      rw [Index.offset_cons, Index.position_cons, ih hr hi.2, count_rowMajorWithCount hr]

/-- Row-major axes span exactly as many elements as they have. -/
theorem reach_rowMajorWithCount {lens : List Nat} {axes : List Axis} {count : Nat}
    (h : rowMajorWithCount lens = some (axes, count)) (hpos : ∀ n ∈ lens, 0 < n) :
    (axes.map reach).sum + 1 = lens.prod := by
  induction lens generalizing axes count with
  | nil =>
    cases h
    rfl
  | cons n ns ih =>
    obtain ⟨tail, inner, hr, -, rfl⟩ := rowMajorWithCount_cons_eq_some.mp h
    have hn : 0 < n := hpos n List.mem_cons_self
    have htail := ih hr fun m hm => hpos m (List.mem_cons_of_mem _ hm)
    have hinner : inner = ns.prod := count_rowMajorWithCount hr
    subst hinner
    rw [List.map_cons, List.sum_cons, List.prod_cons, Nat.add_assoc, htail]
    show (n - 1) * ns.prod + ns.prod = n * ns.prod
    rw [← Nat.succ_mul, Nat.succ_eq_add_one, Nat.sub_add_cancel hn]

theorem rowMajor_eq_some {lens : List Nat} {axes : List Axis} :
    rowMajor lens = some axes ↔ ∃ count, rowMajorWithCount lens = some (axes, count) := by
  simp [rowMajor]

theorem extents_rowMajor {lens : List Nat} {axes : List Axis} (h : rowMajor lens = some axes) :
    axes.map extent = lens := by
  obtain ⟨count, hr⟩ := rowMajor_eq_some.mp h
  exact extents_rowMajorWithCount hr

end Axis

namespace Index

theorem offset_le_reach {idx : List Nat} {axes : List Axis}
    (h : Within idx (axes.map Axis.extent)) : offset idx axes ≤ (axes.map Axis.reach).sum := by
  induction axes generalizing idx with
  | nil =>
    cases idx with
    | nil => exact Nat.zero_le _
    | cons => exact h.elim
  | cons a as ih =>
    cases idx with
    | nil => exact h.elim
    | cons i is =>
      have hi : i ≤ a.extent - 1 := Nat.le_sub_one_of_lt h.1
      rw [offset_cons, List.map_cons, List.sum_cons]
      exact Nat.add_le_add (Nat.mul_le_mul_right _ hi) (ih h.2)

/-- The last element of a shape is the one farthest in storage. -/
theorem exists_offset_eq_reach {axes : List Axis} (h : ∀ a ∈ axes, 0 < a.extent) :
    ∃ idx, Within idx (axes.map Axis.extent) ∧ offset idx axes = (axes.map Axis.reach).sum := by
  induction axes with
  | nil => exact ⟨[], trivial, rfl⟩
  | cons a axes ih =>
    rw [List.forall_mem_cons] at h
    obtain ⟨idx, hidx, hoffset⟩ := ih h.2
    refine ⟨(a.extent - 1) :: idx, ⟨Nat.sub_one_lt_of_lt h.1, hidx⟩, ?_⟩
    rw [offset_cons, hoffset, List.map_cons, List.sum_cons]
    rfl

end Index

namespace Shape

/-- No axis has extent 0. -/
def Populated (s : Shape) : Prop := ∀ n ∈ s.lens, 0 < n

def space (s : Shape) : Nat := (s.axes.map Axis.reach).sum + 1

theorem Populated.extent_pos {s : Shape} (h : s.Populated) {a : Axis} (ha : a ∈ s.axes) :
    0 < a.extent := h _ (List.mem_map_of_mem ha)

theorem elements_eq_fit {s : Shape} (h : s.Populated) : s.elements = Word.fit s.lens.prod :=
  Word.product_eq_fit h

theorem reach_eq_fit (s : Shape) : s.reach = Word.fit (s.axes.map Axis.reach).sum := by
  have hall : ∀ axes : List Axis,
      (axes.mapM fun a => Word.mul (a.extent - 1) a.stride) = some (axes.map Axis.reach) ∨
        Word.maxUnsigned < (axes.map Axis.reach).sum ∧
          (axes.mapM fun a => Word.mul (a.extent - 1) a.stride) = none := by
    intro axes
    induction axes with
    | nil => exact Or.inl rfl
    | cons a as ih =>
      rw [List.mapM_cons, List.map_cons, List.sum_cons]
      have ha : Word.mul (a.extent - 1) a.stride = Word.fit a.reach := rfl
      rw [ha]
      by_cases hfit : a.reach ≤ Word.maxUnsigned
      · rw [Word.fit_of_le hfit]
        rcases ih with ih | ⟨hbig, ih⟩
        · rw [ih]
          exact Or.inl rfl
        · rw [ih]
          exact Or.inr ⟨by omega, rfl⟩
      · rw [Word.fit_of_gt (by omega)]
        exact Or.inr ⟨by omega, rfl⟩
  unfold reach
  rcases hall s.axes with h | ⟨hbig, h⟩
  · rw [h]
    exact Word.sum_eq_fit _
  · rw [h, Word.fit_of_gt hbig]
    rfl

theorem elementSpace_eq_fit {s : Shape} (h : s.Populated) : s.elementSpace = Word.fit s.space := by
  have hany : (s.axes.any fun a => decide (a.extent = 0)) = false := by
    rw [List.any_eq_false]
    intro a ha
    have hpos := h.extent_pos ha
    simp
    omega
  rw [elementSpace, hany, if_neg Bool.false_ne_true, reach_eq_fit, space]
  by_cases hfit : (s.axes.map Axis.reach).sum ≤ Word.maxUnsigned
  · rw [Word.fit_of_le hfit]
    rfl
  · rw [Word.fit_of_gt (by omega), Word.fit_of_gt (by omega)]
    rfl

theorem storageBytes_eq_fit {s : Shape} (h : s.Populated) :
    s.storageBytes = Word.fit (s.space * s.dtype.size) := by
  rw [storageBytes, elementSpace_eq_fit h]
  by_cases hfit : s.space ≤ Word.maxUnsigned
  · rw [Word.fit_of_le hfit]
    rfl
  · have hle : s.space ≤ s.space * s.dtype.size := Nat.le_mul_of_pos_right _ s.dtype.size_pos
    rw [Word.fit_of_gt (by omega), Word.fit_of_gt (by omega)]
    rfl

theorem storageBytes_eq_some {s : Shape} (h : s.Populated) {n : Nat} :
    s.storageBytes = some n ↔ n = s.space * s.dtype.size ∧ n ≤ Word.maxUnsigned := by
  rw [storageBytes_eq_fit h, Word.fit_eq_some]
  constructor
  · rintro ⟨hle, rfl⟩
    exact ⟨rfl, hle⟩
  · rintro ⟨rfl, hle⟩
    exact ⟨hle, rfl⟩

/-- Every element lies inside the bytes that back the shape. -/
theorem offset_add_size_le {s : Shape} {idx : List Nat} (hi : Index.Within idx s.lens) :
    Index.offset idx s.axes * s.dtype.size + s.dtype.size ≤ s.space * s.dtype.size := by
  have hle : Index.offset idx s.axes + 1 ≤ s.space :=
    Nat.add_le_add_right (Index.offset_le_reach hi) 1
  calc Index.offset idx s.axes * s.dtype.size + s.dtype.size
      = (Index.offset idx s.axes + 1) * s.dtype.size := by rw [Nat.add_mul, Nat.one_mul]
    _ ≤ s.space * s.dtype.size := Nat.mul_le_mul_right _ hle

/-! ## Row-major shapes -/

theorem asStandard_eq_some {s t : Shape} (h : s.asStandard = some t) :
    t.lens = s.lens ∧ t.dtype = s.dtype :=
  ⟨lens_of_standard h, dtype_of_standard h⟩

theorem asStandard_congr {s t : Shape} (hd : s.dtype = t.dtype) (hl : s.lens = t.lens) :
    s.asStandard = t.asStandard := by
  rw [asStandard, asStandard, hd, hl]

theorem space_of_standard {d : Dtype} {lens : List Nat} {s : Shape}
    (h : standard d lens = some s) (hpos : ∀ n ∈ lens, 0 < n) : s.space = lens.prod := by
  obtain ⟨axes, ha, rfl⟩ := standard_eq_some.mp h
  obtain ⟨count, hr⟩ := Axis.rowMajor_eq_some.mp ha
  exact Axis.reach_rowMajorWithCount hr hpos

theorem isStandard_eq_some_true {s : Shape} :
    s.isStandard = some true ↔ ∃ axes, Axis.rowMajor s.lens = some axes ∧
      ∀ ab ∈ s.axes.zip axes, ab.1.extent = 1 ∨ ab.1.stride = ab.2.stride := by
  unfold isStandard
  cases Axis.rowMajor s.lens with
  | none => simp
  | some axes => simp [List.all_eq_true]

theorem isStandard_eq_none {s : Shape} : s.isStandard = none ↔ Axis.rowMajor s.lens = none := by
  unfold isStandard
  cases Axis.rowMajor s.lens <;> simp

theorem exists_asStandard_of_isStandard {s : Shape} {b : Bool} (h : s.isStandard = some b) :
    ∃ t, s.asStandard = some t := by
  cases hrow : Axis.rowMajor s.lens with
  | none =>
    rw [← isStandard_eq_none, h] at hrow
    cases hrow
  | some axes => exact ⟨_, standard_eq_some.mpr ⟨axes, hrow, rfl⟩⟩

theorem isStandard_of_standard {d : Dtype} {lens : List Nat} {s : Shape}
    (h : standard d lens = some s) : s.isStandard = some true := by
  have hl := lens_of_standard h
  obtain ⟨axes, ha, rfl⟩ := standard_eq_some.mp h
  refine isStandard_eq_some_true.mpr ⟨axes, by rw [hl]; exact ha, fun ab hab => Or.inr ?_⟩
  have hself : ∀ (as : List Axis) (ab : Axis × Axis), ab ∈ as.zip as → ab.1 = ab.2 := by
    intro as
    induction as with
    | nil => intro ab hab; cases hab
    | cons a as ih =>
      intro ab hab
      rw [List.zip_cons_cons, List.mem_cons] at hab
      rcases hab with rfl | hab
      · rfl
      · exact ih ab hab
  rw [hself axes ab hab]

/-- Axes that differ from row-major ones only where there is a single position have
the same offsets. -/
theorem offset_congr_of_zip {axes bxes : List Axis} (hl : axes.map Axis.extent = bxes.map Axis.extent)
    (h : ∀ ab ∈ axes.zip bxes, ab.1.extent = 1 ∨ ab.1.stride = ab.2.stride) {idx : List Nat}
    (hi : Index.Within idx (axes.map Axis.extent)) :
    Index.offset idx axes = Index.offset idx bxes := by
  induction axes generalizing bxes idx with
  | nil =>
    cases bxes with
    | nil => rfl
    | cons => cases hl
  | cons a as ih =>
    cases bxes with
    | nil => cases hl
    | cons b bs =>
      cases idx with
      | nil => exact hi.elim
      | cons i is =>
        rw [List.map_cons, List.map_cons] at hl
        obtain ⟨hab, htail⟩ := List.cons.inj hl
        have hhead := h (a, b) List.mem_cons_self
        have hrest := ih htail (fun ab hm => h ab (List.mem_cons_of_mem _ hm)) hi.2
        have hmul : i * a.stride = i * b.stride := by
          rcases hhead with h1 | h2
          · have hlt : i < a.extent := hi.1
            have h0 : i = 0 := by
              have h1' : a.extent = 1 := h1
              omega
            rw [h0, Nat.zero_mul, Nat.zero_mul]
          · exact congrArg (i * ·) h2
        rw [Index.offset_cons, Index.offset_cons, hmul, hrest]

theorem offset_of_isStandard {s : Shape} (h : s.isStandard = some true) {idx : List Nat}
    (hi : Index.Within idx s.lens) : Index.offset idx s.axes = Index.position idx s.lens := by
  obtain ⟨axes, ha, hz⟩ := isStandard_eq_some_true.mp h
  obtain ⟨count, hr⟩ := Axis.rowMajor_eq_some.mp ha
  rw [offset_congr_of_zip (Axis.extents_rowMajor ha).symm hz hi, Axis.offset_rowMajorWithCount hr hi]

theorem reach_congr_of_zip {axes bxes : List Axis}
    (hl : axes.map Axis.extent = bxes.map Axis.extent)
    (h : ∀ ab ∈ axes.zip bxes, ab.1.extent = 1 ∨ ab.1.stride = ab.2.stride) :
    axes.map Axis.reach = bxes.map Axis.reach := by
  induction axes generalizing bxes with
  | nil =>
    cases bxes with
    | nil => rfl
    | cons => cases hl
  | cons a as ih =>
    cases bxes with
    | nil => cases hl
    | cons b bs =>
      rw [List.map_cons, List.map_cons] at hl
      obtain ⟨hab, htail⟩ := List.cons.inj hl
      have hhead := h (a, b) List.mem_cons_self
      have hreach : a.reach = b.reach := by
        unfold Axis.reach
        rcases hhead with h1 | h2
        · have h1' : a.extent = 1 := h1
          rw [← hab, h1', Nat.sub_self, Nat.zero_mul, Nat.zero_mul]
        · have h2' : a.stride = b.stride := h2
          rw [hab, h2']
      rw [List.map_cons, List.map_cons, hreach,
        ih htail fun ab hm => h ab (List.mem_cons_of_mem _ hm)]

/-- Row-major storage has no gaps. -/
theorem space_of_isStandard {s : Shape} (h : s.isStandard = some true) (hpos : s.Populated) :
    s.space = s.lens.prod := by
  obtain ⟨axes, ha, hz⟩ := isStandard_eq_some_true.mp h
  obtain ⟨count, hr⟩ := Axis.rowMajor_eq_some.mp ha
  rw [space, reach_congr_of_zip (Axis.extents_rowMajor ha).symm hz,
    Axis.reach_rowMajorWithCount hr hpos]

/-! ## Permuted shapes -/

theorem permute_eq_some {s t : Shape} {permutation : List Nat} :
    s.permute permutation = some t ↔
      t.dtype = s.dtype ∧ (permutation.mapM fun p => s.axes[p]?) = some t.axes := by
  unfold permute
  cases hm : (permutation.mapM fun p => s.axes[p]?) with
  | none => simp
  | some axes =>
    constructor
    · intro h
      cases h
      exact ⟨rfl, rfl⟩
    · rintro ⟨hd, ha⟩
      cases ha
      obtain ⟨d, as⟩ := t
      cases hd
      rfl

end Shape
end TensorGraph
