/-
Which elements the kernels with loops read, and in which order.

The matrix product, softmax and the convolution are written once more for a single element
of the output and for any way of reading an element of an operand.  Read from tensors, that
is what the kernels compute: `exists_element_of_run`.  Read with a trace, it gives the
elements of the operands in the order in which the kernels come to them, which
`exists_trace_of_run` states in closed form as `visits`.
-/
import TensorGraph.Proofs.Kernel.Run
import TensorGraph.Proofs.Program.Consistent
import TensorGraph.Proofs.Traced

-- Products are those of the core library, whatever else is imported.
attribute [local instance (2000)] One.ofOfNat1

namespace TensorGraph

def Operator.accumulates : Operator → Bool
  | gemm _ | softmax _ | convolution _ => true
  | _ => false

theorem Index.getElem_lt_of_within {idx lens : List Nat} (hi : Within idx lens) {axis : Nat}
    (ha : axis < idx.length) : idx[axis] < lens.getD axis 0 := by
  have h := (within_iff_getD.mp hi).2 axis (length_of_within hi ▸ ha)
  rwa [List.getD_eq_getElem?_getD, List.getElem?_eq_getElem ha] at h

theorem View.map_lens_of_shaped {shapes : List Shape} {views : List View}
    (h : Shaped shapes views) : views.map lens = shapes.map Shape.lens := by
  induction h with
  | nil => rfl
  | cons hv _ ih => rw [List.map_cons, List.map_cons, hv, ih]

namespace Kernel

structure Visit where
  operand : Nat
  index : List Nat
  deriving DecidableEq, Repr

/-! ## One element, however its operands are read -/

section

variable {m : Type → Type} [Monad m]

def gemmElement (num : Arithmetic) (factor count : Nat) (a b : List Nat → m Nat) (i j : Nat) :
    m Nat := do
  let acc ← (List.range count).foldlM (fun acc l => do
    let x ← a [i, l]
    let y ← b [l, j]
    pure (Format.double.add acc (Format.double.mul (num.widen x) (num.widen y))))
    Format.double.negativeZero
  pure (num.narrow (Format.double.mul acc (Format.convert .single .double factor)))

/-- An element of a softmax along an axis of `count` positions: its lane is gone through for
the largest element and for the sum, and then the element itself is read. -/
def softmaxElement (num : Arithmetic) (axis count : Nat) (x : List Nat → m Nat)
    (idx : List Nat) : m Nat := do
  let largest ← (List.range count).foldlM (fun largest j => do
    let v ← x (idx.set axis j)
    pure (Format.double.maximum largest (num.widen v))) Format.double.negativeInfinity
  let total ← (List.range count).foldlM (fun total j => do
    let v ← x (idx.set axis j)
    pure (Format.double.add total (shiftedExp num largest v))) Format.double.negativeZero
  let v ← x idx
  pure (num.narrow (Format.double.div (shiftedExp num largest v) total))

variable [MonadLiftT Option m]

/-- An element of a convolution: the taps by channel, by row and along the row, as far as
they lie inside the image. -/
def convolutionElement (num : Arithmetic) (c : Convolution)
    (channels height width kernelHeight kernelWidth : Nat) (x w : List Nat → m Nat)
    (n o row column : Nat) : m Nat := do
  let acc ← (List.range channels).foldlM (fun acc channel =>
    (List.range kernelHeight).foldlM (fun acc ky => do
      let y ← tapCoordinate row c.stride.height ky c.dilation.height c.padding.height
      if isInside y height then
        (List.range kernelWidth).foldlM (fun acc kx => do
          let x' ← tapCoordinate column c.stride.width kx c.dilation.width c.padding.width
          if isInside x' width then do
            let a ← x [n, channel, y.toNat, x'.toNat]
            let b ← w [o, channel, ky, kx]
            pure (Format.double.add acc (Format.double.mul (num.widen a) (num.widen b)))
          else pure acc) acc
      else pure acc) acc) 0
  pure (num.narrow acc)

/-- Element `idx` of the output of a kernel with loops, from operands of the given extents. -/
def element (num : Arithmetic) (op : Operator) (lens : List (List Nat))
    (read : Nat → List Nat → m Nat) (idx : List Nat) : m Nat :=
  match op, lens, idx with
  | .gemm factor, [[_, count], _], [i, j] => gemmElement num factor count (read 0) (read 1) i j
  | .softmax axis, [lens], idx => softmaxElement num axis (lens.getD axis 0) (read 0) idx
  | .convolution c, [[_, channels, height, width], [_, _, kernelHeight, kernelWidth]],
    [n, o, row, column] =>
    convolutionElement num c channels height width kernelHeight kernelWidth (read 0) (read 1)
      n o row column
  | _, _, _ => liftM (none : Option Nat)

end

def readAt (views : List View) (operand : Nat) (idx : List Nat) : Option Nat :=
  views[operand]?.bind (·.at? idx)

/-- An element of the output, worked out from tensors, with the elements that are read. -/
def trace (num : Arithmetic) (op : Operator) (views : List View) (idx : List Nat) :
    Traced Visit Nat :=
  element num op (views.map View.lens)
    (fun operand jdx => .touching ⟨operand, jdx⟩ (readAt views operand jdx)) idx

/-! ## The trace may be forgotten -/

section

variable {ι : Type} {num : Arithmetic}

theorem value_gemmElement (factor count : Nat) (a b : List Nat → Traced ι Nat) (i j : Nat) :
    (gemmElement num factor count a b i j).value =
      gemmElement num factor count (fun idx => (a idx).value) (fun idx => (b idx).value) i j := by
  unfold gemmElement
  simp only [Traced.value_bind, Traced.value_foldlM, Traced.value_pure]

theorem value_softmaxElement (axis count : Nat) (x : List Nat → Traced ι Nat) (idx : List Nat) :
    (softmaxElement num axis count x idx).value =
      softmaxElement num axis count (fun idx => (x idx).value) idx := by
  unfold softmaxElement
  simp only [Traced.value_bind, Traced.value_foldlM, Traced.value_pure]

theorem value_convolutionElement (c : Convolution)
    (channels height width kernelHeight kernelWidth : Nat) (x w : List Nat → Traced ι Nat)
    (n o row column : Nat) :
    (convolutionElement num c channels height width kernelHeight kernelWidth x w n o row
      column).value =
      convolutionElement num c channels height width kernelHeight kernelWidth
        (fun idx => (x idx).value) (fun idx => (w idx).value) n o row column := by
  unfold convolutionElement
  simp only [Traced.value_bind, Traced.value_foldlM, Traced.value_pure, Traced.value_liftM,
    apply_ite Traced.value]
  rfl

theorem value_element (op : Operator) (lens : List (List Nat))
    (read : Nat → List Nat → Traced ι Nat) (idx : List Nat) :
    (element num op lens read idx).value =
      element num op lens (fun operand jdx => (read operand jdx).value) idx := by
  unfold element
  split
  · exact value_gemmElement _ _ _ _ _ _
  · exact value_softmaxElement _ _ _ _
  · exact value_convolutionElement _ _ _ _ _ _ _ _ _ _ _ _
  · rfl

theorem value_trace (op : Operator) (views : List View) (idx : List Nat) :
    (trace num op views idx).value = element num op (views.map View.lens) (readAt views) idx := by
  unfold trace
  rw [value_element]
  simp only [Traced.value_touching]

end

/-! ## The elements are those of the kernels -/

theorem exists_element_of_tabulate {size : Nat} {lens : List Nat} {f : List Nat → Option Nat}
    {r : Tensor} (h : tabulate size lens f = .value r) {k : Nat} {idx : List Nat}
    (hk : (Index.indices lens)[k]? = some idx) : ∃ e, f idx = some e ∧ r.elements[k]? = some e := by
  unfold tabulate at h
  split at h
  · obtain ⟨elements, helements, hr⟩ := Outcome.bind_eq_value.mp h
    cases hr
    have hall := mapM_eq_some.mp (Outcome.ofOption_eq_value.mp helements)
    obtain ⟨hlt, hget⟩ := List.getElem?_eq_some_iff.mp hk
    have hlt' : k < elements.length := hall.length_eq ▸ hlt
    have hf : f (Index.indices lens)[k] = some elements[k] := hall.get hlt hlt'
    exact ⟨elements[k], hget ▸ hf, List.getElem?_eq_getElem hlt'⟩
  · cases h

/-- A loop over an axis of a tensor goes through the lane. -/
theorem foldlM_at?_set {β : Type} (f : β → Nat → β) (axis : Nat) {v : View} {idx : List Nat}
    (hi : Index.Within idx v.lens) (b : β) :
    ((List.range (v.lens.getD axis 0)).foldlM (fun b j =>
      (v.at? (idx.set axis j)).bind fun x => some (f b x)) b : Option β) =
      some ((v.lane axis idx).foldl f b) := by
  have hgives : Gives True ((List.range (v.lens.getD axis 0)).foldlM (fun b j =>
      (v.at? (idx.set axis j)).bind fun x => some (f b x)) b)
      ((List.range (v.lens.getD axis 0)).foldl (fun b j => f b (v.read (idx.set axis j))) b) := by
    refine gives_foldlM (fun b j hj => Or.inl ?_) b
    rw [View.at?_of_within (View.within_set hi (List.mem_range.mp hj))]
    rfl
  rw [View.lane, List.foldl_map]
  exact hgives.resolve_right fun h => h.2 trivial

/-- Every element of a softmax is its share of its lane. -/
theorem softmaxElement_eq_some (num : Arithmetic) (axis : Nat) {v : View} {idx : List Nat}
    (hi : Index.Within idx v.lens) :
    softmaxElement num axis (v.lens.getD axis 0) v.at? idx =
      some ((View.softmax num axis v).read idx) := by
  refine Option.bind_eq_some_iff.mpr
    ⟨View.largest num (v.lane axis idx), foldlM_at?_set _ axis hi _, ?_⟩
  refine Option.bind_eq_some_iff.mpr
    ⟨View.total num (v.lane axis idx), foldlM_at?_set _ axis hi _, ?_⟩
  exact Option.bind_eq_some_iff.mpr ⟨v.read idx, View.at?_of_within hi, rfl⟩

/-- What a kernel with loops computes at an index is the element worked out on its own. -/
theorem exists_element_of_run {op : Operator} {shapes : List Shape} {t : Shape}
    {views : List View} {num : Arithmetic} {r : Tensor} (h : Operator.Infers op shapes t)
    (hop : op.accumulates = true) (hv : View.Shaped shapes views)
    (hr : run num op t.lens views = .value r) {k : Nat} {idx : List Nat}
    (hk : (Index.indices t.lens)[k]? = some idx) :
    ∃ e, element num op (views.map View.lens) (readAt views) idx = some e ∧
      r.elements[k]? = some e := by
  have hi : Index.Within idx t.lens := Index.mem_indices.mp (List.mem_of_getElem? hk)
  cases h with
  | gemm factor hf hd ha hb ht =>
    obtain _ | @⟨_, v, _, _, hx, _ | @⟨_, w, _, _, hy, _ | _⟩⟩ := hv
    rw [Shape.lens_of_standard ht] at hk hi
    obtain ⟨i, j, rfl⟩ : ∃ i j, idx = [i, j] := List.length_eq_two.mp (Index.length_of_within hi)
    have hrun : gemm num factor v w = .value r := hr
    unfold gemm at hrun
    rw [hx, hy, ha, hb] at hrun
    obtain ⟨e, he, hre⟩ := exists_element_of_tabulate hrun hk
    refine ⟨e, ?_, hre⟩
    rw [List.map_cons, List.map_cons, hx, hy, ha, hb]
    exact he
  | @softmax axis s _ hf ha ht =>
    obtain _ | @⟨_, v, _, _, hx, _ | _⟩ := hv
    rw [(Shape.asStandard_eq_some ht).1, ← hx] at hk hi
    have hrun : softmax num axis v = .value r := hr
    obtain ⟨-, rfl⟩ := (softmax_eq_value (by rw [hx, Shape.length_lens]; exact ha)).mp hrun
    refine ⟨(View.softmax num axis v).read idx, softmaxElement_eq_some num axis hi, ?_⟩
    show ((Index.indices v.lens).map (View.softmax num axis v).read)[k]? = _
    rw [List.getElem?_map, hk]
    rfl
  | @convolution c _ _ batch channels height width banks kernelHeight kernelWidth rows columns _
      hf hd hx hw hrows hcolumns ht =>
    obtain _ | @⟨_, x, _, _, hxl, _ | @⟨_, w, _, _, hwl, _ | _⟩⟩ := hv
    rw [Shape.lens_of_standard ht] at hk hi hr
    obtain ⟨n, o, row, column, rfl⟩ : ∃ n o row column, idx = [n, o, row, column] :=
      List.length_eq_four.mp (Index.length_of_within hi)
    have hrun : convolution num c [batch, banks, rows, columns] x w = .value r := hr
    unfold convolution at hrun
    rw [hxl, hwl, hx, hw] at hrun
    obtain ⟨e, he, hre⟩ := exists_element_of_tabulate hrun hk
    refine ⟨e, ?_, hre⟩
    rw [List.map_cons, List.map_cons, hxl, hwl, hx, hw]
    exact he
  | _ => cases hop

/-! ## What is read -/

def gemmVisits (count i j : Nat) : List Visit :=
  (List.range count).flatMap fun l => [⟨0, [i, l]⟩, ⟨1, [l, j]⟩]

def laneVisits (axis count : Nat) (idx : List Nat) : List Visit :=
  (List.range count).map fun j => ⟨0, idx.set axis j⟩

theorem mem_laneVisits {axis : Nat} {idx lens : List Nat} (hi : Index.Within idx lens)
    (ha : axis < lens.length) : ⟨0, idx⟩ ∈ laneVisits axis (lens.getD axis 0) idx := by
  have hlt : axis < idx.length := Index.length_of_within hi ▸ ha
  have hplace : idx[axis] < lens.getD axis 0 := Index.getElem_lt_of_within hi hlt
  refine List.mem_map.mpr ⟨idx[axis], List.mem_range.mpr hplace, ?_⟩
  rw [List.set_getElem_self hlt]

/-- What the taps of a convolution read that lie inside the image, each with its weight. -/
def windowVisits (c : Convolution) (channels height width kernelHeight kernelWidth : Nat)
    (n o row column : Nat) : List Visit :=
  (List.range channels).flatMap fun channel => (List.range kernelHeight).flatMap fun ky =>
    let y := View.coordinate row c.stride.height ky c.dilation.height c.padding.height
    if 0 ≤ y ∧ y < height then
      (List.range kernelWidth).flatMap fun kx =>
        let x := View.coordinate column c.stride.width kx c.dilation.width c.padding.width
        if 0 ≤ x ∧ x < width then
          [⟨0, [n, channel, y.toNat, x.toNat]⟩, ⟨1, [o, channel, ky, kx]⟩]
        else []
    else []

/-- The elements of the operands that a kernel with loops reads for an element of its
output, in order. -/
def visits (op : Operator) (lens : List (List Nat)) (idx : List Nat) : List Visit :=
  match op, lens, idx with
  | .gemm _, [[_, count], _], [i, j] => gemmVisits count i j
  | .softmax axis, [lens], idx =>
    let lane := laneVisits axis (lens.getD axis 0) idx
    lane ++ lane ++ [⟨0, idx⟩]
  | .convolution c, [[_, channels, height, width], [_, _, kernelHeight, kernelWidth]],
    [n, o, row, column] =>
    windowVisits c channels height width kernelHeight kernelWidth n o row column
  | _, _, _ => []

theorem leaves_touching {v : View} {idx : List Nat} (h : Index.Within idx v.lens) (i : Visit) :
    (Traced.touching i (v.at? idx)).Leaves [i] := by
  rw [View.at?_of_within h]
  exact ⟨v.read idx, rfl⟩

theorem leaves_touching_touching {v w : View} {idx jdx : List Nat}
    (hv : Index.Within idx v.lens) (hw : Index.Within jdx w.lens) (i j : Visit)
    (f : Nat → Nat → Nat) :
    (do
      let x ← Traced.touching i (v.at? idx)
      let y ← Traced.touching j (w.at? jdx)
      pure (f x y) : Traced Visit Nat).Leaves [i, j] :=
  (leaves_touching hv i).bind fun _ => (leaves_touching hw j).bind_pure

/-- Where the padded image is addressed by signed words, the machine's coordinates are the
exact ones. -/
theorem tapCoordinate_eq_some {padding stride dilation input kernel positions : Nat}
    (h : Convolution.outputLen padding stride dilation input kernel = some (some positions))
    (hroom : input + 2 * padding ≤ Word.maxSigned) {position tap : Nat}
    (hposition : position < positions) (htap : tap < kernel) :
    tapCoordinate position stride tap dilation padding =
      some (View.coordinate position stride tap dilation padding) := by
  have hmoved := (outputLen_bounds h).2 position tap hposition htap
  have hmax : Word.maxUnsigned = 18446744073709551615 := rfl
  have hmax' : Word.maxSigned = 9223372036854775807 := rfl
  have hcoordinate : View.coordinate position stride tap dilation padding =
      ((position * stride + tap * dilation : Nat) : Int) - padding := by
    rw [View.coordinate, Nat.cast_add, Nat.cast_mul, Nat.cast_mul]
  rw [hcoordinate]
  unfold tapCoordinate Word.add Word.mul Word.toSigned
  rw [Word.fit_of_le (by omega), Word.fit_of_le (by omega)]
  show (Word.fit (position * stride + tap * dilation)).bind _ = _
  rw [Word.fit_of_le (by omega), Option.bind_some, if_pos (by omega), if_pos (by omega)]
  exact if_pos (by omega)

theorem gemmElement_leaves (num : Arithmetic) (factor : Nat) {a b : View} {m k n i j : Nat}
    (ha : a.lens = [m, k]) (hb : b.lens = [k, n]) (hi : i < m) (hj : j < n) :
    (gemmElement num factor k (fun idx => Traced.touching (Visit.mk 0 idx) (a.at? idx))
      (fun idx => .touching ⟨1, idx⟩ (b.at? idx)) i j).Leaves (gemmVisits k i j) := by
  refine Traced.Leaves.bind_pure (Traced.leaves_foldlM (fun acc l hl => ?_) _)
  have hlk : l < k := List.mem_range.mp hl
  have hrow : Index.Within [i, l] a.lens := ha ▸ ⟨hi, hlk, trivial⟩
  have hcolumn : Index.Within [l, j] b.lens := hb ▸ ⟨hlk, hj, trivial⟩
  exact leaves_touching_touching hrow hcolumn _ _ _

theorem softmaxElement_leaves (num : Arithmetic) (axis : Nat) {v : View} {idx : List Nat}
    (hi : Index.Within idx v.lens) :
    (softmaxElement num axis (v.lens.getD axis 0)
      (fun idx => Traced.touching (Visit.mk 0 idx) (v.at? idx)) idx).Leaves
      (laneVisits axis (v.lens.getD axis 0) idx ++ laneVisits axis (v.lens.getD axis 0) idx ++
        [⟨0, idx⟩]) := by
  have hlane : ∀ {β : Type} (f : β → Nat → β) (b : β),
      ((List.range (v.lens.getD axis 0)).foldlM (fun b j => do
        let x ← Traced.touching (Visit.mk 0 (idx.set axis j)) (v.at? (idx.set axis j))
        pure (f b x)) b).Leaves (laneVisits axis (v.lens.getD axis 0) idx) := by
    intro β f b
    rw [laneVisits, List.map_eq_flatMap]
    refine Traced.leaves_foldlM (fun b j hj => ?_) b
    exact (leaves_touching (View.within_set hi (List.mem_range.mp hj)) _).bind_pure
  rw [List.append_assoc]
  refine (hlane _ _).bind fun largest => (hlane _ _).bind fun total => ?_
  exact (leaves_touching hi _).bind_pure

theorem convolutionElement_leaves (num : Arithmetic) (c : Convolution) {x w : View}
    {batch channels height width banks kernelHeight kernelWidth rows columns : Nat}
    {n o row column : Nat}
    (hx : x.lens = [batch, channels, height, width])
    (hw : w.lens = [banks, channels, kernelHeight, kernelWidth])
    (hrows : c.outputHeight height kernelHeight = some (some rows))
    (hcolumns : c.outputWidth width kernelWidth = some (some columns))
    (hheight : height + 2 * c.padding.height ≤ Word.maxSigned)
    (hwidth : width + 2 * c.padding.width ≤ Word.maxSigned)
    (hi : Index.Within [n, o, row, column] [batch, banks, rows, columns]) :
    (convolutionElement num c channels height width kernelHeight kernelWidth
      (fun idx => Traced.touching (Visit.mk 0 idx) (x.at? idx))
      (fun idx => .touching ⟨1, idx⟩ (w.at? idx)) n o row column).Leaves
      (windowVisits c channels height width kernelHeight kernelWidth n o row column) := by
  obtain ⟨hn, ho, hrow, hcolumn, -⟩ := hi
  have hinside : ∀ (y : Int) {extent : Nat}, extent ≤ Word.maxSigned →
      (isInside y extent = true ↔ 0 ≤ y ∧ y < extent) := by
    intro y extent hextent
    rw [isInside, Word.toSigned, if_pos hextent, Bool.and_eq_true, decide_eq_true_iff,
      decide_eq_true_iff]
  refine Traced.Leaves.bind_pure (Traced.leaves_foldlM (fun acc channel hchannel => ?_) _)
  refine Traced.leaves_foldlM (fun acc ky hky => ?_) _
  have hc : channel < channels := List.mem_range.mp hchannel
  have hky' : ky < kernelHeight := List.mem_range.mp hky
  rw [tapCoordinate_eq_some hrows hheight hrow hky', Traced.liftM_some_bind]
  dsimp only
  generalize View.coordinate row c.stride.height ky c.dilation.height c.padding.height = y
  have hy : isInside y height = true ↔ 0 ≤ y ∧ y < height := hinside y (by omega)
  by_cases hyin : 0 ≤ y ∧ y < height
  · rw [if_pos (hy.mpr hyin), if_pos hyin]
    refine Traced.leaves_foldlM (fun acc kx hkx => ?_) _
    have hkx' : kx < kernelWidth := List.mem_range.mp hkx
    rw [tapCoordinate_eq_some hcolumns hwidth hcolumn hkx', Traced.liftM_some_bind]
    generalize View.coordinate column c.stride.width kx c.dilation.width c.padding.width = x'
    have hx' : isInside x' width = true ↔ 0 ≤ x' ∧ x' < width := hinside x' (by omega)
    by_cases hxin : 0 ≤ x' ∧ x' < width
    · rw [if_pos (hx'.mpr hxin), if_pos hxin]
      have hpixel : Index.Within [n, channel, y.toNat, x'.toNat] x.lens :=
        hx ▸ ⟨hn, hc, by omega, by omega, trivial⟩
      have hweight : Index.Within [o, channel, ky, kx] w.lens :=
        hw ▸ ⟨ho, hc, hky', hkx', trivial⟩
      exact leaves_touching_touching hpixel hweight _ _ _
    · rw [if_neg fun h => hxin (hx'.mp h), if_neg hxin]
      exact ⟨acc, rfl⟩
  · rw [if_neg fun h => hyin (hy.mp h), if_neg hyin]
    exact ⟨acc, rfl⟩

/-- A kernel with loops reads the elements that `visits` lists, in that order. -/
theorem trace_leaves {op : Operator} {shapes : List Shape} {t : Shape} {views : List View}
    (num : Arithmetic) (h : Operator.Infers op shapes t) (hop : op.accumulates = true)
    (hroom : op.Roomy shapes) (hv : View.Shaped shapes views) {idx : List Nat}
    (hi : Index.Within idx t.lens) :
    (trace num op views idx).Leaves (visits op (shapes.map Shape.lens) idx) := by
  unfold trace
  rw [View.map_lens_of_shaped hv]
  cases h with
  | gemm factor hf hd ha hb ht =>
    obtain _ | @⟨_, v, _, _, hx, _ | @⟨_, w, _, _, hy, _ | _⟩⟩ := hv
    rw [Shape.lens_of_standard ht] at hi
    obtain ⟨i, j, rfl⟩ : ∃ i j, idx = [i, j] := List.length_eq_two.mp (Index.length_of_within hi)
    rw [List.map_cons, List.map_cons, ha, hb]
    exact gemmElement_leaves num factor (hx.trans ha) (hy.trans hb) hi.1 hi.2.1
  | @softmax axis s _ hf ha ht =>
    obtain _ | @⟨_, v, _, _, hx, _ | _⟩ := hv
    rw [(Shape.asStandard_eq_some ht).1, ← hx] at hi
    rw [List.map_cons, ← hx]
    exact softmaxElement_leaves num axis hi
  | @convolution c _ _ batch channels height width banks kernelHeight kernelWidth rows columns _
      hf hd hx hw hrows hcolumns ht =>
    obtain _ | @⟨_, x, _, _, hxl, _ | @⟨_, w, _, _, hwl, _ | _⟩⟩ := hv
    rw [Shape.lens_of_standard ht] at hi
    obtain ⟨n, o, row, column, rfl⟩ : ∃ n o row column, idx = [n, o, row, column] :=
      List.length_eq_four.mp (Index.length_of_within hi)
    have hroom' : x.lens.getD 2 0 + 2 * c.padding.height ≤ Word.maxSigned ∧
        x.lens.getD 3 0 + 2 * c.padding.width ≤ Word.maxSigned := by
      rw [hxl]
      exact hroom
    rw [hxl, hx] at hroom'
    rw [List.map_cons, List.map_cons, hx, hw]
    exact convolutionElement_leaves num c (hxl.trans hx) (hwl.trans hw) hrows hcolumns hroom'.1
      hroom'.2 hi
  | _ => cases hop

/-- What a kernel with loops computes at an index comes from those reads. -/
theorem exists_trace_of_run {op : Operator} {shapes : List Shape} {t : Shape}
    {views : List View} {num : Arithmetic} {r : Tensor} (h : Operator.Infers op shapes t)
    (hop : op.accumulates = true) (hroom : op.Roomy shapes) (hv : View.Shaped shapes views)
    (hr : run num op t.lens views = .value r) {k : Nat} {idx : List Nat}
    (hk : (Index.indices t.lens)[k]? = some idx) :
    ∃ e, trace num op views idx = .done e (visits op (shapes.map Shape.lens) idx) ∧
      r.elements[k]? = some e := by
  have hi : Index.Within idx t.lens := Index.mem_indices.mp (List.mem_of_getElem? hk)
  obtain ⟨e, helement, he⟩ := exists_element_of_run h hop hv hr hk
  obtain ⟨e', htrace⟩ := trace_leaves num h hop hroom hv hi
  have hvalue : (trace num op views idx).value = _ := value_trace op views idx
  rw [htrace, helement] at hvalue
  have heq : e' = e := Option.some.inj hvalue
  exact ⟨e, heq ▸ htrace, he⟩

/-- An element touches what its way of reading touches. -/
theorem element_touches {ι : Type} {P : ι → Prop} (num : Arithmetic) (op : Operator)
    (lens : List (List Nat)) {read : Nat → List Nat → Traced ι Nat}
    (h : ∀ operand jdx, (read operand jdx).Touches P) (idx : List Nat) :
    (element num op lens read idx).Touches P := by
  unfold element
  split
  · refine (Traced.touches_foldlM (fun _ l => ?_) _ _).bind fun _ => Traced.touches_pure _
    exact (h _ _).bind fun _ => (h _ _).bind fun _ => Traced.touches_pure _
  · have hloop : ∀ {β : Type} (f : β → Nat → β) (axis count : Nat) (jdx : List Nat) (b : β),
        ((List.range count).foldlM (fun b j => do
          let v ← read 0 (jdx.set axis j)
          pure (f b v)) b).Touches P := fun f axis count jdx b =>
      Traced.touches_foldlM (fun _ _ => (h _ _).bind fun _ => Traced.touches_pure _) _ b
    exact (hloop _ _ _ _ _).bind fun _ => (hloop _ _ _ _ _).bind fun _ =>
      (h _ _).bind fun _ => Traced.touches_pure _
  · refine (Traced.touches_foldlM (fun _ channel => ?_) _ _).bind fun _ => Traced.touches_pure _
    refine Traced.touches_foldlM (fun _ ky => ?_) _ _
    refine (Traced.touches_liftM _).bind fun y => Traced.Touches.ite ?_ (Traced.touches_pure _)
    refine Traced.touches_foldlM (fun _ kx => ?_) _ _
    refine (Traced.touches_liftM _).bind fun x => Traced.Touches.ite ?_ (Traced.touches_pure _)
    exact (h _ _).bind fun _ => (h _ _).bind fun _ => Traced.touches_pure _
  · exact Traced.touches_liftM none

/-- The elements that are read lie inside the operands. -/
theorem within_of_mem_visits {op : Operator} {shapes : List Shape} {t : Shape}
    {views : List View} (num : Arithmetic) (h : Operator.Infers op shapes t)
    (hop : op.accumulates = true) (hroom : op.Roomy shapes) (hv : View.Shaped shapes views)
    {idx : List Nat} (hi : Index.Within idx t.lens) {v : Visit}
    (hm : v ∈ visits op (shapes.map Shape.lens) idx) :
    ∃ s, shapes[v.operand]? = some s ∧ Index.Within v.index s.lens := by
  obtain ⟨e, he⟩ := trace_leaves num h hop hroom hv hi
  have hread : ∀ operand jdx, (Traced.touching (Visit.mk operand jdx)
      (readAt views operand jdx)).Touches fun v => (readAt views v.operand v.index).isSome = true :=
    fun _ _ => Traced.touches_touching fun hsome => hsome
  have htouches := element_touches num op (views.map View.lens) hread idx
  obtain ⟨a, ha⟩ := Option.isSome_iff_exists.mp (htouches e _ he v hm)
  obtain ⟨w, hw, hat⟩ := Option.bind_eq_some_iff.mp ha
  have hwithin : Index.Within v.index w.lens := by
    by_contra hnot
    rw [View.at?, if_neg hnot] at hat
    cases hat
  obtain ⟨hlt, hget⟩ := List.getElem?_eq_some_iff.mp hw
  have hlt' : v.operand < shapes.length := hv.length_eq ▸ hlt
  have hlens : views[v.operand].lens = shapes[v.operand].lens := hv.get hlt' hlt
  refine ⟨shapes[v.operand], List.getElem?_eq_getElem hlt', ?_⟩
  rw [← hlens, hget]
  exact hwithin

end Kernel
end TensorGraph
