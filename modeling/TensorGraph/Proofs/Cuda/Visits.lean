/-
Kernels with loops read what the reference kernels read.

The operands are row-major and have no extent 0, and `Operator.Sized` keeps all sizes in
the range of signed words.  `Computes` says what the statements of an operator do for the
thread of an element: they make the loads that `Kernel.visits` lists, each at the offset of
its index, and one store.  `exists_body` shows it for the three operators, and from there
`source_follows` gets to whole kernels, launches and the results of the reference kernels.
-/
import Mathlib
import TensorGraph.Proofs.Cuda.Convolution
import TensorGraph.Proofs.Cuda.Frame
import TensorGraph.Proofs.Kernel.Visits
import TensorGraph.Proofs.Storage.RoundTrip

-- Products are those of the core library, whatever else is imported.
attribute [local instance (2000)] One.ofOfNat1

namespace TensorGraph

open Kernel (Visit)

/-! ## Elements of operands in storage -/

def Kernel.Visit.address (inputs : List Shape) (v : Visit) : Nat :=
  match inputs[v.operand]? with
  | some s => Index.offset v.index s.axes
  | none => 0

/-- An element lies inside its operand, and so does its place in storage. -/
def Kernel.Visit.Inside (inputs : List Shape) (v : Visit) : Prop :=
  ∃ s, inputs[v.operand]? = some s ∧ Index.Within v.index s.lens ∧ v.address inputs < s.lens.prod

def Kernel.Visit.load {ρ : Type} (inputs : List Shape) (v : Visit) : Cuda.Access ρ :=
  .load (Cuda.Source.input v.operand) (v.address inputs)

theorem Kernel.Visit.address_of_isStandard {inputs : List Shape} {operand : Nat} {s : Shape}
    (hs : inputs[operand]? = some s) (hstandard : s.isStandard = some true) {idx : List Nat}
    (hi : Index.Within idx s.lens) :
    (Visit.mk operand idx).address inputs = Index.position idx s.lens := by
  unfold address
  dsimp only
  rw [hs]
  exact Shape.offset_of_isStandard hstandard hi

theorem Kernel.Visit.inside_of_isStandard {inputs : List Shape} {operand : Nat} {s : Shape}
    (hs : inputs[operand]? = some s) (hstandard : s.isStandard = some true) {idx : List Nat}
    (hi : Index.Within idx s.lens) : (Visit.mk operand idx).Inside inputs := by
  refine ⟨s, hs, hi, ?_⟩
  rw [address_of_isStandard hs hstandard hi]
  exact Index.position_lt hi

/-- Row-major operands are loaded at row-major positions. -/
theorem Kernel.Visit.load_of_isStandard {ρ : Type} {inputs : List Shape} {operand : Nat} {s : Shape}
    (hs : inputs[operand]? = some s) (hstandard : s.isStandard = some true) {idx : List Nat}
    (hi : Index.Within idx s.lens) :
    ((Visit.mk operand idx).load inputs : Cuda.Access ρ) =
      .load (Cuda.Source.input operand) (Index.position idx s.lens) :=
  congrArg (Cuda.Access.load (Cuda.Source.input operand)) (address_of_isStandard hs hstandard hi)

/-! ## Sizes -/

/-- The sizes of an operation are signed words: the numbers of elements, and of the bytes of those
that are computed, the extents with their padding, and the steps of a window. -/
structure Operator.Sized (op : Operator) (inputs : List Shape) (output : Shape) : Prop where
  elements : ∀ s ∈ output :: inputs, s.lens.prod ≤ Word.maxSigned
  listable : output.Listable
  roomy : op.Roomy inputs
  steps : ∀ c, op = .convolution c →
    ∀ n ∈ [c.stride.height, c.stride.width, c.dilation.height, c.dilation.width],
      n ≤ Word.maxSigned

theorem Shape.Populated.filter_lens {s : Shape} (h : s.Populated) :
    s.lens.filter (· ≠ 0) = s.lens :=
  List.filter_eq_self.mpr fun n hn => decide_eq_true (Nat.pos_iff_ne_zero.mp (h n hn))

theorem Shape.Populated.extent_le {s : Shape} (h : s.Populated) {n : Nat} (hn : n ∈ s.lens) :
    n ≤ s.lens.prod :=
  Nat.le_of_dvd (List.prod_pos h) (List.dvd_prod hn)

theorem Operator.isCompute_of_accumulates {op : Operator} (h : op.accumulates = true) :
    op.isCompute = true := by
  cases op <;> first | rfl | cases h

theorem Operator.Infers.populated {op : Operator} {inputs : List Shape} {output : Shape}
    (h : Infers op inputs output) (hop : op.accumulates = true)
    (hpopulated : ∀ s ∈ inputs, s.Populated) : output.Populated :=
  h.populated_of_isCompute (isCompute_of_accumulates hop) hpopulated

namespace Cuda

open Stmt

variable {ρ : Type} {g : Grid}

/-! ## Arrays -/

theorem Source.input_injective : Function.Injective Source.input := by
  intro j k h
  have hrepr : j.repr = k.repr := by simpa [input] using h
  exact Nat.repr_injective hrepr

theorem array_input {s : Source} {f : Floating ρ} {operands : List (List ρ)} {count : Nat}
    {t : g.Thread} {k : Nat} (hk : k < s.inputs) {xs : List ρ} (hxs : operands[k]? = some xs) :
    (s.machine f operands count t).array (Source.input k) = some xs := by
  obtain ⟨n, hn⟩ : ∃ n, s.inputs = k + (n + 1) := ⟨s.inputs - k - 1, by omega⟩
  have hrange : List.range s.inputs =
      List.range k ++ k :: ((List.range n).map Nat.succ).map (k + ·) := by
    rw [hn, List.range_add, List.range_succ_eq_map, List.map_cons, Nat.add_zero]
  refine List.findSome?_eq_some_iff.mpr ⟨List.range k, k, _, hrange, ?_, fun j hj => ?_⟩
  · rw [if_pos rfl, hxs]
  · have hjk : j < k := List.mem_range.mp hj
    exact if_neg fun h => by
      have := Source.input_injective h
      omega

/-- The statements of an operator for a thread do this: they make the loads that the
reference kernel makes for the element, and store to the element. -/
def Computes (statements : Stmt) (op : Operator) (inputs : List Shape) (output : Shape) : Prop :=
  ∀ {ρ : Type} {m : Machine ρ} {idx : List Nat},
    (∀ k s, inputs[k]? = some s → ∃ xs, m.array (Source.input k) = some xs ∧
      xs.length = s.lens.prod) →
    m.count = output.lens.prod → m.element.integer = none → Index.Within idx output.lens →
    ∃ env x, statements.exec m [wordVar "i" (Index.position idx output.lens)] =
      .done (.next, env) ((Kernel.visits op (inputs.map Shape.lens) idx).map (Visit.load inputs) ++
        [.store (Index.position idx output.lens) x])

theorem position_pair (i j m n : Nat) : Index.position [i, j] [m, n] = i * n + j := by
  simp [Index.position]

theorem position_four (i j k l n c h w : Nat) :
    Index.position [i, j, k, l] [n, c, h, w] = flat c h w i j k l := by
  simp only [Index.position, List.prod_cons, List.prod_nil, flat]
  ring

/-! ## Matrix product -/

theorem map_load_gemmVisits {a b : Shape} {m k n i j : Nat} (ha : a.lens = [m, k])
    (hb : b.lens = [k, n]) (hastd : a.isStandard = some true) (hbstd : b.isStandard = some true)
    (hi : i < m) (hj : j < n) :
    (Kernel.gemmVisits k i j).map (Visit.load [a, b]) = (List.range k).flatMap fun l =>
      ([.load "in0" (i * k + l), .load "in1" (l * n + j)] : List (Access ρ)) := by
  rw [Kernel.gemmVisits, List.map_flatMap]
  refine List.flatMap_congr fun l hl => ?_
  have hlk : l < k := List.mem_range.mp hl
  have hrow : Index.Within [i, l] a.lens := ha ▸ ⟨hi, hlk, trivial⟩
  have hcolumn : Index.Within [l, j] b.lens := hb ▸ ⟨hlk, hj, trivial⟩
  rw [List.map_cons, List.map_cons, List.map_nil, Visit.load_of_isStandard rfl hastd hrow,
    Visit.load_of_isStandard rfl hbstd hcolumn, ha, hb, position_pair, position_pair]
  rfl

theorem computes_gemm {a b output : Shape} {m k n : Nat} (element : String) (factor : Nat)
    (ha : a.lens = [m, k]) (hb : b.lens = [k, n]) (ho : output.lens = [m, n])
    (hastd : a.isStandard = some true) (hbstd : b.isStandard = some true)
    (hsized : (Operator.gemm factor).Sized [a, b] output) :
    Computes (gemmBody (.element element) factor k n) (.gemm factor) [a, b] output := by
  intro ρ machine idx harray hcount helement hi
  have hsize : ∀ s ∈ [output, a, b], s.lens.prod ≤ Word.maxUnsigned :=
    fun s hs => (hsized.elements s hs).trans (by decide)
  obtain ⟨xs, h0, hxs⟩ := harray 0 a rfl
  obtain ⟨ys, h1, hys⟩ := harray 1 b rfl
  have hsa := hsize a (by simp)
  have hsb := hsize b (by simp)
  have hso := hsize output (by simp)
  rw [ho] at hcount hi hso ⊢
  rw [ha] at hxs hsa
  rw [hb] at hys hsb
  have hprod : ∀ p q : Nat, [p, q].prod = p * q := fun p q => by simp
  rw [hprod] at hcount hxs hys hsa hsb hso
  obtain ⟨r, c, rfl⟩ : ∃ r c, idx = [r, c] := List.length_eq_two.mp (Index.length_of_within hi)
  obtain ⟨hr, hc, -⟩ := hi
  obtain ⟨env, x, hexec⟩ := exec_gemmBody element factor h0 h1 hxs hys hcount helement hsa hsb hso
    hr hc
  have hvisits : Kernel.visits (.gemm factor) ([a, b].map Shape.lens) [r, c] =
      Kernel.gemmVisits k r c := by
    rw [List.map_cons, List.map_cons, List.map_nil, ha, hb]
    rfl
  rw [hvisits, map_load_gemmVisits ha hb hastd hbstd hr hc, position_pair]
  exact ⟨env, x, hexec⟩

/-! ## Softmax -/

/-- The number of an element, in terms of its lane: where the lane starts, and the place in it. -/
theorem exists_lane {lens idx : List Nat} (hi : Index.Within idx lens) {axis count : Nat}
    (ha : lens[axis]? = some count) :
    ∃ base, Index.position idx lens / (count * (lens.drop (axis + 1)).prod) *
          (count * (lens.drop (axis + 1)).prod) +
        Index.position idx lens % (lens.drop (axis + 1)).prod = base ∧
      ∀ j, Index.position (idx.set axis j) lens = base + j * (lens.drop (axis + 1)).prod := by
  let after := (lens.drop (axis + 1)).prod
  let o := Index.position (idx.take axis) (lens.take axis)
  let r := Index.position (idx.drop (axis + 1)) (lens.drop (axis + 1))
  have hset : ∀ j, Index.position (idx.set axis j) lens = o * (count * after) + r + j * after :=
    Kernel.position_set hi ha
  have hr : r < after := Index.position_lt (Kernel.within_drop hi (axis + 1))
  obtain ⟨hlt, -⟩ := List.getElem?_eq_some_iff.mp ha
  have hlt' : axis < idx.length := Index.length_of_within hi ▸ hlt
  have hplace : idx[axis] < count := by
    have h := Index.getElem_lt_of_within hi hlt'
    rwa [List.getD_eq_getElem?_getD, ha] at h
  have hself : Index.position idx lens = o * (count * after) + r + idx[axis] * after := by
    have h := hset idx[axis]
    rwa [List.set_getElem_self hlt'] at h
  have hblock : Index.position idx lens = o * (count * after) + (idx[axis] * after + r) := by
    rw [hself]
    omega
  have hrow : Index.position idx lens = (o * count + idx[axis]) * after + r := by
    rw [hself]
    ring
  have hdiv : Index.position idx lens / (count * after) = o := by
    rw [hblock]
    exact mul_add_div o (mul_add_lt hplace hr)
  have hmod : Index.position idx lens % after = r := by
    rw [hrow]
    exact mul_add_mod _ hr
  refine ⟨o * (count * after) + r, ?_, hset⟩
  show Index.position idx lens / (count * after) * (count * after) +
    Index.position idx lens % after = _
  rw [hdiv, hmod]

/-- The lanes of a tensor take no more than the tensor. -/
theorem lane_span_le {s : Shape} (hs : s.Populated) {axis count : Nat}
    (ha : s.lens[axis]? = some count) : count * (s.lens.drop (axis + 1)).prod ≤ s.lens.prod := by
  obtain ⟨hlt, hget⟩ := List.getElem?_eq_some_iff.mp ha
  have hbefore : 0 < (s.lens.take axis).prod :=
    List.prod_pos fun n hn => hs n (List.mem_of_mem_take hn)
  rw [← List.prod_take_mul_prod_drop s.lens axis, ← List.cons_getElem_drop_succ (h := hlt),
    List.prod_cons, hget]
  exact Nat.le_mul_of_pos_left _ hbefore

theorem map_load_laneVisits {s : Shape} {axis count base : Nat} {idx : List Nat}
    (ha : s.lens[axis]? = some count) (hstd : s.isStandard = some true)
    (hi : Index.Within idx s.lens)
    (hset : ∀ j, Index.position (idx.set axis j) s.lens =
      base + j * (s.lens.drop (axis + 1)).prod) :
    (Kernel.laneVisits axis count idx).map (Visit.load [s]) =
      (List.range count).map fun j =>
        (Access.load "in0" (base + j * (s.lens.drop (axis + 1)).prod) : Access ρ) := by
  rw [Kernel.laneVisits, List.map_map]
  refine List.map_congr_left fun j hj => ?_
  show (Visit.mk 0 (idx.set axis j)).load [s] = _
  have hwithin : Index.Within (idx.set axis j) s.lens := by
    refine View.within_set hi ?_
    rw [List.getD_eq_getElem?_getD, ha]
    exact List.mem_range.mp hj
  rw [Visit.load_of_isStandard rfl hstd hwithin, hset]
  rfl

theorem computes_softmax {s output : Shape} {axis count : Nat} (element : String)
    (ha : s.lens[axis]? = some count) (ho : output.lens = s.lens)
    (hstd : s.isStandard = some true) (hpopulated : s.Populated)
    (hsized : (Operator.softmax axis).Sized [s] output) :
    Computes (softmaxBody (.element element) count (s.lens.drop (axis + 1)).prod
      (count * (s.lens.drop (axis + 1)).prod)) (.softmax axis) [s] output := by
  intro ρ machine idx harray hroom helement hi
  have hsize : s.lens.prod ≤ Word.maxUnsigned := (hsized.elements s (by simp)).trans (by decide)
  obtain ⟨xs, h0, hxs⟩ := harray 0 s rfl
  rw [ho] at hi hroom ⊢
  obtain ⟨base, hbase, hset⟩ := exists_lane hi ha
  have hlane : ∀ j < count, base + j * (s.lens.drop (axis + 1)).prod < xs.length := by
    intro j hj
    rw [← hset, hxs]
    refine Index.position_lt (View.within_set hi ?_)
    rw [List.getD_eq_getElem?_getD, ha]
    exact hj
  have hcount : 0 < count := hpopulated _ (List.mem_of_getElem? ha)
  have hafter : 0 < (s.lens.drop (axis + 1)).prod :=
    List.prod_pos fun n hn => hpopulated n (List.mem_of_mem_drop hn)
  have hspan : count * (s.lens.drop (axis + 1)).prod ≤ xs.length :=
    hxs ▸ lane_span_le hpopulated ha
  have hi' : Index.position idx s.lens < xs.length := hxs ▸ Index.position_lt hi
  obtain ⟨env, x, hexec⟩ := exec_softmaxBody element h0 (hroom.trans hxs.symm) helement
    (hxs ▸ hsize) hafter hcount hspan hi' hbase hlane
  have hvisits : Kernel.visits (.softmax axis) ([s].map Shape.lens) idx =
      Kernel.laneVisits axis count idx ++ Kernel.laneVisits axis count idx ++ [⟨0, idx⟩] := by
    have hcount' : s.lens.getD axis 0 = count := by
      rw [List.getD_eq_getElem?_getD, ha, Option.getD_some]
    rw [← hcount']
    rfl
  have hself : (Visit.mk 0 idx).load [s] =
      (.load "in0" (Index.position idx s.lens) : Access ρ) :=
    Visit.load_of_isStandard rfl hstd hi
  rw [hvisits, List.map_append, List.map_append, map_load_laneVisits ha hstd hi hset,
    List.map_singleton, hself]
  exact ⟨env, x, hexec⟩

/-! ## Convolution -/

theorem prod_four (n c h w : Nat) : [n, c, h, w].prod = n * c * h * w := by
  simp only [List.prod_cons, List.prod_nil]
  ring

theorem fits_of_sized {x w output : Shape} {c : Convolution} (e : Extents)
    (hx : x.lens = [e.batch, e.channels, e.height, e.width])
    (hw : w.lens = [e.banks, e.channels, e.kernelHeight, e.kernelWidth])
    (ho : output.lens = [e.batch, e.banks, e.rows, e.columns])
    (hrows : c.outputHeight e.height e.kernelHeight = some (some e.rows))
    (hcolumns : c.outputWidth e.width e.kernelWidth = some (some e.columns))
    (hxpop : x.Populated) (hwpop : w.Populated) (hopop : output.Populated)
    (hsized : (Operator.convolution c).Sized [x, w] output) : e.Fits c := by
  have himages := hsized.elements x (by simp)
  have hkernels := hsized.elements w (by simp)
  have houtput := hsized.elements output (by simp)
  unfold Shape.Populated at hxpop hwpop hopop
  rw [hx] at himages hxpop
  rw [hw] at hkernels hwpop
  rw [ho] at houtput hopop
  rw [prod_four] at himages hkernels houtput
  simp only [List.mem_cons, List.not_mem_nil, or_false, forall_eq_or_imp, forall_eq]
    at hxpop hwpop hopop
  obtain ⟨hn, hc, hh, hw'⟩ := extents_le hxpop.1 hxpop.2.1 hxpop.2.2.1 hxpop.2.2.2
  obtain ⟨hb, -, hkh, hkw⟩ := extents_le hwpop.1 hwpop.2.1 hwpop.2.2.1 hwpop.2.2.2
  obtain ⟨-, -, hr, hcol⟩ := extents_le hopop.1 hopop.2.1 hopop.2.2.1 hopop.2.2.2
  have hroomy : x.lens.getD 2 0 + 2 * c.padding.height ≤ Word.maxSigned ∧
      x.lens.getD 3 0 + 2 * c.padding.width ≤ Word.maxSigned := hsized.roomy
  rw [hx] at hroomy
  have hheight : e.height + 2 * c.padding.height ≤ Word.maxSigned := hroomy.1
  have hwidth : e.width + 2 * c.padding.width ≤ Word.maxSigned := hroomy.2
  have hsteps := hsized.steps c rfl
  simp only [List.mem_cons, List.not_mem_nil, or_false, forall_eq_or_imp, forall_eq] at hsteps
  have heach : ∀ n ∈ [e.batch, e.channels, e.height, e.width, e.banks, e.kernelHeight,
      e.kernelWidth, e.rows, e.columns], n ≤ Word.maxSigned := by
    simp only [List.mem_cons, List.not_mem_nil, or_false, forall_eq_or_imp, forall_eq]
    omega
  exact {
    each := heach
    images := himages
    kernels := hkernels
    output := houtput
    stride := ⟨hsteps.1, hsteps.2.1⟩
    dilation := ⟨hsteps.2.2.1, hsteps.2.2.2⟩
    padding := by omega
    rowMoved := fun row hrow ky hky => by
      have h := (Kernel.outputLen_bounds hrows).2 row ky hrow hky
      omega
    columnMoved := fun column hcolumn kx hkx => by
      have h := (Kernel.outputLen_bounds hcolumns).2 column kx hcolumn hkx
      omega }

theorem convolutionSizes_eq_some {x w output : Shape} {c : Convolution} (e : Extents)
    (hx : x.lens = [e.batch, e.channels, e.height, e.width])
    (hw : w.lens = [e.banks, e.channels, e.kernelHeight, e.kernelWidth])
    (ho : output.lens = [e.batch, e.banks, e.rows, e.columns]) (hfits : e.Fits c)
    (hopop : output.Populated) : convolutionSizes output [x, w] = some e.sizes := by
  have hmax : Word.maxSigned ≤ Word.maxUnsigned := by decide
  have hoe : ∀ k, output.extent? k = [e.batch, e.banks, e.rows, e.columns][k]? := fun k => by
    rw [Shape.extent?_eq, ho]
  have hwe : ∀ k, w.extent? k =
      [e.banks, e.channels, e.kernelHeight, e.kernelWidth][k]? := fun k => by
    rw [Shape.extent?_eq, hw]
  have hxe : ∀ k, x.extent? k = [e.batch, e.channels, e.height, e.width][k]? := fun k => by
    rw [Shape.extent?_eq, hx]
  have hpositive : ∀ n ∈ [e.batch, e.banks, e.rows, e.columns], 0 < n := ho ▸ hopop
  simp only [List.mem_cons, List.not_mem_nil, or_false, forall_eq_or_imp, forall_eq] at hpositive
  have houtput := hfits.output.trans hmax
  -- the products of the last two and of the last three extents of the output
  have hblock : e.banks * e.rows * e.columns ≤ e.batch * e.banks * e.rows * e.columns := by
    rw [Nat.mul_assoc e.batch, Nat.mul_assoc e.batch]
    exact Nat.le_mul_of_pos_left _ hpositive.1
  have himage : e.rows * e.columns ≤ e.banks * e.rows * e.columns := by
    rw [Nat.mul_assoc e.banks]
    exact Nat.le_mul_of_pos_left _ hpositive.2.1
  have hrows : e.banks * e.rows ≤ e.banks * e.rows * e.columns :=
    Nat.le_mul_of_pos_right _ hpositive.2.2.2
  have hmul : ∀ {p q : Nat}, p * q ≤ Word.maxUnsigned → Word.mul p q = some (p * q) :=
    fun h => Word.fit_of_le h
  have hsigned : ∀ {n : Nat}, n ≤ Word.maxSigned → Word.toSigned n = n := fun h => if_pos h
  have hheight : e.height ≤ Word.maxSigned := hfits.each _ (by simp)
  have hwidth : e.width ≤ Word.maxSigned := hfits.each _ (by simp)
  simp only [convolutionSizes, hoe, hwe, hxe, List.getElem?_cons_zero, List.getElem?_cons_succ,
    Option.bind_eq_bind, Option.bind_some, hmul (himage.trans (hblock.trans houtput)),
    hmul (hrows.trans (hblock.trans houtput)), hmul (hblock.trans houtput), hsigned hheight,
    hsigned hwidth]
  rfl

theorem map_load_windowVisits {x w : Shape} {c : Convolution} (e : Extents) {b o oy ox : Nat}
    (hx : x.lens = [e.batch, e.channels, e.height, e.width])
    (hw : w.lens = [e.banks, e.channels, e.kernelHeight, e.kernelWidth])
    (hxstd : x.isStandard = some true) (hwstd : w.isStandard = some true)
    (hb : b < e.batch) (ho : o < e.banks) :
    (Kernel.windowVisits c e.channels e.height e.width e.kernelHeight e.kernelWidth b o oy ox).map
        (Visit.load [x, w]) = (List.range e.channels).flatMap fun ch =>
      (List.range e.kernelHeight).flatMap fun ky =>
        (rowLoads c e b o oy ox ch ky : List (Access ρ)) := by
  rw [Kernel.windowVisits, List.map_flatMap]
  refine List.flatMap_congr fun ch hch => ?_
  rw [List.map_flatMap]
  refine List.flatMap_congr fun ky hky => ?_
  unfold rowLoads
  dsimp only
  generalize View.coordinate oy c.stride.height ky c.dilation.height c.padding.height = y
  by_cases hy : 0 ≤ y ∧ y < e.height
  · rw [if_pos hy, if_pos hy, List.map_flatMap]
    refine List.flatMap_congr fun kx hkx => ?_
    unfold tapLoads
    dsimp only
    generalize View.coordinate ox c.stride.width kx c.dilation.width c.padding.width = z
    by_cases hz : 0 ≤ z ∧ z < e.width
    · rw [if_pos hz, if_pos hz]
      have hpixel : Index.Within [b, ch, y.toNat, z.toNat] x.lens :=
        hx ▸ ⟨hb, List.mem_range.mp hch, by omega, by omega, trivial⟩
      have hweight : Index.Within [o, ch, ky, kx] w.lens :=
        hw ▸ ⟨ho, List.mem_range.mp hch, List.mem_range.mp hky, List.mem_range.mp hkx, trivial⟩
      rw [List.map_cons, List.map_cons, List.map_nil, Visit.load_of_isStandard rfl hxstd hpixel,
        Visit.load_of_isStandard rfl hwstd hweight, hx, hw, position_four, position_four]
      rfl
    · rw [if_neg hz, if_neg hz]
      rfl
  · rw [if_neg hy, if_neg hy]
    rfl

theorem computes_convolution {x w output : Shape} {c : Convolution} (e : Extents)
    (element : String) (hx : x.lens = [e.batch, e.channels, e.height, e.width])
    (hw : w.lens = [e.banks, e.channels, e.kernelHeight, e.kernelWidth])
    (ho : output.lens = [e.batch, e.banks, e.rows, e.columns])
    (hxstd : x.isStandard = some true) (hwstd : w.isStandard = some true) (hfits : e.Fits c) :
    Computes (convolutionBody (.element element) c e.sizes) (.convolution c) [x, w] output := by
  intro ρ machine idx harray hcount helement hi
  obtain ⟨xs, h0, hxs⟩ := harray 0 x rfl
  obtain ⟨ws, h1, hws⟩ := harray 1 w rfl
  rw [ho] at hcount hi ⊢
  rw [hx] at hxs
  rw [hw] at hws
  rw [prod_four] at hcount hxs hws
  obtain ⟨b, o, oy, ox, rfl⟩ : ∃ b o oy ox, idx = [b, o, oy, ox] :=
    List.length_eq_four.mp (Index.length_of_within hi)
  obtain ⟨hb, hbank, hoy, hox, -⟩ := hi
  obtain ⟨env, z, hexec⟩ := exec_convolutionBody hb hbank hoy hox element hfits h0 h1 hxs hws
    hcount helement
  have hvisits : Kernel.visits (.convolution c) ([x, w].map Shape.lens) [b, o, oy, ox] =
      Kernel.windowVisits c e.channels e.height e.width e.kernelHeight e.kernelWidth
        b o oy ox := by
    rw [List.map_cons, List.map_cons, List.map_nil, hx, hw]
    rfl
  rw [hvisits, map_load_windowVisits e hx hw hxstd hwstd hb hbank, position_four]
  exact ⟨env, z, hexec⟩

/-! ## All three -/

theorem body_gemm {a b output : Shape} {k n : Nat} (factor : Nat) (hk : a.lens[1]? = some k)
    (hn : output.lens[1]? = some n) :
    body (.gemm factor) output [a, b] =
      .value (gemmBody (.element output.dtype.cName) factor k n) := by
  show (do
    let inner ← a.extent? 1
    let columns ← output.extent? 1
    return gemmBody (.element output.dtype.cName) factor inner columns : Outcome Stmt) = _
  rw [Shape.extent?_eq, hk, Shape.extent?_eq, hn]
  rfl

theorem body_softmax {s output : Shape} {axis count : Nat} (ha : s.lens[axis]? = some count)
    (ho : output.lens = s.lens) (hs : s.Populated) (hsize : s.lens.prod ≤ Word.maxUnsigned) :
    body (.softmax axis) output [s] =
      .value (softmaxBody (.element output.dtype.cName) count (s.lens.drop (axis + 1)).prod
        (count * (s.lens.drop (axis + 1)).prod)) := by
  have hcount : 0 < count := hs _ (List.mem_of_getElem? ha)
  have hspan : count * (s.lens.drop (axis + 1)).prod ≤ Word.maxUnsigned :=
    (lane_span_le hs ha).trans hsize
  have hinner : Word.product (output.lens.drop (axis + 1)) =
      some (s.lens.drop (axis + 1)).prod := by
    rw [ho]
    exact Word.product_of_pos (fun n hn => hs n (List.mem_of_mem_drop hn))
      ((Nat.le_mul_of_pos_left _ hcount).trans hspan)
  show (do
    let len ← output.extent? axis
    let inner ← Word.product (output.lens.drop (axis + 1))
    let span ← Word.mul len inner
    return softmaxBody (.element output.dtype.cName) len inner span : Outcome Stmt) = _
  rw [Shape.extent?_eq, hinner, ho, ha]
  show (do
    let span ← Word.mul count (s.lens.drop (axis + 1)).prod
    return softmaxBody (.element output.dtype.cName) count (s.lens.drop (axis + 1)).prod span :
      Outcome Stmt) = _
  rw [Word.mul, Word.fit_of_le hspan]
  rfl

theorem body_convolution {x w output : Shape} {c : Convolution} {sizes : ConvolutionSizes}
    (h : convolutionSizes output [x, w] = some sizes) :
    body (.convolution c) output [x, w] =
      .value (convolutionBody (.element output.dtype.cName) c sizes) := by
  show (do
    let sizes ← convolutionSizes output [x, w]
    return convolutionBody (.element output.dtype.cName) c sizes : Outcome Stmt) = _
  rw [h]
  rfl

/-- The statements of an operator that accumulates: they exist, their texts are read as they
are meant, and they compute. -/
theorem exists_body {op : Operator} {inputs : List Shape} {output : Shape}
    (h : Operator.Infers op inputs output) (hop : op.accumulates = true)
    (hstandard : ∀ s ∈ inputs, s.isStandard = some true)
    (hpopulated : ∀ s ∈ inputs, s.Populated) (hsized : op.Sized inputs output) :
    ∃ statements, body op output inputs = .value statements ∧ statements.isGrouped = true ∧
      Computes statements op inputs output := by
  have houtput := h.populated hop hpopulated
  cases h with
  | @gemm factor a b m k n _ hf hd ha hb ht =>
    have ho := Shape.lens_of_standard ht
    exact ⟨_, body_gemm factor (by rw [ha]; rfl) (by rw [ho]; rfl), rfl,
      computes_gemm _ factor ha hb ho (hstandard a (by simp)) (hstandard b (by simp)) hsized⟩
  | @softmax axis s _ hf hax ht =>
    have ho := (Shape.asStandard_eq_some ht).1
    obtain ⟨count, ha⟩ : ∃ count, s.lens[axis]? = some count :=
      ⟨_, List.getElem?_eq_getElem (by rw [Shape.length_lens]; exact hax)⟩
    have hs : s.Populated := hpopulated s (by simp)
    have hsize : s.lens.prod ≤ Word.maxUnsigned :=
      (hsized.elements s (by simp)).trans (by decide)
    exact ⟨_, body_softmax ha ho hs hsize, rfl,
      computes_softmax _ ha ho (hstandard s (by simp)) hs hsized⟩
  | @convolution c x w batch channels height width banks kernelHeight kernelWidth rows columns _
      hf hd hx hw hrows hcolumns ht =>
    let e : Extents :=
      ⟨batch, channels, height, width, banks, kernelHeight, kernelWidth, rows, columns⟩
    have ho := Shape.lens_of_standard ht
    have hfits : e.Fits c := fits_of_sized e hx hw ho hrows hcolumns (hpopulated x (by simp))
      (hpopulated w (by simp)) houtput hsized
    exact ⟨_, body_convolution (convolutionSizes_eq_some e hx hw ho hfits houtput), rfl,
      computes_convolution e _ hx hw ho (hstandard x (by simp)) (hstandard w (by simp)) hfits⟩
  | _ => cases hop

/-- The arrays of a launch hold the elements of operands of these shapes. -/
def Held {ρ : Type} (inputs : List Shape) (operands : List (List ρ)) : Prop :=
  List.Forall₂ (fun s xs => xs.length = s.lens.prod) inputs operands

def Source.Stores {ρ : Type} (s : Source) (f : Floating ρ) (operands : List (List ρ)) (count : Nat)
    {g : Grid} (t : g.Thread) (p : Nat) : Prop :=
  ∃ l x, s.accesses f operands count t = some l ∧ .store p x ∈ l

/-- A kernel follows the reference kernel of an operator, whatever floating operations do:
its texts are read as they are meant; the thread of an element works out which elements of
the operands the reference kernel reads for that element, loads those from inside the operands
in the same order and stores once, to the element; an element of a softmax is in the lane that
is gone through for it; all other threads do nothing; and a launch with enough threads has
exactly one for each element. -/
structure Source.Follows (s : Source) (num : Arithmetic) (op : Operator) (inputs : List Shape)
    (output : Shape) : Prop where
  grouped : s.body.isGrouped = true
  reads : ∀ {views : List View}, View.Shaped inputs views →
    ∃ r, Kernel.run num op output.lens views = .value r ∧
      ∀ {ρ : Type} (f : Floating ρ) {operands : List (List ρ)}, Held inputs operands →
        ∀ {g : Grid} (t : g.Thread), t.number < output.lens.prod →
          ∃ idx e x, (Index.indices output.lens)[t.number]? = some idx ∧
            r.elements[t.number]? = some e ∧
            Kernel.trace num op views idx =
              .done e (Kernel.visits op (inputs.map Shape.lens) idx) ∧
            (∀ v ∈ Kernel.visits op (inputs.map Shape.lens) idx, v.Inside inputs) ∧
            s.accesses f operands output.lens.prod t =
              some ((Kernel.visits op (inputs.map Shape.lens) idx).map (Visit.load inputs) ++
                [.store t.number x])
  own : ∀ axis, op = .softmax axis → ∀ s ∈ inputs, ∀ idx, Index.Within idx output.lens →
    ⟨0, idx⟩ ∈ Kernel.laneVisits axis (s.lens.getD axis 0) idx
  idle : ∀ {ρ : Type} (f : Floating ρ) (operands : List (List ρ)) {g : Grid} (t : g.Thread),
    output.lens.prod ≤ t.number → s.accesses f operands output.lens.prod t = some []
  writes : ∀ {ρ : Type} (f : Floating ρ) {operands : List (List ρ)}, Held inputs operands →
    ∀ {g : Grid}, output.lens.prod ≤ g.blocks * g.width → ∀ p < output.lens.prod,
      ∃! t : g.Thread, s.Stores f operands output.lens.prod t p

section

variable {op : Operator} {inputs : List Shape} {output : Shape} {statements : Stmt}
  {element : String} {operands : List (List ρ)}

/-- The thread of an element makes the loads of the reference kernel and stores to the element. -/
theorem exists_accesses (element : String) (hcomputes : Computes statements op inputs output)
    (hfit : output.lens.prod ≤ Word.maxUnsigned) (f : Floating ρ) (hheld : Held inputs operands)
    (t : g.Thread) (ht : t.number < output.lens.prod) :
    ∃ idx x, (Index.indices output.lens)[t.number]? = some idx ∧
      (Source.mk element inputs.length (frame output.lens.prod statements)).accesses f operands
          output.lens.prod t =
        some ((Kernel.visits op (inputs.map Shape.lens) idx).map (Visit.load inputs) ++
          [.store t.number x]) := by
  have hlt : t.number < (Index.indices output.lens).length := by
    rw [Index.length_indices]
    exact ht
  have hposition : Index.position (Index.indices output.lens)[t.number] output.lens = t.number :=
    Index.position_getElem_indices hlt
  have hwithin : Index.Within (Index.indices output.lens)[t.number] output.lens :=
    Index.mem_indices.mp (List.getElem_mem hlt)
  let s : Source := ⟨element, inputs.length, frame output.lens.prod statements⟩
  have harray : ∀ k shape, inputs[k]? = some shape →
      ∃ xs, (s.machine f operands output.lens.prod t).array (Source.input k) = some xs ∧
        xs.length = shape.lens.prod := by
    intro k shape hshape
    obtain ⟨hk, rfl⟩ := List.getElem?_eq_some_iff.mp hshape
    have hk' : k < operands.length := hheld.length_eq ▸ hk
    exact ⟨operands[k], array_input hk (List.getElem?_eq_getElem hk'), hheld.get hk hk'⟩
  obtain ⟨env, x, hexec⟩ := hcomputes harray rfl rfl hwithin
  rw [hposition] at hexec
  exact ⟨_, x, List.getElem?_eq_getElem hlt, accesses_of_lt hfit ht hexec⟩

/-- Of loads and a store behind them, the store is the only one. -/
theorem eq_of_store_mem {vs : List Visit} {p q : Nat} {x y : ρ}
    (h : Access.store p y ∈ vs.map (Visit.load inputs) ++ [.store q x]) : p = q := by
  rcases List.mem_append.mp h with h | h
  · obtain ⟨v, -, hv⟩ := List.mem_map.mp h
    cases hv
  · cases List.mem_singleton.mp h
    rfl

/-- If the thread of each element stores there, behind its loads, and all other threads do
nothing, then a launch with enough threads has exactly one that stores to an element. -/
theorem existsUnique_of_own (inputs : List Shape) {s : Source} {f : Floating ρ} {count : Nat}
    (hown : ∀ t : g.Thread, t.number < count → ∃ (vs : List Visit) (x : ρ),
      s.accesses f operands count t = some (vs.map (Visit.load inputs) ++ [.store t.number x]))
    (hidle : ∀ t : g.Thread, count ≤ t.number → s.accesses f operands count t = some [])
    (henough : count ≤ g.blocks * g.width) {p : Nat} (hp : p < count) :
    ∃! t : g.Thread, s.Stores f operands count t p := by
  obtain ⟨t, rfl⟩ := Grid.exists_thread (hp.trans_le henough)
  obtain ⟨vs, x, hx⟩ := hown t hp
  refine ⟨t, ⟨_, x, hx, List.mem_append_right _ List.mem_cons_self⟩, ?_⟩
  rintro u ⟨l, y, hu, hy⟩
  refine Grid.Thread.number_injective ?_
  by_cases hlt : u.number < count
  · obtain ⟨ws, z, hz⟩ := hown u hlt
    rw [hz] at hu
    cases hu
    exact (eq_of_store_mem hy).symm
  · rw [hidle u (Nat.le_of_not_lt hlt)] at hu
    cases hu
    cases hy

/-- A launch with enough threads has exactly one that stores to an element. -/
theorem existsUnique_stores (hcomputes : Computes statements op inputs output)
    (hfit : output.lens.prod ≤ Word.maxUnsigned) (f : Floating ρ) (hheld : Held inputs operands)
    (henough : output.lens.prod ≤ g.blocks * g.width) {p : Nat} (hp : p < output.lens.prod) :
    ∃! t : g.Thread, (Source.mk element inputs.length (frame output.lens.prod statements)).Stores f
      operands output.lens.prod t p := by
  refine existsUnique_of_own inputs (fun t ht => ?_)
    (fun t ht => accesses_of_le hfit ht) henough hp
  obtain ⟨idx, x, -, hx⟩ := exists_accesses element hcomputes hfit f hheld t ht
  exact ⟨_, x, hx⟩

end

theorem exists_run {op : Operator} {inputs : List Shape} {output : Shape} {num : Arithmetic}
    {views : List View} (h : Operator.Infers op inputs output) (hop : op.accumulates = true)
    (hnum : output.dtype.arithmetic = some num) (hpopulated : ∀ s ∈ inputs, s.Populated)
    (hsized : op.Sized inputs output) (hv : View.Shaped inputs views) :
    ∃ r, Kernel.run num op output.lens views = .value r := by
  have hcompute := Operator.isCompute_of_accumulates hop
  obtain ⟨w, hdenote, -⟩ :=
    Operator.exists_denote h (Operator.isParameter_of_isCompute hcompute) hv
  have hword : ∀ s ∈ inputs, ∀ n ∈ s.lens, n ≤ Word.maxSigned := fun s hs n hn =>
    ((hpopulated s hs).extent_le hn).trans (hsized.elements s (List.mem_cons_of_mem _ hs))
  have hcountable : View.isCountable output.lens = true := by
    refine decide_eq_true ?_
    rw [(h.populated hop hpopulated).filter_lens]
    exact hsized.elements output List.mem_cons_self
  have hends : (Kernel.run num op output.lens views).Ends True (· = w.toTensor) :=
    Kernel.run_ends h hcompute (by rintro rfl; cases hop) hnum hv hword (fun _ => hcountable)
      (fun _ => Dtype.size_arithmetic hnum ▸ hsized.listable) (fun _ => hsized.roomy) hdenote
  obtain ⟨r, hr, -⟩ := hends.eq_value_of_fits trivial
  exact ⟨r, hr⟩

/-- The kernels of the matrix product, of softmax and of the convolution load the elements
of row-major operands that the reference kernels read. -/
theorem source_follows {op : Operator} {inputs : List Shape} {output : Shape}
    (hop : op.accumulates = true) (hinfer : op.infer inputs = .value output)
    (hstandard : ∀ s ∈ inputs, s.isStandard = some true)
    (hpopulated : ∀ s ∈ inputs, s.Populated) (hsized : op.Sized inputs output) :
    ∃ num s, output.dtype.arithmetic = some num ∧ source op output inputs = .value s ∧
      s.Follows num op inputs output := by
  have hinfers := Operator.infers_of_infer hinfer
  have hfloat := hinfers.isFloat (Operator.isCompute_of_accumulates hop) (by rintro rfl; cases hop)
  obtain ⟨num, hnum⟩ := Operator.exists_arithmetic hfloat.1
  obtain ⟨statements, hbody, hgrouped, hcomputes⟩ :=
    exists_body hinfers hop hstandard hpopulated hsized
  have houtput := hinfers.populated hop hpopulated
  have hfit : output.lens.prod ≤ Word.maxUnsigned :=
    (hsized.elements output List.mem_cons_self).trans (by decide)
  have helements : output.elements = some output.lens.prod := Word.product_of_pos houtput hfit
  refine ⟨num, _, hnum, source_eq_value helements hbody, ?_, ?_, ?_, ?_, ?_⟩
  · show (true && (true && statements.isGrouped)) = true
    rw [hgrouped]
    rfl
  · intro views hviews
    obtain ⟨r, hrun⟩ := exists_run hinfers hop hnum hpopulated hsized hviews
    refine ⟨r, hrun, fun f operands hheld g t ht => ?_⟩
    obtain ⟨idx, x, hidx, hx⟩ := exists_accesses _ hcomputes hfit f hheld t ht
    have hwithin : Index.Within idx output.lens := Index.mem_indices.mp (List.mem_of_getElem? hidx)
    obtain ⟨e, htrace, hr⟩ :=
      Kernel.exists_trace_of_run hinfers hop hsized.roomy hviews hrun hidx
    refine ⟨idx, e, x, hidx, hr, htrace, fun v hv => ?_, hx⟩
    obtain ⟨s, hs, hin⟩ :=
      Kernel.within_of_mem_visits num hinfers hop hsized.roomy hviews hwithin hv
    exact Visit.inside_of_isStandard hs (hstandard s (List.mem_of_getElem? hs)) hin
  · rintro axis rfl s hs idx hidx
    cases hinfers with
    | softmax hf ha ht =>
      rw [(Shape.asStandard_eq_some ht).1] at hidx
      rw [List.mem_singleton.mp hs]
      exact Kernel.mem_laneVisits hidx (by rw [Shape.length_lens]; exact ha)
  · exact fun f operands g t ht => accesses_of_le hfit ht
  · exact fun f operands hheld g henough p hp =>
      existsUnique_stores hcomputes hfit f hheld henough hp

/-- A window that moves by two, over an image with a border of one. -/
def bordered : Operator := .convolution { padding := ⟨1, 1⟩, stride := ⟨2, 2⟩ }

def image : Shape := ⟨.float, [⟨1, 4⟩, ⟨1, 4⟩, ⟨2, 2⟩, ⟨2, 1⟩]⟩

/-- Over the border, the thread of the first element has only the last tap inside the image. -/
theorem source_follows_bordered :
    (bordered.accumulates = true ∧ bordered.infer [image, image] = .value image ∧
      (∀ s ∈ [image, image], s.isStandard = some true) ∧
      (∀ s ∈ [image, image], s.Populated) ∧ bordered.Sized [image, image] image) ∧
    ∃ s, source bordered image [image, image] = .value s ∧
      ∀ (f : Floating Unit) (g : Grid) (t : g.Thread), t.number = 0 →
        s.accesses f [[(), (), (), ()], [(), (), (), ()]] 4 t =
          some [.load "in0" 0, .load "in1" 3, .store 0 ()] := by
  have hinfer : bordered.infer [image, image] = .value image := rfl
  have hstandard : ∀ s ∈ [image, image], s.isStandard = some true := by decide
  have hpopulated : ∀ s ∈ [image, image], s.Populated := by
    unfold Shape.Populated
    decide
  have hsized : bordered.Sized [image, image] image := {
    elements := by decide
    listable := by decide
    roomy := ⟨by decide, by decide⟩
    steps := by
      rintro c ⟨⟩
      decide }
  refine ⟨⟨rfl, hinfer, hstandard, hpopulated, hsized⟩, ?_⟩
  obtain ⟨num, s, -, hs, hfollows⟩ := source_follows rfl hinfer hstandard hpopulated hsized
  refine ⟨s, hs, fun f g t ht => ?_⟩
  let view : View := ⟨image.lens, fun _ => 0⟩
  have hviews : View.Shaped [image, image] [view, view] := .cons rfl (.cons rfl .nil)
  have hheld : Held [image, image] [[(), (), (), ()], [(), (), (), ()]] :=
    .cons rfl (.cons rfl .nil)
  obtain ⟨r, -, hreads⟩ := hfollows.reads hviews
  obtain ⟨idx, e, x, hidx, -, -, -, haccesses⟩ := hreads f hheld t (by rw [ht]; decide)
  rw [ht] at hidx haccesses
  have hfirst : idx = [0, 0, 0, 0] := Option.some.inj (hidx.symm.trans rfl)
  subst hfirst
  exact haccesses

end Cuda
end TensorGraph
