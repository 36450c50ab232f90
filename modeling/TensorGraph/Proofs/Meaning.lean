/-
What programs mean.

An operator denotes a function of logical tensors, given by the element at each index: a
transpose permutes coordinates, a reshape keeps the row-major sequence, a copy and a
transfer are the identity, and the numeric operators are their formulas over the operations
of the element type.  Nothing here knows of strides, buffers, kernels or targets, except
that literals and parameters are read through their strides.

`exists_denote` says that inputs which go together have a meaning with the inferred
extents, and `denote_congr` that it depends on the elements inside the extents only.
-/
import TensorGraph.Eval
import TensorGraph.Proofs.Inference

namespace TensorGraph

/-! ## Operators on logical tensors -/

namespace View

def reshaped (lens : List Nat) (v : View) : View := (Tensor.mk lens v.elements).view

/-- Axis `d` is axis `permutation[d]` of the tensor. -/
def transposed (permutation : List Nat) (v : View) : View :=
  ⟨permutation.map fun p => v.lens.getD p 0, fun idx => v.read (Index.unpermute permutation idx)⟩

def combine (f : Nat → Nat → Nat) (v w : View) : View :=
  ⟨v.lens, fun idx => f (v.read idx) (w.read idx)⟩

def rowByColumn (num : Arithmetic) (a b : View) (row column : Nat) : Nat :=
  (List.range (a.lens.getD 1 0)).foldl (fun acc l =>
    Format.double.add acc (Format.double.mul (num.widen (a.read [row, l]))
      (num.widen (b.read [l, column])))) Format.double.negativeZero

def matmul (num : Arithmetic) (factor : Nat) (a b : View) : View where
  lens := [a.lens.getD 0 0, b.lens.getD 1 0]
  read idx :=
    num.narrow (Format.double.mul (rowByColumn num a b (idx.getD 0 0) (idx.getD 1 0))
      (Format.convert .single .double factor))

def lane (v : View) (axis : Nat) (idx : List Nat) : List Nat :=
  (List.range (v.lens.getD axis 0)).map fun j => v.read (idx.set axis j)

def largest (num : Arithmetic) (lane : List Nat) : Nat :=
  lane.foldl (fun m v => Format.double.maximum m (num.widen v)) Format.double.negativeInfinity

def total (num : Arithmetic) (lane : List Nat) : Nat :=
  lane.foldl (fun s v => Format.double.add s (Kernel.shiftedExp num (largest num lane) v))
    Format.double.negativeZero

/-- Each element's share of the exponentials of its lane. -/
def softmax (num : Arithmetic) (axis : Nat) (v : View) : View where
  lens := v.lens
  read idx :=
    let lane := v.lane axis idx
    num.narrow (Format.double.div
      (Kernel.shiftedExp num (largest num lane) (v.read idx)) (total num lane))

def coordinate (position stride tap dilation padding : Nat) : Int :=
  position * stride + tap * dilation - padding

/-- A sum with one more tap, which counts where it lies inside the image. -/
def addTap (num : Arithmetic) (c : Convolution) (x w : View) (idx : List Nat)
    (channel ky kx acc : Nat) : Nat :=
  let y := coordinate (idx.getD 2 0) c.stride.height ky c.dilation.height c.padding.height
  let x' := coordinate (idx.getD 3 0) c.stride.width kx c.dilation.width c.padding.width
  if (0 ≤ y ∧ y < x.lens.getD 2 0) ∧ 0 ≤ x' ∧ x' < x.lens.getD 3 0 then
    Format.double.add acc (Format.double.mul
      (num.widen (x.read [idx.getD 0 0, channel, y.toNat, x'.toNat]))
      (num.widen (w.read [idx.getD 1 0, channel, ky, kx])))
  else acc

def convolved (num : Arithmetic) (c : Convolution) (lens : List Nat) (x w : View) : View where
  lens := lens
  read idx :=
    num.narrow ((List.range (x.lens.getD 1 0)).foldl (fun acc channel =>
      (List.range (w.lens.getD 2 0)).foldl (fun acc ky =>
        (List.range (w.lens.getD 3 0)).foldl (fun acc kx =>
          addTap num c x w idx channel ky kx acc) acc) acc) 0)

end View

namespace Operator

def numeric (num : Arithmetic) (op : Operator) (lens : List Nat) (inputs : List View) :
    Option View :=
  match op, inputs with
  | elementary fn, [x] => some (x.map (num.apply fn))
  | add, [x, y] => some (View.combine num.add x y)
  | mul, x :: y :: rest => some ((y :: rest).foldl (View.combine num.mul) x)
  | gemm factor, [a, b] => some (View.matmul num factor a b)
  | softmax axis, [x] => some (View.softmax num axis x)
  | convolution c, [x, w] => some (View.convolved num c lens x w)
  | _, _ => none

/-- What an operator other than a parameter gives.  Of the output's shape only the element
type and the extents matter. -/
def denote (op : Operator) (output : Shape) (inputs : List View) : Option View :=
  match op, inputs with
  | literal l, [] => some (View.ofBytes l.shape l.shape.dtype.size l.bytes)
  | reshape _, [x] => some (x.reshaped output.lens)
  | transpose permutation, [x] => some (x.transposed permutation)
  | contiguous, [x] | hostToDevice, [x] | deviceToHost, [x] => some x
  | op, inputs => do op.numeric (← output.dtype.arithmetic) output.lens inputs

end Operator

/-! ## Programs -/

/-- A host argument read through its strides. -/
def Argument.tensor? (a : Argument) : Option View :=
  match a.storage with
  | some (.host b) => some (View.ofBytes a.shape a.shape.dtype.size b.bytes)
  | _ => none

def environment (params : Parameters) (name : String) : Option View :=
  (params.lookup name).bind Argument.tensor?

def Instruction.denote (env : String → Option View) (i : Instruction) (inputs : List View) :
    Option View :=
  match i.op with
  | .parameter name _ => env name
  | op => op.denote i.shape inputs

theorem Instruction.denote_of_parameter {env : String → Option View} {i : Instruction}
    {name : String} {s : Shape} (h : i.op = .parameter name s) (inputs : List View) :
    i.denote env inputs = env name := by
  obtain ⟨op, rs, t, kernel⟩ := i
  obtain rfl : op = .parameter name s := h
  rfl

theorem Instruction.denote_of_not_isParameter {env : String → Option View} {i : Instruction}
    (h : i.isParameter = false) (inputs : List View) :
    i.denote env inputs = i.op.denote i.shape inputs := by
  obtain ⟨op, rs, t, kernel⟩ := i
  cases op with
  | parameter => cases h
  | _ => rfl

namespace Program

def denoteFrom (env : String → Option View) (views : List View) :
    List Instruction → Option (List View)
  | [] => some views
  | i :: rest => do
    let inputs ← i.inputs.mapM fun r => views[r]?
    let v ← i.denote env inputs
    denoteFrom env (views ++ [v]) rest

def meaning (env : String → Option View) (p : Program) : Option View := do
  (← denoteFrom env [] p.instructions).getLast?

end Program

/-! ## Extents -/

namespace View

def Shaped (shapes : List Shape) (views : List View) : Prop :=
  List.Forall₂ (fun s v => v.lens = s.lens) shapes views

theorem lens_of_shaped {shapes : List Shape} {views : List View} (h : Shaped shapes views)
    {lens : List Nat} (hs : ∀ s ∈ shapes, s.lens = lens) : ∀ v ∈ views, v.lens = lens := by
  induction h with
  | nil => exact fun v hv => nomatch hv
  | cons hv _ ih =>
    intro v hm
    rcases List.mem_cons.mp hm with rfl | hm
    · rw [hv, hs _ List.mem_cons_self]
    · exact ih (fun s hm => hs s (List.mem_cons_of_mem _ hm)) v hm

theorem Shaped.congr {shapes : List Shape} {views views' : List View} (h : Shaped shapes views)
    (ha : List.Forall₂ Agrees views views') : Shaped shapes views' := by
  induction h generalizing views' with
  | nil =>
    obtain _ | _ := ha
    exact .nil
  | cons hv _ ih =>
    obtain _ | ⟨hvw, ha⟩ := ha
    exact .cons (hvw.1.symm.trans hv) (ih ha)

theorem lens_foldl_combine (f : Nat → Nat → Nat) (v : View) (ws : List View) :
    (ws.foldl (combine f) v).lens = v.lens := by
  induction ws generalizing v with
  | nil => rfl
  | cons w ws ih => exact ih (v.combine f w)

end View

namespace Operator

variable {op : Operator} {shapes : List Shape} {t : Shape} {views : List View}

theorem exists_arithmetic {d : Dtype} (h : d.isFloat = true) : ∃ num, d.arithmetic = some num := by
  rw [← Dtype.arithmetic_isSome] at h
  exact Option.isSome_iff_exists.mp h

/-- A computing operator other than the copy denotes what its formula gives. -/
theorem denote_of_arithmetic {num : Arithmetic} (hc : op.isCompute = true) (hn : op ≠ .contiguous)
    (ht : t.dtype.arithmetic = some num) : op.denote t views = op.numeric num t.lens views := by
  unfold denote
  split
  all_goals first | contradiction | (rw [ht]; rfl)

/-- The inputs of a computing operator other than the copy are of its output's type, and
that is a float type. -/
theorem Infers.isFloat (h : Infers op shapes t) (hc : op.isCompute = true)
    (hn : op ≠ .contiguous) : t.dtype.isFloat = true ∧ ∀ s ∈ shapes, s.dtype = t.dtype := by
  cases h with
  | elementary fn hf ht =>
    rw [(Shape.asStandard_eq_some ht).2]
    exact ⟨hf, fun s hs => by rw [List.mem_singleton.mp hs]⟩
  | add hf hd hl ht =>
    rw [(Shape.asStandard_eq_some ht).2]
    refine ⟨hf, fun s hs => ?_⟩
    rcases List.mem_cons.mp hs with rfl | hs
    · rfl
    · rw [List.mem_singleton.mp hs, hd]
  | mul hf hs ht =>
    rw [(Shape.asStandard_eq_some ht).2]
    refine ⟨hf, fun s hm => ?_⟩
    rcases List.mem_cons.mp hm with rfl | hm
    · rfl
    · exact (hs s hm).1
  | gemm factor hf hd ha hb ht =>
    rw [Shape.dtype_of_standard ht]
    refine ⟨hf, fun s hs => ?_⟩
    rcases List.mem_cons.mp hs with rfl | hs
    · rfl
    · rw [List.mem_singleton.mp hs, ← hd]
  | softmax hf ha ht =>
    rw [(Shape.asStandard_eq_some ht).2]
    exact ⟨hf, fun s hs => by rw [List.mem_singleton.mp hs]⟩
  | convolution hf hd hx hw hrows hcolumns ht =>
    rw [Shape.dtype_of_standard ht]
    refine ⟨hf, fun s hs => ?_⟩
    rcases List.mem_cons.mp hs with rfl | hs
    · rfl
    · rw [List.mem_singleton.mp hs, ← hd]
  | contiguous => exact absurd rfl hn
  | _ => cases hc

/-- Inputs that go together have a meaning, with the extents that were inferred. -/
theorem exists_denote (h : Infers op shapes t) (hp : op.isParameter = false)
    (hv : View.Shaped shapes views) : ∃ v, op.denote t views = some v ∧ v.lens = t.lens := by
  by_cases hc : op.isCompute = true ∧ op ≠ .contiguous
  · obtain ⟨num, hnum⟩ := exists_arithmetic (h.isFloat hc.1 hc.2).1
    rw [denote_of_arithmetic hc.1 hc.2 hnum]
    cases h with
    | elementary fn hf ht =>
      obtain _ | ⟨hx, _ | _⟩ := hv
      exact ⟨_, rfl, hx.trans (Shape.asStandard_eq_some ht).1.symm⟩
    | add hf hd hl ht =>
      obtain _ | ⟨hx, _ | ⟨hy, _ | _⟩⟩ := hv
      exact ⟨_, rfl, hx.trans (Shape.asStandard_eq_some ht).1.symm⟩
    | mul hf hs ht =>
      obtain _ | ⟨hx, _ | ⟨hy, hrest⟩⟩ := hv
      refine ⟨_, rfl, ?_⟩
      rw [View.lens_foldl_combine, hx, (Shape.asStandard_eq_some ht).1]
    | gemm factor hf hd ha hb ht =>
      obtain _ | ⟨hx, _ | ⟨hy, _ | _⟩⟩ := hv
      refine ⟨_, rfl, ?_⟩
      rw [View.matmul, hx, hy, ha, hb, Shape.lens_of_standard ht]
      rfl
    | softmax hf ha ht =>
      obtain _ | ⟨hx, _ | _⟩ := hv
      exact ⟨_, rfl, hx.trans (Shape.asStandard_eq_some ht).1.symm⟩
    | convolution hf hd hx hw hrows hcolumns ht =>
      obtain _ | ⟨_, _ | ⟨_, _ | _⟩⟩ := hv
      exact ⟨_, rfl, rfl⟩
    | contiguous => exact absurd rfl hc.2
    | _ => cases hc.1
  · cases h with
    | literal l =>
      obtain _ | _ := hv
      exact ⟨_, rfl, rfl⟩
    | parameter => cases hp
    | reshape =>
      obtain _ | ⟨hx, _ | _⟩ := hv
      exact ⟨_, rfl, rfl⟩
    | transpose hperm ht =>
      obtain _ | ⟨hx, _ | _⟩ := hv
      refine ⟨_, rfl, ?_⟩
      rw [Shape.lens_permute ht, ← hx]
      rfl
    | contiguous ht =>
      obtain _ | ⟨hx, _ | _⟩ := hv
      exact ⟨_, rfl, hx.trans (Shape.asStandard_eq_some ht).1.symm⟩
    | hostToDevice =>
      obtain _ | ⟨hx, _ | _⟩ := hv
      exact ⟨_, rfl, hx⟩
    | deviceToHost =>
      obtain _ | ⟨hx, _ | _⟩ := hv
      exact ⟨_, rfl, hx⟩
    | _ => exact absurd ⟨rfl, Operator.noConfusion⟩ hc

theorem lens_of_denote (h : Infers op shapes t) (hp : op.isParameter = false)
    (hv : View.Shaped shapes views) {v : View} (hd : op.denote t views = some v) :
    v.lens = t.lens := by
  obtain ⟨w, hw, hl⟩ := exists_denote h hp hv
  rw [hd] at hw
  cases hw
  exact hl

theorem isParameter_of_isCompute (h : op.isCompute = true) : op.isParameter = false := by
  cases op <;> first | rfl | cases h

theorem isParameter_of_isView (h : op.isView = true) : op.isParameter = false := by
  cases op <;> first | rfl | cases h

end Operator

/-! ## Congruence -/

namespace View

variable {x x' y y' : View}

theorem Agrees.reshaped (h : x.Agrees x') (lens : List Nat) :
    (x.reshaped lens).Agrees (x'.reshaped lens) := by
  rw [View.reshaped, View.reshaped, h.elements_eq]
  exact Agrees.refl _

theorem Agrees.combine (f : Nat → Nat → Nat) (hx : x.Agrees x') (hy : y.Agrees y')
    (hl : y.lens = x.lens) : (x.combine f y).Agrees (x'.combine f y') := by
  refine ⟨hx.1, fun idx hi => ?_⟩
  show f (x.read idx) (y.read idx) = f (x'.read idx) (y'.read idx)
  rw [hx.2 idx hi, hy.2 idx (hl ▸ hi)]

theorem Agrees.foldl_combine (f : Nat → Nat → Nat) {ys ys' : List View} (hx : x.Agrees x')
    (hy : List.Forall₂ Agrees ys ys') (hl : ∀ y ∈ ys, y.lens = x.lens) :
    (ys.foldl (View.combine f) x).Agrees (ys'.foldl (View.combine f) x') := by
  induction hy generalizing x x' with
  | nil => exact hx
  | @cons y y' ys ys' hy _ ih =>
    exact ih (hx.combine f hy (hl y List.mem_cons_self))
      fun z hz => hl z (List.mem_cons_of_mem _ hz)

theorem Agrees.matmul {num : Arithmetic} {factor m k n : Nat} (hx : x.Agrees x')
    (hy : y.Agrees y') (hm : x.lens = [m, k]) (hn : y.lens = [k, n]) :
    (View.matmul num factor x y).Agrees (View.matmul num factor x' y') := by
  have hm' : x'.lens = [m, k] := hx.1 ▸ hm
  have hn' : y'.lens = [k, n] := hy.1 ▸ hn
  refine ⟨by rw [View.matmul, View.matmul, hx.1, hy.1], fun idx hi => ?_⟩
  rw [View.matmul, hm, hn] at hi
  obtain ⟨i, j, rfl⟩ : ∃ i j, idx = [i, j] :=
    List.length_eq_two.mp (Index.length_of_within hi)
  have hrow : rowByColumn num x y i j = rowByColumn num x' y' i j := by
    unfold rowByColumn
    rw [hm, hm']
    refine List.foldl_ext _ _ _ fun acc l hl => ?_
    have hlk : l < k := List.mem_range.mp hl
    rw [hx.2 [i, l] (by rw [hm]; exact ⟨hi.1, hlk, trivial⟩),
      hy.2 [l, j] (by rw [hn]; exact ⟨hlk, hi.2.1, trivial⟩)]
  exact congrArg (fun r => num.narrow (Format.double.mul r _)) hrow

/-- Moving along an axis stays within the extents. -/
theorem within_set {lens idx : List Nat} (hi : Index.Within idx lens) {axis j : Nat}
    (hj : j < lens.getD axis 0) : Index.Within (idx.set axis j) lens := by
  induction lens generalizing idx axis with
  | nil => exact absurd hj (by simp)
  | cons n ns ih =>
    cases idx with
    | nil => exact hi.elim
    | cons i is =>
      cases axis with
      | zero => exact ⟨hj, hi.2⟩
      | succ axis => exact ⟨hi.1, ih hi.2 hj⟩

theorem Agrees.lane (h : x.Agrees x') {idx : List Nat} (hi : Index.Within idx x.lens)
    (axis : Nat) : x.lane axis idx = x'.lane axis idx := by
  rw [View.lane, View.lane, ← h.1]
  exact List.map_congr_left fun j hj => h.2 _ (within_set hi (List.mem_range.mp hj))

theorem Agrees.softmax (h : x.Agrees x') (num : Arithmetic) (axis : Nat) :
    (View.softmax num axis x).Agrees (View.softmax num axis x') := by
  refine ⟨h.1, fun idx hi => ?_⟩
  unfold View.softmax
  dsimp only
  rw [h.lane hi axis, h.2 idx hi]

theorem Agrees.addTap {num : Arithmetic} {c : Convolution} (hx : x.Agrees x') (hy : y.Agrees y')
    {batch channels height width banks kernelHeight kernelWidth : Nat}
    (hxl : x.lens = [batch, channels, height, width])
    (hyl : y.lens = [banks, channels, kernelHeight, kernelWidth])
    {idx : List Nat} {rows columns : Nat} (hi : Index.Within idx [batch, banks, rows, columns])
    {channel ky kx : Nat} (hc : channel < channels) (hky : ky < kernelHeight)
    (hkx : kx < kernelWidth) (acc : Nat) :
    addTap num c x y idx channel ky kx acc = addTap num c x' y' idx channel ky kx acc := by
  obtain ⟨hi0, hi1, -⟩ : idx.getD 0 0 < batch ∧ idx.getD 1 0 < banks ∧ True := by
    obtain ⟨-, hk⟩ := Index.within_iff_getD.mp hi
    exact ⟨hk 0 (by simp), hk 1 (by simp), trivial⟩
  unfold View.addTap
  dsimp only
  rw [← hx.1, hxl]
  refine if_ctx_congr Iff.rfl (fun hin => ?_) fun _ => rfl
  obtain ⟨⟨hy0, hyh⟩, hx0, hxw⟩ := hin
  rw [List.getD_cons_succ, List.getD_cons_succ, List.getD_cons_zero] at hyh
  rw [List.getD_cons_succ, List.getD_cons_succ, List.getD_cons_succ, List.getD_cons_zero] at hxw
  rw [hx.2 _ (by rw [hxl]; exact ⟨hi0, hc, by omega, by omega, trivial⟩),
    hy.2 _ (by rw [hyl]; exact ⟨hi1, hc, hky, hkx, trivial⟩)]

theorem Agrees.convolved {num : Arithmetic} {c : Convolution} (hx : x.Agrees x')
    (hy : y.Agrees y') {batch channels height width banks kernelHeight kernelWidth : Nat}
    (hxl : x.lens = [batch, channels, height, width])
    (hyl : y.lens = [banks, channels, kernelHeight, kernelWidth]) (rows columns : Nat) :
    (View.convolved num c [batch, banks, rows, columns] x y).Agrees
      (View.convolved num c [batch, banks, rows, columns] x' y') := by
  refine ⟨rfl, fun idx hi => congrArg num.narrow ?_⟩
  rw [← hx.1, ← hy.1, hxl, hyl]
  refine List.foldl_ext _ _ _ fun acc channel hc => ?_
  refine List.foldl_ext _ _ _ fun acc ky hky => ?_
  refine List.foldl_ext _ _ _ fun acc kx hkx => ?_
  exact hx.addTap hy hxl hyl hi (List.mem_range.mp hc) (List.mem_range.mp hky)
    (List.mem_range.mp hkx) acc

end View

namespace Operator

variable {op : Operator} {shapes : List Shape} {t : Shape} {views views' : List View}

/-- Inputs that agree give outputs that agree. -/
theorem denote_congr (h : Infers op shapes t) (hv : View.Shaped shapes views)
    (ha : List.Forall₂ View.Agrees views views') {v : View} (hd : op.denote t views = some v) :
    ∃ v', op.denote t views' = some v' ∧ v.Agrees v' := by
  by_cases hc : op.isCompute = true ∧ op ≠ .contiguous
  · obtain ⟨num, hnum⟩ := exists_arithmetic (h.isFloat hc.1 hc.2).1
    rw [denote_of_arithmetic hc.1 hc.2 hnum] at hd ⊢
    cases h with
    | elementary fn hf ht =>
      obtain _ | ⟨-, _ | _⟩ := hv
      obtain _ | ⟨hx, _ | _⟩ := ha
      cases hd
      exact ⟨_, rfl, hx.1, fun idx hi => congrArg (num.apply fn) (hx.2 idx hi)⟩
    | add hf hdt hl ht =>
      obtain _ | ⟨hxl, _ | ⟨hyl, _ | _⟩⟩ := hv
      obtain _ | ⟨hx, _ | ⟨hy, _ | _⟩⟩ := ha
      cases hd
      exact ⟨_, rfl, hx.combine num.add hy (by rw [hyl, hl, hxl])⟩
    | @mul a b rest _ hf hs ht =>
      obtain _ | ⟨hxl, hyl⟩ := hv
      obtain _ | ⟨hx, hys⟩ := ha
      have hall := View.lens_of_shaped hyl fun s hm => (hs s hm).2
      obtain _ | ⟨hyl, hrest⟩ := hyl
      obtain _ | ⟨hy, hys⟩ := hys
      cases hd
      exact ⟨_, rfl, hx.foldl_combine num.mul (.cons hy hys) fun v hm => by rw [hall v hm, hxl]⟩
    | gemm factor hf hdt hal hbl ht =>
      obtain _ | ⟨hxl, _ | ⟨hyl, _ | _⟩⟩ := hv
      obtain _ | ⟨hx, _ | ⟨hy, _ | _⟩⟩ := ha
      cases hd
      exact ⟨_, rfl, hx.matmul hy (hxl.trans hal) (hyl.trans hbl)⟩
    | softmax hf hax ht =>
      obtain _ | ⟨-, _ | _⟩ := hv
      obtain _ | ⟨hx, _ | _⟩ := ha
      cases hd
      exact ⟨_, rfl, hx.softmax num _⟩
    | convolution hf hdt hxs hws hrows hcolumns ht =>
      obtain _ | ⟨hxl, _ | ⟨hyl, _ | _⟩⟩ := hv
      obtain _ | ⟨hx, _ | ⟨hy, _ | _⟩⟩ := ha
      cases hd
      refine ⟨_, rfl, ?_⟩
      rw [Shape.lens_of_standard ht]
      exact hx.convolved hy (hxl.trans hxs) (hyl.trans hws) _ _
    | contiguous => exact absurd rfl hc.2
    | _ => cases hc.1
  · cases h with
    | literal l =>
      obtain _ | _ := hv
      obtain _ | _ := ha
      exact ⟨v, hd, View.Agrees.refl v⟩
    | parameter name s =>
      obtain _ | _ := hv
      obtain _ | _ := ha
      exact ⟨v, hd, View.Agrees.refl v⟩
    | reshape =>
      obtain _ | ⟨-, _ | _⟩ := hv
      obtain _ | ⟨hx, _ | _⟩ := ha
      cases hd
      exact ⟨_, rfl, hx.reshaped _⟩
    | transpose hperm ht =>
      obtain _ | ⟨hxl, _ | _⟩ := hv
      obtain _ | ⟨hx, _ | _⟩ := ha
      cases hd
      refine ⟨_, rfl, by rw [View.transposed, View.transposed, hx.1], fun idx hi => ?_⟩
      rw [View.transposed, hxl, ← Shape.lens_permute ht] at hi
      exact hx.2 _ (hxl ▸ Shape.within_unpermute hperm ht hi)
    | contiguous ht =>
      obtain _ | ⟨-, _ | _⟩ := hv
      obtain _ | ⟨hx, _ | _⟩ := ha
      cases hd
      exact ⟨_, rfl, hx⟩
    | hostToDevice =>
      obtain _ | ⟨-, _ | _⟩ := hv
      obtain _ | ⟨hx, _ | _⟩ := ha
      cases hd
      exact ⟨_, rfl, hx⟩
    | deviceToHost =>
      obtain _ | ⟨-, _ | _⟩ := hv
      obtain _ | ⟨hx, _ | _⟩ := ha
      cases hd
      exact ⟨_, rfl, hx⟩
    | _ => exact absurd ⟨rfl, Operator.noConfusion⟩ hc

end Operator

end TensorGraph
