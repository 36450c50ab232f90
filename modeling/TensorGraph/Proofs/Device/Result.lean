/-
What a launch writes.

A launch gives its output new bytes, `result`, and changes nothing else.  Those bytes depend on
the bytes of its operands and on nothing else in memory, so launches that differ in the addresses
only write the same (`result_congr`).  Where its operands go together under its operator and are
allocated, a launch is not refused (`sure_of_infers`): all that is left is that sizes leave the
range.
-/
import TensorGraph.Proofs.Device.Execute

namespace TensorGraph

/-! ## Extents of what is computed -/

namespace Kernel

open Operator (Infers)

variable {op : Operator} {shapes : List Shape} {t : Shape} {views : List View}

/-- On tensors that go together a kernel gives the extents that were inferred, or halts. -/
theorem run_lens (num : Arithmetic) (h : Infers op shapes t) (hc : op.isCompute = true)
    (hv : View.Shaped shapes views) :
    (run num op t.lens views).Ends False fun u => u.lens = t.lens := by
  have htabulate := fun lens element => (tabulate_complete num.size lens element).mono
    fun _ hu => hu.1
  cases h with
  | literal | parameter | reshape | transpose | hostToDevice | deviceToHost => cases hc
  | elementary fn hf ht =>
    obtain _ | ⟨hx, _ | _⟩ := hv
    exact (held_gives False.elim).return_ends (hx.trans (Shape.asStandard_eq_some ht).1.symm)
  | contiguous ht =>
    obtain _ | ⟨hx, _ | _⟩ := hv
    exact (held_gives False.elim).return_ends (hx.trans (Shape.asStandard_eq_some ht).1.symm)
  | add hf hd hl ht =>
    obtain _ | ⟨hx, _ | ⟨hy, _ | _⟩⟩ := hv
    rw [run, View.zipWith_of_lens_eq num.add (hx.trans (hl.symm.trans hy.symm))]
    exact (held_gives False.elim).return_ends (hx.trans (Shape.asStandard_eq_some ht).1.symm)
  | @mul a b rest t hf hs ht =>
    obtain _ | ⟨hx, hrest⟩ := hv
    have hlens := View.lens_of_shaped hrest fun s hs' => (hs s hs').2
    have hproduct : Gives False (product num _ _) _ :=
      product_gives num (fun v hv => (hlens v hv).trans hx.symm) False.elim
    exact hproduct.return_ends
      ((View.lens_foldl_combine _ _ _).trans (hx.trans (Shape.asStandard_eq_some ht).1.symm))
  | gemm factor hf hd ha hb ht =>
    obtain _ | ⟨hx, _ | ⟨hy, _ | _⟩⟩ := hv
    rw [run, gemm, hx, hy, ha, hb, Shape.lens_of_standard ht]
    exact htabulate _ _
  | @softmax axis s t hf haxis ht =>
    obtain _ | ⟨hx, _ | _⟩ := hv
    rw [run, softmax_eq num (by rw [hx, Shape.length_lens]; exact haxis)]
    exact (held_gives False.elim).return_ends
      (f := fun copy => (View.softmax num axis copy).toTensor)
      (hx.trans (Shape.asStandard_eq_some ht).1.symm)
  | convolution hf hd hx hw hrows hcolumns ht =>
    obtain _ | ⟨hx', _ | ⟨hw', _ | _⟩⟩ := hv
    rw [run, convolution, hx', hw', hx, hw, Shape.lens_of_standard ht]
    exact htabulate _ _

end Kernel

namespace Memory

variable {m m₁ m₂ : Memory} {l l₁ l₂ : Launch} {i₁ i₂ : Operand} {d : Dtype}

/-! ## New bytes -/

def inscribe (m : Memory) (operand : Operand) (dtype : Dtype) (t : Tensor) : Outcome Bytes := do
  Outcome.require (t.lens = operand.shape.lens)
    (.device .launch (.wrongExtents t.lens operand.shape))
  match m.find? operand.address with
  | none => .refused (.device .launch (.freed operand.address))
  | some bytes =>
    if operand.shape.isAddressable dtype.size then
      return scatter bytes operand.shape.axes dtype.size (Index.indices t.lens) t.elements
    else .halted

theorem store_eq (m : Memory) (operand : Operand) (d : Dtype) (t : Tensor) :
    m.store operand d t = do return m.replace operand.address (← m.inscribe operand d t) := by
  unfold store inscribe
  rw [bind_assoc]
  refine congrArg _ (funext fun _ => ?_)
  cases m.find? operand.address with
  | none => rfl
  | some bytes =>
    dsimp only
    split <;> rfl

def computed (m : Memory) (launch : Launch) : Outcome Tensor :=
  let dtype := launch.output.shape.dtype
  match launch.op with
  | .contiguous =>
    match launch.inputs with
    | input :: _ => do
      let v ← m.view input dtype
      return (← v.held dtype.size).toTensor
    | [] => .halted
  | op =>
    match dtype.arithmetic with
    | some num => do
      let views ← launch.inputs.mapM fun i => m.view i dtype
      Kernel.run num op launch.output.shape.lens views
    | none => .refused (.device .launch (.noKernel op.text dtype))

def result (m : Memory) (launch : Launch) : Outcome Bytes := do
  m.inscribe launch.output launch.output.shape.dtype (← m.computed launch)

theorem computed_of_ne_contiguous (hn : l.op ≠ .contiguous) : m.computed l =
    match l.output.shape.dtype.arithmetic with
    | some num => do
      let views ← l.inputs.mapM fun i => m.view i l.output.shape.dtype
      Kernel.run num l.op l.output.shape.lens views
    | none => .refused (.device .launch (.noKernel l.op.text l.output.shape.dtype)) := by
  obtain ⟨op, output, inputs⟩ := l
  unfold computed
  cases op with
  | contiguous => exact absurd rfl hn
  | _ => rfl

/-- All that a launch does is to replace the bytes of its output. -/
theorem execute_eq (m : Memory) (l : Launch) :
    m.execute l = do return m.replace l.output.address (← m.result l) := by
  unfold result
  rw [bind_assoc]
  obtain ⟨op, output, inputs⟩ := l
  by_cases hn : op = .contiguous
  · subst hn
    cases inputs with
    | nil => rfl
    | cons input rest =>
      rw [execute_contiguous]
      show _ = (m.view input output.shape.dtype >>= fun v => do
        return (← v.held output.shape.dtype.size).toTensor : Outcome Tensor) >>= _
      simp only [bind_assoc, pure_bind]
      exact congrArg _ (funext fun v => congrArg _ (funext fun copy => store_eq m output _ _))
  · rw [execute_of_ne_contiguous hn, computed_of_ne_contiguous hn]
    dsimp only
    cases output.shape.dtype.arithmetic with
    | none => rfl
    | some num =>
      dsimp only
      rw [bind_assoc]
      refine congrArg _ (funext fun views => ?_)
      exact congrArg _ (funext fun t => store_eq m output _ t)

/-! ## The same launch elsewhere -/

/-- Whether two operands have the same shape and the same bytes, each in its memory.  An address
is looked up in vain on both sides only if it is the same. -/
structure ReadsAlike (m₁ m₂ : Memory) (i₁ i₂ : Operand) : Prop where
  shape : i₂.shape = i₁.shape
  bytes : m₂.find? i₂.address = m₁.find? i₁.address
  address : i₂.address = i₁.address ∨ m₁.find? i₁.address ≠ none

theorem ReadsAlike.view (h : ReadsAlike m₁ m₂ i₁ i₂) (d : Dtype) :
    m₂.view i₂ d = m₁.view i₁ d := by
  unfold Memory.view
  rw [h.bytes, h.shape]
  cases hfind : m₁.find? i₁.address with
  | some bytes => rfl
  | none =>
    obtain heq | hne := h.address
    · rw [heq]
    · exact absurd hfind hne

theorem ReadsAlike.inscribe (h : ReadsAlike m₁ m₂ i₁ i₂) (d : Dtype) (t : Tensor) :
    m₂.inscribe i₂ d t = m₁.inscribe i₁ d t := by
  unfold Memory.inscribe
  rw [h.bytes, h.shape]
  refine congrArg _ (funext fun _ => ?_)
  cases hfind : m₁.find? i₁.address with
  | some bytes => rfl
  | none =>
    obtain heq | hne := h.address
    · rw [heq]
    · exact absurd hfind hne

theorem mapM_view_congr {is₁ is₂ : List Operand} (h : List.Forall₂ (ReadsAlike m₁ m₂) is₁ is₂)
    (d : Dtype) : (is₂.mapM fun i => m₂.view i d) = is₁.mapM fun i => m₁.view i d := by
  induction h with
  | nil => rfl
  | cons hi _ ih => rw [List.mapM_cons, List.mapM_cons, hi.view, ih]

/-- What a launch writes depends on its operator and on its operands. -/
theorem result_congr (hop : l₂.op = l₁.op) (hout : ReadsAlike m₁ m₂ l₁.output l₂.output)
    (hin : List.Forall₂ (ReadsAlike m₁ m₂) l₁.inputs l₂.inputs) :
    m₂.result l₂ = m₁.result l₁ := by
  have hcomputed : m₂.computed l₂ = m₁.computed l₁ := by
    obtain ⟨op, output₁, inputs₁⟩ := l₁
    obtain ⟨_, output₂, inputs₂⟩ := l₂
    cases hop
    by_cases hn : op = .contiguous
    · subst hn
      unfold computed
      rw [hout.shape]
      cases hin with
      | nil => rfl
      | cons hi _ =>
        dsimp only
        rw [hi.view]
    · rw [computed_of_ne_contiguous hn, computed_of_ne_contiguous hn]
      dsimp only
      rw [hout.shape, mapM_view_congr hin]
  unfold result
  rw [hcomputed, hout.shape]
  exact congrArg _ (funext fun t => hout.inscribe _ t)

end Memory

/-! ## Launches that are never refused -/

/-- Whether a launch is not refused where its operands are allocated. -/
def Launch.Sure (l : Launch) : Prop :=
  ∀ m : Memory, (∀ address ∈ l.addresses, m.find? address ≠ none) → ∀ e, m.execute l ≠ .refused e

namespace Memory

open Operator (Infers)

variable {m : Memory} {op : Operator} {inputs : List Operand} {output : Operand} {d : Dtype}

theorem view_lens {i : Operand} (h : m.find? i.address ≠ none) (d : Dtype) :
    (m.view i d).Ends False fun v => v.lens = i.shape.lens := by
  unfold view
  cases hfind : m.find? i.address with
  | none => exact absurd hfind h
  | some bytes =>
    dsimp only
    split
    · exact rfl
    · exact id

theorem mapM_view_lens (h : ∀ i ∈ inputs, m.find? i.address ≠ none) (d : Dtype) :
    (inputs.mapM fun i => m.view i d).Ends False fun views =>
      View.Shaped (inputs.map Operand.shape) views := by
  induction inputs with
  | nil => exact .nil
  | cons i inputs ih =>
    rw [List.forall_mem_cons] at h
    rw [List.mapM_cons]
    refine Outcome.Ends.bind (view_lens h.1 d) fun v hv => ?_
    exact Outcome.Ends.bind (ih h.2) fun views hviews => .cons hv hviews

theorem inscribe_ends {t : Tensor} (ht : t.lens = output.shape.lens)
    (hout : m.find? output.address ≠ none) :
    (m.inscribe output d t).Ends False fun _ => True := by
  unfold inscribe
  rw [Outcome.require_pos ht, Outcome.value_bind]
  cases hfind : m.find? output.address with
  | none => exact absurd hfind hout
  | some bytes =>
    dsimp only
    split
    · exact trivial
    · exact id

/-- A launch on operands that go together writes something, or halts. -/
theorem result_ends (h : Infers op (inputs.map Operand.shape) output.shape)
    (hc : op.isCompute = true) (hin : ∀ i ∈ inputs, m.find? i.address ≠ none)
    (hout : m.find? output.address ≠ none) :
    (m.result ⟨op, output, inputs⟩).Ends False fun _ => True := by
  unfold result
  refine Outcome.Ends.bind (P := fun t => t.lens = output.shape.lens) ?_ fun t ht =>
    inscribe_ends ht hout
  by_cases hn : op = .contiguous
  · subst hn
    match inputs, h, hin with
    | [input], h, hin =>
      refine Outcome.Ends.bind (view_lens (hin input List.mem_cons_self) _) fun v hv => ?_
      cases h with
      | contiguous ht =>
        exact (Kernel.held_gives False.elim).return_ends
          (hv.trans (Shape.asStandard_eq_some ht).1.symm)
  · obtain ⟨num, hnum⟩ := Operator.exists_arithmetic (h.isFloat hc hn).1
    rw [computed_of_ne_contiguous hn]
    dsimp only
    rw [hnum]
    exact Outcome.Ends.bind (mapM_view_lens hin _) fun views hviews =>
      Kernel.run_lens num h hc hviews

end Memory

open Operator in
/-- A launch whose operands go together under a computing operator is not refused. -/
theorem Launch.sure_of_infers {op : Operator} {output : Operand} {inputs : List Operand}
    (h : Infers op (inputs.map Operand.shape) output.shape) (hc : op.isCompute = true) :
    (⟨op, output, inputs⟩ : Launch).Sure := by
  intro m hfind e he
  unfold Launch.addresses at hfind
  rw [List.forall_mem_cons, List.forall_mem_map] at hfind
  have hends := Memory.result_ends h hc hfind.2 hfind.1
  rw [Memory.execute_eq] at he
  cases hresult : m.result ⟨op, output, inputs⟩ with
  | value bytes =>
    rw [hresult] at he
    cases he
  | refused e' =>
    rw [hresult] at hends
    exact hends
  | halted =>
    rw [hresult] at he
    cases he

end TensorGraph
