/-
When the passes of a target go through.

The two targets share the first pass.  The second looks at more operators for a device, but
those only at inputs with the extents of their output, whose row-major layout was formed when
they were added; so it goes through for both or for neither, `exists_lowers_iff`.  The other
passes ask for nothing, and over a program that was built all of them only write to the log.
-/
import TensorGraph.Proofs.Program.History

namespace TensorGraph

open Operator (Infers)

namespace Program

variable {p q r : Program} {is : List Instruction} {i j : Instruction}

/-! ## Passes -/

/-- Operators that the host kernels read in any layout have inputs with the extents of their
output. -/
theorem rowMajor_of_infers {op : Operator} {shapes : List Shape} {t : Shape}
    (h : Infers op shapes t) (hdevice : Target.deviceNeeds op = true)
    (hhost : Target.hostNeeds op = false) :
    ∀ s ∈ shapes, ∃ axes, Axis.rowMajor s.lens = some axes := by
  have hrow : ∀ {s t : Shape}, s.asStandard = some t → ∃ axes, Axis.rowMajor s.lens = some axes :=
    fun hs => by
      obtain ⟨axes, haxes, -⟩ := Shape.standard_eq_some.mp hs
      exact ⟨axes, haxes⟩
  cases h with
  | elementary fn hf ht =>
    rw [List.forall_mem_singleton]
    exact hrow ht
  | @add a b t hf hd hl ht =>
    rw [List.forall_mem_cons, List.forall_mem_singleton, hl]
    exact ⟨hrow ht, hrow ht⟩
  | @mul a b rest t hf hs ht =>
    rw [List.forall_mem_cons]
    refine ⟨hrow ht, fun s hmem => ?_⟩
    rw [(hs s hmem).2]
    exact hrow ht
  | gemm | softmax | convolution => cases hhost
  | _ => cases hdevice

theorem hasRowMajorInputs_iff (hc : Consistent is) :
    HasRowMajorInputs Target.deviceNeeds is ↔ HasRowMajorInputs Target.hostNeeds is := by
  constructor
  · intro h i hi hneeds
    refine h i hi ?_
    rw [Bool.or_eq_true] at hneeds ⊢
    refine hneeds.imp_left fun hhost => ?_
    revert hhost
    cases i.op <;> first | exact fun _ => rfl | exact fun hfalse => nomatch hfalse
  · intro h i hi hneeds s hs j hj
    by_cases hhost : (Target.hostNeeds i.op || isReshape i.op) = true
    · exact h i hi hhost s hs j hj
    · rw [Bool.not_eq_true, Bool.or_eq_false_iff] at hhost
      rw [hhost.2, Bool.or_false] at hneeds
      obtain ⟨k, hk⟩ := List.mem_iff_getElem?.mp hi
      obtain ⟨shapes, hshapes, hinfers⟩ := hc.infers hk
      exact rowMajor_of_infers hinfers hneeds hhost.1 j.shape (shape_mem_of_shapesAt hshapes hs hj)

theorem exists_insertContiguous_iff {needs : Operator → Bool} (hc : Consistent p.instructions)
    (ht : p.target = none) : (∃ q, insertContiguous needs p = .value () q) ↔
      HasRowMajorInputs needs p.instructions := by
  constructor
  · rintro ⟨q, hq⟩
    have hends : Turn.Ends False _ (insertContiguous needs p) :=
      insertContiguous_ends hc ht False.elim
    exact (hends.of_value hq).2.2.2
  · intro hfit
    have hends : Turn.Ends True _ (insertContiguous needs p) :=
      insertContiguous_ends hc ht fun _ => hfit
    obtain ⟨_, q, hq, -⟩ := hends.exists_value_of_fits trivial
    exact ⟨q, hq⟩

/-- The passes of a device go through exactly when those of the host do. -/
theorem exists_lowers_iff (hc : Consistent p.instructions) (ht : p.target = none)
    (id : DeviceId) (offload : Bool) :
    (∃ q, Lowers (Target.device id offload).passes p q) ↔ ∃ q, Lowers Target.host.passes p q := by
  constructor
  · rintro ⟨q, r, hdead, r', hinsert, -⟩
    obtain ⟨hrefines, hcons⟩ := eliminateDeadCode_value hc ht hdead
    have hfit := (exists_insertContiguous_iff hcons hrefines.target).mp ⟨r', hinsert⟩
    rw [hasRowMajorInputs_iff hcons] at hfit
    obtain ⟨r'', hr''⟩ := (exists_insertContiguous_iff hcons hrefines.target).mpr hfit
    exact ⟨r'', r, hdead, r'', hr'', rfl⟩
  · rintro ⟨q, r, hdead, r', hinsert, -⟩
    obtain ⟨hrefines, hcons⟩ := eliminateDeadCode_value hc ht hdead
    have hfit := (exists_insertContiguous_iff hcons hrefines.target).mp ⟨r', hinsert⟩
    rw [← hasRowMajorInputs_iff hcons] at hfit
    obtain ⟨r'', hr''⟩ := (exists_insertContiguous_iff hcons hrefines.target).mpr hfit
    have hlow := lowered_of_insertContiguous (fun op => deviceNeeds_keeps) hc ht hdead hr''
    have hends : Turn.Ends True _ (insertTransfers offload r'') :=
      insertTransfers_ends offload hlow.consistent hlow.refines.target
    obtain ⟨_, q', hq', -⟩ := hends.exists_value_of_fits trivial
    exact ⟨q', r, hdead, r'', hr'', q', hq', rfl⟩

/-! ## Passes in a world -/

theorem note_apply (level : Level) (message : String) (w : World) :
    World.note level message w =
      .value () { w with log := w.log ++ [⟨level, message⟩] } := rfl

structure Undisturbed (w w' : World) : Prop where
  devices : w'.devices = w.devices
  held : w'.held = w.held

theorem Undisturbed.trans {w w' w'' : World} (h : Undisturbed w w') (h' : Undisturbed w' w'') :
    Undisturbed w w'' :=
  ⟨h'.devices.trans h.devices, h'.held.trans h.held⟩

theorem residents_eq_nil (h : ∀ i ∈ p.instructions, i.kernel = none) : p.residents = [] := by
  refine List.filterMap_eq_nil_iff.mpr fun i hi => ?_
  rw [h i hi]
  rfl

theorem surrendered_nil (after : List DeviceBuffer) : World.surrendered [] after = [] := by
  unfold World.surrendered
  induction after with
  | nil => rfl
  | cons b after ih => exact ih

theorem Refines.kernels {copies : List Operator} (h : Refines copies p q)
    (hp : ∀ i ∈ p.instructions, i.kernel = none) : ∀ j ∈ q.instructions, j.kernel = none := by
  intro j hj
  rcases h.origin j hj with ⟨i, hi, -, hk⟩ | ⟨-, hk⟩
  · exact hk.trans (hp i hi)
  · exact hk

/-- A pass over a program without kernels only writes to the log. -/
theorem lower_cons (t : Target) (pass : Pass) (rest : List Pass)
    (h : pass.apply p = .value () r) (hp : ∀ i ∈ p.instructions, i.kernel = none) (w : World) :
    ∃ w', Undisturbed w w' ∧ lower t p (pass :: rest) w = lower t r rest w' := by
  have hrun : ∃ w', Undisturbed w w' ∧ pass.run p w = .value (r, none) w' := by
    unfold Pass.run
    rw [h]
    dsimp only
    rw [residents_eq_nil hp, surrendered_nil, Action.forEach_nil,
      Action.bind_of_value (Action.pure_apply _ _)]
    cases pass.report p r with
    | none => exact ⟨w, ⟨rfl, rfl⟩, rfl⟩
    | some report =>
      exact ⟨{ w with log := w.log ++ [⟨.debug, report⟩] }, ⟨rfl, rfl⟩, rfl⟩
  obtain ⟨w₁, h₁, hrun⟩ := hrun
  rw [lower, Action.bind_of_value hrun]
  dsimp only
  rw [Action.bind_of_value Action.get_apply]
  split
  · refine ⟨_, ?_, Action.bind_of_value (note_apply _ _ _)⟩
    exact h₁.trans ⟨rfl, rfl⟩
  · exact ⟨w₁, h₁, rfl⟩

/-- The passes of either target only write to the log, over a program that was built. -/
theorem lower_of_lowers {t : Target} (hs : t.Stock) (hc : Consistent p.instructions)
    (ht : p.target = none) (hp : ∀ i ∈ p.instructions, i.kernel = none)
    (h : Lowers t.passes p q) (w : World) :
    ∃ w', Undisturbed w w' ∧ lower t p t.passes w = .value q w' := by
  rcases hs with rfl | ⟨id, offload, rfl⟩
  · obtain ⟨r, hdead, r', hinsert, rfl⟩ := h
    have hr := (eliminateDeadCode_value hc ht hdead).1.kernels hp
    obtain ⟨w₁, h₁, hfirst⟩ := lower_cons .host .eliminateDeadCode
      [.insertContiguous Target.hostNeeds] hdead hp w
    obtain ⟨w₂, h₂, hsecond⟩ := lower_cons .host (.insertContiguous Target.hostNeeds) []
      hinsert hr w₁
    exact ⟨w₂, h₁.trans h₂, hfirst.trans hsecond⟩
  · obtain ⟨r, hdead, r', hinsert, r'', hmove, rfl⟩ := h
    have hr := (eliminateDeadCode_value hc ht hdead).1.kernels hp
    have hr' := (lowered_of_insertContiguous (fun op => deviceNeeds_keeps) hc ht hdead
      hinsert).refines.kernels hp
    obtain ⟨w₁, h₁, hfirst⟩ := lower_cons (.device id offload) .eliminateDeadCode
      [.insertContiguous Target.deviceNeeds, .insertTransfers offload] hdead hp w
    obtain ⟨w₂, h₂, hsecond⟩ := lower_cons (.device id offload)
      (.insertContiguous Target.deviceNeeds) [.insertTransfers offload] hinsert hr w₁
    obtain ⟨w₃, h₃, hthird⟩ := lower_cons (.device id offload) (.insertTransfers offload) []
      hmove hr' w₂
    exact ⟨w₃, (h₁.trans h₂).trans h₃, hfirst.trans (hsecond.trans hthird)⟩

end Program
end TensorGraph
