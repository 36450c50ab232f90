/-
Holders in an evaluation.

A run holds the buffers of the values it keeps, besides those that its parameters and the
program hold anyway.  Every kernel gives its value one holder, the table of values takes
it over, and a value that is not read again, or a run that is refused, lets go of it.
`run_conserves` is what a caller sees: the result has one holder more, and a refusal leaves none.
-/
import TensorGraph.Proofs.Ownership.Holders
import TensorGraph.Proofs.Program.Evaluate

namespace TensorGraph

open World (Holding Conserves Leads)

variable {w : World} {H : List DeviceBuffer} {a b : Argument}

/-! ## Kernels -/

theorem Argument.holds_of_withShape {s : Shape} (h : a.withShape s = .value b) :
    b.holds = a.holds := by
  unfold Argument.withShape at h
  unfold Argument.holds Argument.deviceBuffer?
  cases hs : a.storage with
  | none =>
    rw [hs] at h
    cases h
    rfl
  | some storage =>
    rw [hs] at h
    rw [Argument.shape_of_make h]

theorem Argument.holds_of_ofTensor {key : Nat} {d : Dtype} {t : Tensor}
    (h : Argument.ofTensor key d t = some a) : a.holds = [] := by
  obtain ⟨_, -, -, rfl⟩ := Argument.ofTensor_eq_some.mp h
  rfl

/-- A value on the host shares the buffer of an input or has none. -/
theorem Kernel.holds_of_onHost {key : Nat} {op : Operator} {output : Shape}
    {inputs : List Argument} (h : Kernel.onHost key op output inputs = .value a) :
    a.holds = [] ∨ ∃ b ∈ inputs, a.holds = b.holds := by
  have hcopy : ∀ {t : Tensor} {d : Dtype},
      (do return ← Argument.ofTensor key d t : Outcome Argument) = .value a → a.holds = [] :=
    fun h => Argument.holds_of_ofTensor (Outcome.ofOption_eq_value.mp h)
  unfold Kernel.onHost at h
  cases op with
  | literal l =>
    cases h
    exact Or.inl rfl
  | parameter => cases h
  | reshape | transpose =>
    cases inputs with
    | nil => cases h
    | cons b rest => exact Or.inr ⟨b, List.mem_cons_self, Argument.holds_of_withShape h⟩
  | contiguous =>
    cases inputs with
    | nil => cases h
    | cons b rest =>
      obtain ⟨v, -, h⟩ := Outcome.bind_eq_value.mp h
      exact Or.inl (hcopy h)
  | hostToDevice => cases h
  | deviceToHost => cases h
  | _ =>
    refine Or.inl ?_
    dsimp only at h
    split at h
    · obtain ⟨views, -, h⟩ := Outcome.bind_eq_value.mp h
      obtain ⟨t, -, h⟩ := Outcome.bind_eq_value.mp h
      exact hcopy h
    · cases h

theorem World.Holding.launch (h : Holding w H) (op : Operator) (id : DeviceId) (output : Shape)
    (inputs : List Argument) :
    Conserves Argument.holds H ((BoundKernel.launch op id).compute output inputs w) := by
  unfold BoundKernel.compute
  refine Action.meets_bind (P := fun _ w' => Holding w' H)
    (Action.meets_ofOutcome (fun _ _ => h) h) fun size w₁ h₁ => ?_
  refine Action.meets_bind (h₁.allocate id size) fun b w₂ h₂ => ?_
  refine Action.meets_onRefusal (K := fun w' => Holding w' (b :: H)) ?_
    fun w' h' => h'.releaseBuffer.meets
  refine Action.meets_bind (P := fun a w' => Holding w' (b :: H) ∧ a.holds = [b])
    (Action.meets_ofOutcome (fun a ha => ⟨h₂, World.holds_of_make_device ha⟩) h₂) ?_
  rintro a w₃ ⟨h₃, ha⟩
  rw [Action.mapM_lift]
  refine Action.meets_bind (P := fun _ w' => Holding w' (b :: H))
    (Action.meets_ofOutcome (fun _ _ => h₃) h₃) fun operands w₄ h₄ => ?_
  refine Action.meets_bind (P := fun _ w' => Holding w' (b :: H))
    (Action.meets_ofOutcome (fun _ _ => h₄) h₄) fun result w₅ h₅ => ?_
  refine Action.meets_bind (h₅.onDevice id fun d _ => Device.unmoved_launch d op result operands)
    fun _ w₆ h₆ => ?_
  show Holding w₆ (a.holds ++ H)
  rw [ha]
  exact h₆

/-- A kernel gives its value a holder, and leaves none behind when it is refused. -/
theorem World.Holding.compute (h : Holding w H) {k : BoundKernel} (output : Shape)
    {inputs : List Argument} (hk : ∀ b, k.resident? = some b → b ∈ H)
    (hinputs : ∀ a ∈ inputs, a.holds ⊆ H) :
    Conserves Argument.holds H (k.compute output inputs w) := by
  unfold BoundKernel.compute
  have hretain : ∀ a w', Holding w' H → a.holds ⊆ H → Conserves Argument.holds H
      ((do World.retain a; return a : Action World Argument) w') := by
    intro a w' h' ha
    exact Action.meets_bind (h'.retain ha).meets fun _ _ h'' => h''
  cases k with
  | host op =>
    refine Action.meets_bind (P := fun _ w' => Holding w' H) (h.congr rfl rfl)
      fun key w₁ h₁ => ?_
    refine Action.meets_bind (P := fun a w' => Holding w' H ∧ a.holds ⊆ H)
      (Action.meets_ofOutcome (fun a ha => ⟨h₁, ?_⟩) h₁) fun a w₂ h₂ => hretain a w₂ h₂.1 h₂.2
    rcases Kernel.holds_of_onHost ha with hnil | ⟨b, hb, heq⟩
    · rw [hnil]
      exact List.nil_subset _
    · rw [heq]
      exact hinputs b hb
  | literal l => exact h
  | resident a =>
    refine hretain a w h fun b hb => hk b ?_
    exact Option.mem_toList.mp hb
  | upload id =>
    cases inputs with
    | nil => exact trivial
    | cons a rest => exact h.toDevice id a
  | download =>
    cases inputs with
    | nil => exact trivial
    | cons a rest => exact h.toHost a
  | view name =>
    cases inputs with
    | nil => exact trivial
    | cons a rest =>
      refine Action.meets_bind (P := fun b w' => Holding w' H ∧ b.holds ⊆ H)
        (Action.meets_ofOutcome (fun b hb => ⟨h, ?_⟩) h) fun b w₁ h₁ => hretain b w₁ h₁.1 h₁.2
      rw [Argument.holds_of_withShape hb]
      exact hinputs a List.mem_cons_self
  | launch op id => exact h.launch op id output inputs

/-! ## Values that are kept -/

namespace Program

variable {values : Values} {params : Parameters} {last : List (Option Nat)} {position output : Nat}
variable {i : Instruction} {rest : List Instruction} {p : Program}

def heldBy (values : Values) : List DeviceBuffer := (kept values).flatMap fun e => e.2.holds

theorem map_snd_keptFrom (position : Nat) (values : Values) :
    (keptFrom position values).map Prod.snd = values.filterMap id := by
  induction values generalizing position with
  | nil => rfl
  | cons v values ih =>
    cases v with
    | none => exact ih (position + 1)
    | some a => exact congrArg (a :: ·) (ih (position + 1))

theorem heldBy_eq (values : Values) : heldBy values = (values.filterMap id).flatMap Argument.holds := by
  rw [heldBy, kept, ← map_snd_keptFrom 0 values, List.flatMap_map]

theorem heldBy_set_none {r : Nat} (h : values[r]? = some (some a)) :
    (heldBy values).Perm (a.holds ++ heldBy (values.set r none)) :=
  (kept_set_none h).flatMap_right _

theorem heldBy_set_some {r : Nat} (a : Argument) (h : values[r]? = some none) :
    (heldBy (values.set r (some a))).Perm (a.holds ++ heldBy values) :=
  (kept_set_some a h).flatMap_right _

theorem holds_subset_heldBy {r : Nat} (h : values[r]? = some (some a)) :
    a.holds ⊆ heldBy values :=
  fun _ hb => (heldBy_set_none h).mem_iff.mpr (List.mem_append_left _ hb)

theorem exists_of_mem_heldBy {b : DeviceBuffer} (h : b ∈ heldBy values) :
    ∃ (j : Nat) (a : Argument), values[j]? = some (some a) ∧ b ∈ a.holds := by
  rw [heldBy_eq, List.mem_flatMap] at h
  obtain ⟨a, ha, hb⟩ := h
  obtain ⟨v, hv, rfl⟩ := List.mem_filterMap.mp ha
  obtain ⟨j, hj⟩ := List.mem_iff_getElem?.mp hv
  exact ⟨j, a, hj, hb⟩

theorem forEach_release_leads {as : List Argument} (h : Holding w (as.flatMap Argument.holds ++ H)) :
    Leads H (Action.forEach World.release as w) := by
  induction as generalizing w with
  | nil => exact h
  | cons a as ih =>
    rw [List.flatMap_cons, List.append_assoc] at h
    exact Action.meets_bind h.release fun _ w' h' => ih h'

theorem releaseValues_leads (h : Holding w (heldBy values ++ H)) :
    Leads H (releaseValues values w) := by
  rw [heldBy_eq] at h
  exact forEach_release_leads h

theorem mem_of_inputValues {inputs : List Nat} {args : List Argument}
    (h : inputValues position values inputs = .value args) :
    ∀ a ∈ args, ∃ r : Nat, values[r]? = some (some a) := by
  intro a ha
  obtain ⟨r, -, hr⟩ := exists_of_mem_right (inputValues_eq_some h) ha
  exact ⟨r, hr⟩

theorem instructionValue_conserves (h : Holding w (heldBy values ++ H))
    (hparams : ∀ name a, params.lookup name = some a → a.holds ⊆ H)
    (hkernel : ∀ b, i.kernel.bind BoundKernel.resident? = some b → b ∈ H) :
    Conserves Argument.holds (heldBy values ++ H) (instructionValue params position i values w) := by
  cases hp : i.isParameter with
  | true =>
    obtain ⟨name, s, hop⟩ := exists_parameter hp
    cases ha : params.lookup name with
    | none =>
      rw [instructionValue_of_missing hop ha]
      exact h
    | some a =>
      rw [instructionValue_of_parameter hop ha]
      have hretain := h.retain (List.subset_append_of_subset_right _ (hparams name a ha))
      exact Action.meets_bind hretain.meets fun _ _ h' => h'
  | false =>
    cases hk : i.kernel with
    | none =>
      rw [instructionValue_of_unbound hp hk]
      exact h
    | some k =>
      rw [instructionValue_of_kernel hp hk]
      rw [hk] at hkernel
      refine Action.meets_bind (P := fun args w' => Holding w' (heldBy values ++ H) ∧
        ∀ a ∈ args, a.holds ⊆ heldBy values) (Action.meets_ofOutcome (fun args hargs => ⟨h, ?_⟩) h) ?_
      · intro a ha
        obtain ⟨r, hr⟩ := mem_of_inputValues hargs a ha
        exact holds_subset_heldBy hr
      · rintro args w₁ ⟨h₁, hargs⟩
        exact h₁.compute i.shape (fun b hb => List.mem_append_right _ (hkernel b hb))
          fun a ha => List.subset_append_of_subset_left _ (hargs a ha)

/-- Whether the table has room for the positions that are left, and no values there yet. -/
structure Ahead (position : Nat) (rest : List Instruction) (values : Values) : Prop where
  length : values.length = position + rest.length
  free : ∀ (r : Nat) (a : Argument), position ≤ r → values[r]? ≠ some (some a)

theorem Ahead.free_here (h : Ahead position (i :: rest) values) :
    values[position]? = some none := by
  have hlen := h.length
  rw [List.length_cons] at hlen
  exact getElem?_eq_some_none (by omega) fun a => h.free position a le_rfl

theorem Ahead.succeeding (h : Ahead position (i :: rest) values) (a : Argument) :
    Ahead (position + 1) rest (succeeding last output position values a i.inputs) := by
  have hlen := h.length
  rw [List.length_cons] at hlen
  refine ⟨?_, fun r b hr hb => ?_⟩
  · rw [Program.succeeding, length_cleared]
    split
    · rw [List.length_set]
      omega
    · omega
  · rcases getElem?_of_succeeding hb with hold | ⟨heq, -⟩
    · exact h.free r b (by omega) hold
    · omega

theorem releaseDead_meets {inputs : List Nat} (h : Holding w (heldBy values ++ H)) :
    (releaseDead last position values inputs w).Meets
      (fun values' w' => Holding w' (heldBy values' ++ H)) fun _ => False := by
  induction inputs generalizing values w with
  | nil => exact h
  | cons s inputs ih =>
    rcases releaseDead_cons last position values s inputs with ⟨a, ha, heq, -⟩ | ⟨heq, -⟩
    · have hperm := (heldBy_set_none ha).append_right H
      rw [List.append_assoc] at hperm
      rw [heq]
      exact Action.meets_bind (h.trans hperm).release fun _ w' h' => ih h'
    · rw [heq]
      exact ih h

theorem releasing_meets (hfree : values[position]? = some none)
    (h : Holding w (a.holds ++ (heldBy values ++ H))) :
    (releasing last output position i values a w).Meets
      (fun values' w' => Holding w' (heldBy values' ++ H)) fun _ => False := by
  have hcomm : ∀ values : Values,
      (a.holds ++ (heldBy values ++ H)).Perm (heldBy values ++ (a.holds ++ H)) := by
    intro values
    rw [← List.append_assoc, ← List.append_assoc]
    exact List.perm_append_comm.append_right H
  unfold releasing
  split
  · have hset := (heldBy_set_some a hfree).symm.append_right H
    rw [List.append_assoc] at hset
    exact releaseDead_meets (h.trans hset)
  · refine Action.meets_bind (releaseDead_meets (h.trans (hcomm values))) fun values' w' h' => ?_
    exact Action.meets_bind (h'.trans (hcomm values').symm).release fun _ _ h'' => h''

theorem settling_meets (hfree : values[position]? = some none)
    (h : Holding w (a.holds ++ (heldBy values ++ H))) :
    (settling last output position i values a w).Meets
      (fun values' w' => Holding w' (heldBy values' ++ H)) fun _ => False := by
  rcases settling_cases last output position i values a w with heq | ⟨text, heq⟩
  · rw [heq]
    exact releasing_meets hfree h
  · rw [heq]
    exact releasing_meets hfree (h.congr rfl rfl)

theorem runStep_meets (h : Holding w (heldBy values ++ H))
    (hahead : Ahead position (i :: rest) values)
    (hparams : ∀ name a, params.lookup name = some a → a.holds ⊆ H)
    (hkernel : ∀ b, i.kernel.bind BoundKernel.resident? = some b → b ∈ H) :
    (runStep params last output position values i w).Meets
      (fun values' w' => Holding w' (heldBy values' ++ H) ∧ Ahead (position + 1) rest values')
      fun w' => Holding w' H := by
  rw [runStep_eq]
  refine Action.meets_bind (Action.meets_onRefusal (K := fun w' => Holding w' (heldBy values ++ H))
    (instructionValue_conserves h hparams hkernel) fun w' h' =>
      (releaseValues_leads h').meets) fun a w₁ h₁ => ?_
  refine (settling_meets hahead.free_here h₁).with_value.mono ?_ fun _ => False.elim
  rintro values' w' ⟨hsettle, h'⟩
  rw [settling_eq_value hsettle] at h' ⊢
  exact ⟨h', hahead.succeeding a⟩

theorem runFrom_meets (h : Holding w (heldBy values ++ H))
    (hahead : Ahead position rest values)
    (hparams : ∀ name a, params.lookup name = some a → a.holds ⊆ H)
    (hkernels : ∀ i ∈ rest, ∀ b, i.kernel.bind BoundKernel.resident? = some b → b ∈ H) :
    (runFrom params last output position values rest w).Meets
      (fun values' w' => Holding w' (heldBy values' ++ H)) fun w' => Holding w' H := by
  induction rest generalizing position values w with
  | nil => exact h
  | cons i rest ih =>
    rw [List.forall_mem_cons] at hkernels
    rw [runFrom_cons]
    refine Action.meets_bind (runStep_meets h hahead hparams hkernels.1) ?_
    rintro values' w' ⟨h', hahead'⟩
    exact ih h' hahead' hkernels.2

/-- The result of a run has one holder more than before, and a run that is refused leaves the
holders as they were. -/
theorem run_conserves (h : Holding w H)
    (hparams : ∀ name a, params.lookup name = some a → a.holds ⊆ H)
    (hresidents : p.residents ⊆ H) : Conserves Argument.holds H (p.run params w) := by
  have hkernels : ∀ i ∈ p.instructions, ∀ b, i.kernel.bind BoundKernel.resident? = some b →
      b ∈ H := fun i hi b hb => hresidents (List.mem_filterMap.mpr ⟨i, hi, hb⟩)
  unfold Program.run
  split
  · exact h
  · refine Action.meets_bind (P := fun _ w' => Holding w' H)
      (Action.meets_ofOutcome (fun _ _ => h) h) fun _ w₁ h₁ => ?_
    cases houtput : p.output? with
    | none => exact h₁
    | some output =>
      refine Action.meets_bind (P := fun _ w' => Holding w' H)
        (Action.meets_ofOutcome (fun _ _ => h₁) h₁) fun last w₂ h₂ => ?_
      have hstart : Holding w₂ (heldBy (List.replicate p.size none) ++ H) := by
        rw [heldBy, kept_replicate]
        exact h₂
      have hahead : Ahead 0 p.instructions (List.replicate p.size none) :=
        ⟨by rw [List.length_replicate, Nat.zero_add]; rfl, fun r a _ =>
          getElem?_replicate_none _ r a⟩
      refine Action.meets_bind (runFrom_meets hstart hahead hparams hkernels)
        fun values w₃ h₃ => ?_
      cases hvalue : values.getD output none with
      | none =>
        exact Action.meets_bind (releaseValues_leads h₃).meets fun _ w₄ h₄ => h₄
      | some a =>
        have hget : values[output]? = some (some a) := getD_eq_some.mp hvalue
        have hperm : (heldBy values ++ H).Perm
            (heldBy (values.set output none) ++ (a.holds ++ H)) := by
          rw [← List.append_assoc]
          exact ((heldBy_set_none hget).trans List.perm_append_comm).append_right H
        exact Action.meets_bind (releaseValues_leads (h₃.trans hperm)).meets
          fun _ w₄ h₄ => h₄

end Program
end TensorGraph
