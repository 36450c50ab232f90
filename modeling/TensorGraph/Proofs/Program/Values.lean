/-
What holds of the values that a run keeps.

A run fills a table with the value of each instruction and empties entries that are not read
any more.  `EveryAt P` says that `P` holds of every value that is kept, at its position.  If
each instruction gives a value for which it holds, from values for which it does, then it
holds throughout a run, `EveryAt.runFrom`, and of the result: `everyAt_of_run`.
-/
import TensorGraph.Proofs.Program.Evaluate

namespace TensorGraph
namespace Program

variable {p : Program} {i : Instruction} {w w' : World} {a : Argument} {params : Parameters}
variable {values values' : Values} {last : List (Option Nat)} {position output : Nat}
variable {P : Nat → Argument → Prop}

def EveryAt (P : Nat → Argument → Prop) (values : Values) : Prop :=
  ∀ (r : Nat) (a : Argument), values[r]? = some (some a) → P r a

theorem everyAt_replicate (P : Nat → Argument → Prop) (n : Nat) :
    EveryAt P (List.replicate n none) := by
  intro r a ha
  exact absurd ha (getElem?_replicate_none n r a)

theorem EveryAt.succeeding {inputs : List Nat} (h : EveryAt P values) (ha : P position a) :
    EveryAt P (succeeding last output position values a inputs) := by
  intro r b hb
  rcases getElem?_of_succeeding hb with hold | ⟨rfl, rfl⟩
  · exact h r b hold
  · exact ha

theorem EveryAt.runStep (h : EveryAt P values)
    (hP : ∀ w a w', instructionValue params position i values w = .value a w' → P position a)
    (hstep : runStep params last output position values i w = .value values' w') :
    EveryAt P values' := by
  obtain ⟨a, w₁, hvalue, -, rfl⟩ := runStep_eq_value hstep
  exact h.succeeding (hP w a w₁ hvalue)

theorem EveryAt.runFrom {rest : List Instruction} (h : EveryAt P values)
    (hP : ∀ k i, rest[k]? = some i → ∀ values w a w', EveryAt P values →
      instructionValue params (position + k) i values w = .value a w' → P (position + k) a)
    (hrun : runFrom params last output position values rest w = .value values' w') :
    EveryAt P values' := by
  induction rest generalizing position values w with
  | nil =>
    cases hrun
    exact h
  | cons i rest ih =>
    rw [runFrom_cons] at hrun
    obtain ⟨values₁, w₁, hstep, hrun⟩ := Action.bind_eq_value.mp hrun
    have hfirst : EveryAt P values₁ :=
      h.runStep (fun w a w' hvalue => hP 0 i rfl values w a w' h hvalue) hstep
    refine ih hfirst (fun k j hj values w a w' hkept hvalue => ?_) hrun
    have hshift : position + 1 + k = position + (k + 1) := by omega
    rw [hshift] at hvalue ⊢
    exact hP (k + 1) j hj values w a w' hkept hvalue

/-- A run that gives a value has it in its table behind the last instruction, and releases the
others. -/
theorem exists_values_of_run (hrun : p.run params w = .value a w') :
    ∃ last values w₁, runFrom params last (p.size - 1) 0 (List.replicate p.size none)
        p.instructions w = .value values w₁ ∧ values[p.size - 1]? = some (some a) ∧
      releaseValues (values.set (p.size - 1) none) w₁ = .value () w' := by
  unfold run at hrun
  split at hrun
  · cases hrun
  obtain ⟨_, _, hcheck, hchecked⟩ := Action.bind_eq_value.mp hrun
  obtain ⟨-, rfl⟩ := Action.ofOutcome_eq_value.mp hcheck
  by_cases hempty : p.instructions.isEmpty = true
  · rw [output?, if_pos hempty] at hchecked
    cases hchecked
  rw [output?, if_neg hempty] at hchecked
  obtain ⟨last, _, hlast, hstarted⟩ := Action.bind_eq_value.mp hchecked
  obtain ⟨-, rfl⟩ := Action.ofOutcome_eq_value.mp hlast
  obtain ⟨values, w₁, hvalues, hended⟩ := Action.bind_eq_value.mp hstarted
  refine ⟨last, values, w₁, hvalues, ?_⟩
  cases hv : values.getD (p.size - 1) none with
  | none =>
    rw [hv] at hended
    obtain ⟨_, _, -, hrefused⟩ := Action.bind_eq_value.mp hended
    cases hrefused
  | some b =>
    rw [hv] at hended
    obtain ⟨_, _, hrelease, hvalue⟩ := Action.bind_eq_value.mp hended
    cases hvalue
    exact ⟨getD_eq_some.mp hv, hrelease⟩

/-- What holds of the value of every instruction holds of the result of a run, at the last
position. -/
theorem everyAt_of_run (hP : ∀ k i, p.instructions[k]? = some i → ∀ values w a w',
      EveryAt P values → instructionValue params k i values w = .value a w' → P k a)
    (hrun : p.run params w = .value a w') : P (p.size - 1) a := by
  obtain ⟨last, values, w₁, hvalues, hout, -⟩ := exists_values_of_run hrun
  have hkept : EveryAt P values := by
    refine (everyAt_replicate P p.size).runFrom (fun k i hi values w a w' hkept hvalue => ?_) hvalues
    rw [Nat.zero_add] at hvalue ⊢
    exact hP k i hi values w a w' hkept hvalue
  exact hkept _ a hout

/-- What holds of the value of every instruction, wherever it is, holds of the result. -/
theorem forall_of_run {P : Argument → Prop}
    (hP : ∀ i ∈ p.instructions, ∀ position values w a w',
      instructionValue params position i values w = .value a w' → P a)
    (hrun : p.run params w = .value a w') : P a :=
  everyAt_of_run (P := fun _ => P)
    (fun k i hi values w a w' _ hvalue =>
      hP i (List.mem_of_getElem? hi) k values w a w' hvalue) hrun

end Program
end TensorGraph
