/-
Programs whose constants are backed by their storage.

An operator or a kernel that is a constant holds it with its storage.  No pass makes a constant,
and binding takes one from the program or moves it with a transfer, so the constants of a program
stay backed whatever target or pass is used: `Backed.apply`, `Backed.compile`.  Then every value
of an evaluation is backed, and so is its result: `Backed.run`.
-/
import TensorGraph.Proofs.Program.Values
import TensorGraph.Proofs.Storage.Backed

namespace TensorGraph

structure Instruction.Backed (i : Instruction) : Prop where
  op : i.op.Backed
  kernel : ∀ k, i.kernel = some k → k.Backed

def Program.Backed (p : Program) : Prop := ∀ i ∈ p.instructions, i.Backed

namespace Program

variable {p q : Program} {i : Instruction} {t : Target} {w w' : World} {a : Argument}
variable {α β : Type}

theorem Backed.concat (h : p.Backed) (hi : i.Backed) :
    Backed { p with instructions := p.instructions ++ [i] } := by
  show ∀ j ∈ p.instructions ++ [i], j.Backed
  rw [List.forall_mem_append, List.forall_mem_singleton]
  exact ⟨h, hi⟩

theorem Backed.setKernel (h : p.Backed) {position : Nat} {k : BoundKernel} (hk : k.Backed) :
    (p.setKernel position k).Backed := by
  intro j hj
  obtain ⟨r, hr⟩ := List.mem_iff_getElem?.mp hj
  rw [getElem?_setKernel] at hr
  obtain ⟨i, hi, rfl⟩ := Option.map_eq_some_iff.mp hr
  have hi' := h i (List.mem_of_getElem? hi)
  split
  · refine ⟨hi'.op, fun k' hk' => ?_⟩
    cases hk'
    exact hk
  · exact hi'

/-! ## Passes -/

def KeepsBacked (x : Action Program α) : Prop := ∀ p : Program, p.Backed → (x p).Always Backed

theorem KeepsBacked.bind {x : Action Program α} {f : α → Action Program β} (h : KeepsBacked x)
    (hf : ∀ a, KeepsBacked (f a)) : KeepsBacked (x >>= f) := fun p hp =>
  Action.always_bind (h p hp) fun a q hq => hf a q hq

theorem keepsBacked_pure (a : α) : KeepsBacked (pure a) := fun _ hp => hp

theorem keepsBacked_get : KeepsBacked (MonadState.get : Action Program Program) := fun _ hp => hp

theorem keepsBacked_lift (x : Outcome α) : KeepsBacked (liftM x : Action Program α) := by
  intro p hp
  cases x with
  | value a => exact hp
  | refused e => exact hp
  | halted => exact trivial

theorem keepsBacked_push (hi : i.Backed) : KeepsBacked (push i) := fun _ hp => hp.concat hi

theorem keepsBacked_addInstruction {op : Operator} (hop : op.Backed) (inputs : List Nat) :
    KeepsBacked (addInstruction op inputs) := by
  intro p hp
  rcases addInstruction_cases op inputs p with hhalt | ⟨e, hrefused⟩ | ⟨s, -, -, -, hvalue⟩
  · rw [hhalt]
    exact trivial
  · rw [hrefused]
    exact hp
  · rw [hvalue]
    exact hp.concat ⟨hop, fun _ hk => nomatch hk⟩

/-- A copy is no constant. -/
theorem keepsBacked_addCopy {op : Operator} (hop : op.isCopy = true) (r : Nat) :
    KeepsBacked (addInstruction op [r]) := by
  refine keepsBacked_addInstruction ?_ [r]
  cases op with
  | literal => cases hop
  | _ => exact trivial

theorem keepsBacked_addParameter (name : String) (s : Shape) :
    KeepsBacked (addParameter name s) := by
  intro p hp
  rcases addParameter_cases name s p with ⟨e, hrefused⟩ | ⟨-, -, hvalue⟩
  · rw [hrefused]
    exact hp
  · rw [hvalue]
    exact hp.concat ⟨trivial, fun _ hk => nomatch hk⟩

theorem keepsBacked_contiguousInputs (inputs : List Nat) :
    KeepsBacked (contiguousInputs inputs) := by
  induction inputs with
  | nil => exact keepsBacked_pure []
  | cons r rest ih =>
    refine keepsBacked_get.bind fun p => (keepsBacked_lift _).bind fun i => ?_
    refine (keepsBacked_lift (Outcome.ofOption _)).bind fun standard => ?_
    cases standard with
    | true => exact ih.bind fun rest => keepsBacked_pure _
    | false =>
      refine (keepsBacked_addCopy rfl r).bind fun copy => ?_
      exact ih.bind fun rest => keepsBacked_pure _

variable {step : Nat → Instruction → Action Program (Option Nat)}

/-- A pass is done with one instruction after the other. -/
theorem keepsBacked_rebuildFrom (hstep : ∀ old i, i.Backed → KeepsBacked (step old i))
    {rest : List Instruction} (hrest : ∀ i ∈ rest, i.Backed) (positions : List (Option Nat)) :
    KeepsBacked (rebuildFrom step positions rest) := by
  induction rest generalizing positions with
  | nil => exact keepsBacked_pure ()
  | cons i rest ih =>
    rw [List.forall_mem_cons] at hrest
    refine (keepsBacked_lift _).bind fun inputs => ?_
    have hi : Instruction.Backed { i with inputs := inputs } := ⟨hrest.1.op, hrest.1.kernel⟩
    exact (hstep _ _ hi).bind fun now => ih hrest.2 _

theorem keepsBacked_rebuild (hstep : ∀ old i, i.Backed → KeepsBacked (step old i)) :
    KeepsBacked (rebuild step) := by
  intro p hp
  have hempty : Backed { p with instructions := [] } := fun _ hi => nomatch hi
  exact keepsBacked_rebuildFrom hstep hp [] _ hempty

/-- No pass makes a constant. -/
theorem keepsBacked_apply (pass : Pass) : KeepsBacked pass.apply := by
  cases pass with
  | eliminateDeadCode =>
    refine keepsBacked_get.bind fun p => ?_
    split
    · exact keepsBacked_pure ()
    · refine (keepsBacked_lift (Outcome.ofOption _)).bind fun live => ?_
      refine keepsBacked_rebuild fun old i hi => ?_
      split
      · exact (keepsBacked_push hi).bind fun _ => keepsBacked_pure _
      · exact keepsBacked_pure _
  | insertContiguous needs =>
    refine keepsBacked_rebuild fun old i hi => ?_
    split
    · refine (keepsBacked_contiguousInputs _).bind fun inputs => ?_
      have hi' : Instruction.Backed { i with inputs := inputs } := ⟨hi.op, hi.kernel⟩
      exact (keepsBacked_push hi').bind fun _ => keepsBacked_pure _
    · exact (keepsBacked_push hi).bind fun _ => keepsBacked_pure _
  | insertTransfers offload =>
    refine (keepsBacked_rebuild fun old i hi => (keepsBacked_push hi).bind fun r => ?_).bind
      fun _ => keepsBacked_get.bind fun p => ?_
    · split
      · exact (keepsBacked_addCopy rfl r).bind fun _ => keepsBacked_pure _
      · exact keepsBacked_pure _
    · cases offload with
      | false => exact keepsBacked_pure ()
      | true =>
        cases p.output? with
        | none => exact keepsBacked_pure ()
        | some output => exact (keepsBacked_addCopy rfl output).bind fun _ => keepsBacked_pure _

/-- What a pass leaves is backed, also where it stopped. -/
theorem Backed.pass (h : p.Backed) {pass : Pass} {stopped : Option Error}
    (hrun : pass.run p w = .value (q, stopped) w') : q.Backed := by
  have happly := keepsBacked_apply pass p h
  unfold Pass.run at hrun
  cases hpass : pass.apply p with
  | halted =>
    rw [hpass] at hrun
    cases hrun
  | value u r =>
    rw [hpass] at hrun happly
    obtain ⟨_, w₁, -, hrun⟩ := Action.bind_eq_value.mp hrun
    cases hreport : pass.report p r with
    | none =>
      rw [hreport] at hrun
      cases hrun
      exact happly
    | some report =>
      rw [hreport] at hrun
      obtain ⟨_, _, -, hrun⟩ := Action.bind_eq_value.mp hrun
      cases hrun
      exact happly
  | refused e r =>
    rw [hpass] at hrun happly
    obtain ⟨_, w₁, -, hrun⟩ := Action.bind_eq_value.mp hrun
    cases hrun
    exact happly

/-! ## Compiling -/

theorem Backed.lower {passes : List Pass} (h : p.Backed)
    (hlower : lower t p passes w = .value q w') : q.Backed := by
  induction passes generalizing p w with
  | nil =>
    cases hlower
    exact h
  | cons pass rest ih =>
    unfold Program.lower at hlower
    obtain ⟨⟨r, stopped⟩, w₁, hrun, hlower⟩ := Action.bind_eq_value.mp hlower
    have hr := h.pass hrun
    cases stopped with
    | some e =>
      obtain ⟨_, _, -, hlower⟩ := Action.bind_eq_value.mp hlower
      cases hlower
    | none =>
      dsimp only at hlower
      rw [Action.bind_of_value Action.get_apply] at hlower
      split at hlower
      · obtain ⟨_, _, -, hlower⟩ := Action.bind_eq_value.mp hlower
        exact ih hr hlower
      · exact ih hr hlower

/-- A constant that a kernel holds is the one of its instruction, or was moved for it. -/
theorem backed_of_serves {backend : Backend} {is : List Instruction} {k : BoundKernel}
    (h : backend.Serves is i k) (hi : i.op.Backed) (hk : ∀ a, k = .resident a → a.Backed) :
    k.Backed := by
  obtain ⟨op, inputs, s, kernel⟩ := i
  cases backend with
  | host refused =>
    obtain ⟨-, rfl⟩ := h
    exact hi
  | device id =>
    cases op with
    | literal l =>
      obtain rfl : k = .literal l := h
      exact hi
    | hostToDevice =>
      dsimp only [Backend.Serves] at h
      split at h
      · obtain ⟨b, rfl, -⟩ := h
        exact hk _ rfl
      · rw [h]
        exact trivial
    | deviceToHost =>
      obtain rfl : k = .download := h
      exact trivial
    | _ =>
      dsimp only [Backend.Serves] at h
      split at h
      · rw [h]
        exact trivial
      · rw [h.2]
        exact trivial

theorem Backed.bind (h : p.Backed) {position : Nat} {k : BoundKernel}
    (hi : p.instructions[position]? = some i) (hbind : t.bind p position w = .value k w') :
    k.Backed := by
  refine backed_of_serves (serves_of_bind hi hbind) (h i (List.mem_of_getElem? hi)).op ?_
  rintro a rfl
  exact (valid_of_bind hbind).backed

theorem Backed.bindAll {positions : List Nat} (h : p.Backed)
    (hbind : bindAll t p positions w = .value q w') : q.Backed := by
  induction positions generalizing p w with
  | nil =>
    cases hbind
    exact h
  | cons position rest ih =>
    unfold Program.bindAll at hbind
    obtain ⟨i, w₁, hget, hbind⟩ := Action.bind_eq_value.mp hbind
    have hi := eq_of_get (Action.ofOutcome_eq_value.mp hget).1
    split at hbind
    · exact ih h hbind
    · obtain ⟨k, w₂, hk, hbind⟩ := Action.bind_eq_value.mp hbind
      exact ih (h.setKernel (h.bind hi (Action.onRefusal_eq_value.mp hk))) hbind

theorem Backed.compile (h : p.Backed) (hcompile : p.compile t w = .value q w') : q.Backed := by
  unfold Program.compile at hcompile
  cases ht : p.target with
  | some current =>
    rw [ht] at hcompile
    cases hcompile
  | none =>
    rw [ht] at hcompile
    obtain ⟨lowered, w₁, hlower, hcompile⟩ := Action.bind_eq_value.mp hcompile
    obtain ⟨bound, w₂, hbind, hcompile⟩ := Action.bind_eq_value.mp hcompile
    obtain ⟨_, w₃, -, hcompile⟩ := Action.bind_eq_value.mp hcompile
    cases hcompile
    have hbound : bound.Backed := (h.lower hlower).bindAll hbind
    exact hbound

theorem Backed.addLiteral (h : p.Backed) {l : Literal} (hl : l.Made) {r : Nat}
    (hadd : p.addLiteral l w = .value (q, r) w') : q.Backed := by
  have hconcat := h.concat (i := { op := .literal l, inputs := [], shape := l.shape })
    ⟨Argument.backed_ofLiteral hl, fun _ hk => nomatch hk⟩
  unfold Program.addLiteral at hadd
  cases ht : p.target with
  | none =>
    rw [ht] at hadd
    cases hadd
    exact hconcat
  | some t =>
    rw [ht] at hadd
    obtain ⟨k, w₁, hbind, hadd⟩ := Action.bind_eq_value.mp hadd
    cases k with
    | ok k =>
      cases hadd
      have hi : (p.instructions ++
          [{ op := .literal l, inputs := [], shape := l.shape }])[p.size]? =
            some { op := .literal l, inputs := [], shape := l.shape } :=
        List.getElem?_concat_length
      exact hconcat.setKernel (hconcat.bind hi (Action.attempt_eq_ok.mp hbind))
    | error e =>
      obtain ⟨_, _, -, hadd⟩ := Action.bind_eq_value.mp hadd
      cases hadd
      exact hconcat

/-! ## Evaluating -/

variable {params : Parameters} {values : Values} {position : Nat}

theorem backed_of_instructionValue (hi : i.Backed)
    (hparams : ∀ name a, params.lookup name = some a → a.Backed)
    (h : instructionValue params position i values w = .value a w') : a.Backed := by
  cases hp : i.isParameter with
  | true =>
    obtain ⟨name, s, hop⟩ := exists_parameter hp
    exact hparams name a (parameter_eq_value hop h).1
  | false =>
    cases hk : i.kernel with
    | none =>
      rw [instructionValue_of_unbound hp hk] at h
      cases h
    | some k =>
      rw [instructionValue_of_kernel hp hk] at h
      obtain ⟨args, _, -, h⟩ := Action.bind_eq_value.mp h
      exact BoundKernel.backed_of_compute (hi.kernel k hk) h

/-- The result of an evaluation is backed by its storage. -/
theorem Backed.run (h : p.Backed) (hparams : ∀ name a, params.lookup name = some a → a.Backed)
    (hrun : p.run params w = .value a w') : a.Backed :=
  forall_of_run (fun i hi _ _ _ _ _ hvalue => backed_of_instructionValue (h i hi) hparams hvalue)
    hrun

end Program
end TensorGraph
