/-
Refusals that are about a parameter.

Only the check of the arguments refuses a run for a parameter.  Whatever is refused behind it has
another reason: no operation on buffers names a parameter (`Turn.Spares`), and neither does a
launch that fails, whichever call reports it.  So when a run is refused for a parameter it has
not come to a device: `Program.run_refused_parameter`.
-/
import TensorGraph.Proofs.Isolation.Kernels

namespace TensorGraph

variable {α β σ : Type}

/-! ## Computations -/

/-- Whether a computation without state is not refused for a parameter. -/
def Outcome.Spares : Outcome α → Prop
  | .refused e => e.kind ≠ .parameter
  | _ => True

def Turn.Spares (K : σ → Prop) : Turn σ α → Prop
  | .value _ s => K s
  | .refused e s => e.kind ≠ .parameter ∧ K s
  | .halted => True

namespace Outcome

variable {x : Outcome α}

theorem Spares.bind {f : α → Outcome β} (h : x.Spares) (hf : ∀ a, (f a).Spares) :
    (x >>= f).Spares := by
  cases x with
  | value a => exact hf a
  | refused e => exact h
  | halted => exact trivial

theorem spares_lift (x : Option α) : (liftM x : Outcome α).Spares := by
  cases x <;> exact trivial

theorem spares_require {c : Prop} [Decidable c] {e : Error} (h : e.kind ≠ .parameter) :
    (require c e).Spares := by
  by_cases hc : c
  · rw [require_pos hc]
    exact trivial
  · rw [require_neg hc]
    exact h

theorem spares_mapM {f : α → Outcome β} (h : ∀ a, (f a).Spares) (as : List α) :
    (as.mapM f).Spares := by
  induction as with
  | nil => exact trivial
  | cons a as ih =>
    rw [List.mapM_cons]
    exact (h a).bind fun _ => ih.bind fun _ => trivial

end Outcome

namespace Action

variable {K : σ → Prop} {s : σ} {x : Action σ α}

theorem spares_bind {f : α → Action σ β} (h : (x s).Spares K)
    (hf : ∀ a t, K t → (f a t).Spares K) : ((x >>= f) s).Spares K := by
  rw [bind_apply]
  cases hx : x s with
  | value a t =>
    rw [hx] at h
    exact hf a t h
  | refused e t =>
    rw [hx] at h
    exact h
  | halted => exact trivial

theorem spares_ofOutcome {x : Outcome α} (hx : x.Spares) (h : K s) :
    (ofOutcome x s).Spares K := by
  cases x with
  | value a => exact h
  | refused e => exact ⟨hx, h⟩
  | halted => exact trivial

theorem spares_lift (x : Option α) (h : K s) : ((liftM x : Action σ α) s).Spares K :=
  spares_ofOutcome (Outcome.spares_lift x) h

theorem spares_onRefusal {cleanup : Action σ Unit} (h : (x s).Spares K)
    (hcleanup : ∀ t, K t → (cleanup t).Spares K) :
    ((x.onRefusal cleanup) s).Spares K := by
  unfold onRefusal
  cases hx : x s with
  | value a t =>
    rw [hx] at h
    exact h
  | halted => exact trivial
  | refused e t =>
    rw [hx] at h
    have hends := hcleanup t h.2
    dsimp only
    cases hc : cleanup t with
    | value a u =>
      rw [hc] at hends
      exact ⟨h.1, hends⟩
    | refused e' u =>
      rw [hc] at hends
      exact ⟨h.1, hends.2⟩
    | halted => exact trivial

theorem spares_forEach {f : α → Action σ Unit} {as : List α}
    (hf : ∀ a s, K s → (f a s).Spares K) (h : K s) : (forEach f as s).Spares K := by
  induction as generalizing s with
  | nil => exact h
  | cons a as ih => exact spares_bind (hf a s h) fun _ _ ht => ih ht

end Action

/-! ## Calls of a device -/

namespace Device

def Spared (d : Device) : Prop := ∀ e, d.failure = some e → e.kind ≠ .parameter

variable {d : Device} {address : Nat}

theorem Spared.flush (h : d.Spared) : (flush d).Spares Spared := by
  unfold Device.flush
  rcases d.memory.runAll d.queue with _ | ⟨m, _ | stop⟩
  · exact trivial
  · exact h
  · intro e he
    cases hf : d.failure with
    | none =>
      rw [hf] at he
      cases he
      exact nofun
    | some e' =>
      rw [hf] at he
      cases he
      exact h _ hf

theorem Spared.settle (h : d.Spared) : (settle d).Spares Spared := by
  refine Action.spares_bind h.flush fun _ d' h' => ?_
  rw [Action.bind_of_value Action.get_apply]
  cases hf : d'.failure with
  | none => exact h'
  | some e => exact ⟨h' e hf, nofun⟩

theorem Spared.allocation (h : d.Spared) (call : DeviceCall) (address : Nat) :
    (allocation call address d).Spares Spared := by
  unfold Device.allocation
  rw [Action.bind_of_value Action.get_apply]
  cases d.memory.find? address with
  | some bytes => exact h
  | none => exact ⟨nofun, h⟩

theorem Spared.alloc (h : d.Spared) (bytes : Nat) : (alloc bytes d).Spares Spared := by
  rcases alloc_cases d bytes with ⟨hvalue, -⟩ | ⟨_, -, -, hrefused⟩ | ⟨hhalt, -⟩
  · rw [hvalue]
    exact h
  · rw [hrefused]
    exact ⟨nofun, h⟩
  · rw [hhalt]
    exact trivial

theorem Spared.free (h : d.Spared) (address : Nat) : (free address d).Spares Spared := by
  refine Action.spares_bind h.flush fun _ d' h' => ?_
  rw [Action.bind_of_value Action.get_apply]
  cases d'.memory.find? address with
  | some bytes => exact h'
  | none => exact ⟨nofun, h'⟩

theorem Spared.copyin (h : d.Spared) (bytes : Bytes) (address : Nat) :
    (copyin bytes address d).Spares Spared := by
  refine Action.spares_bind h.settle fun _ d₁ h₁ => ?_
  refine Action.spares_bind (h₁.allocation _ _) fun old d₂ h₂ => ?_
  split
  · exact ⟨nofun, h₂⟩
  · exact h₂

theorem Spared.copyout (h : d.Spared) (address len : Nat) :
    (copyout address len d).Spares Spared := by
  refine Action.spares_bind h.settle fun _ d₁ h₁ => ?_
  refine Action.spares_bind (h₁.allocation _ _) fun bytes d₂ h₂ => ?_
  split
  · exact ⟨nofun, h₂⟩
  · exact h₂

theorem Spared.requireFits (h : d.Spared) (operand : Operand) :
    (requireFits operand d).Spares Spared := by
  refine Action.spares_bind (h.allocation _ _) fun bytes d₁ h₁ => ?_
  refine Action.spares_bind (Action.spares_lift _ h₁) fun wanted d₂ h₂ => ?_
  split
  · exact ⟨nofun, h₂⟩
  · exact h₂

theorem Spared.launch (h : d.Spared) (op : Operator) (output : Operand) (inputs : List Operand) :
    (launch op output inputs d).Spares Spared := by
  unfold Device.launch
  rw [Action.bind_of_value Action.get_apply]
  split
  · exact ⟨nofun, h⟩
  · split
    · exact ⟨nofun, h⟩
    · exact Action.spares_bind (Action.spares_forEach (fun operand _ h => h.requireFits operand) h)
        fun _ _ h' => h'

theorem Spared.synchronize (h : d.Spared) : (synchronize d).Spares Spared := by
  rw [synchronize_eq]
  exact Spared.settle h

end Device

/-! ## Operations on buffers -/

namespace World

def Spared (w : World) : Prop := ∀ d ∈ w.devices, d.Spared

variable {w : World} {a : Argument} {b : DeviceBuffer}

theorem Spared.onDevice (h : w.Spared) (id : DeviceId) {call : Action Device α}
    (hcall : ∀ d : Device, d.Spared → (call d).Spares Device.Spared) :
    (onDevice id call w).Spares Spared := by
  rcases Option.eq_none_or_eq_some w.devices[id]? with hnone | ⟨d, hd⟩
  · rw [onDevice_of_none hnone]
    exact trivial
  · have hends := hcall d (h d (List.mem_of_getElem? hd))
    have hset : ∀ d' : Device, d'.Spared → (w.setDevice id d').Spared := by
      intro d' hd' e he
      rcases List.mem_or_eq_of_mem_set he with he | rfl
      · exact h e he
      · exact hd'
    cases hcalled : call d with
    | value a d' =>
      rw [hcalled] at hends
      rw [onDevice_of_value hd hcalled]
      exact hset d' hends
    | refused e d' =>
      rw [hcalled] at hends
      rw [onDevice_of_refused hd hcalled]
      exact ⟨hends.1, hset d' hends.2⟩
    | halted =>
      rw [onDevice_of_halted hd hcalled]
      exact trivial

theorem Spared.releaseBuffer (h : w.Spared) (b : DeviceBuffer) :
    (releaseBuffer b w).Spares Spared := by
  unfold World.releaseBuffer
  rw [Action.bind_of_value (Action.modify_apply _), Action.bind_of_value Action.get_apply]
  split
  · have hfree := Spared.onDevice (w := { w with held := w.held.erase b }) h b.device
      fun d hd => hd.free b.address
    refine Action.spares_bind (K := Spared) ?_ fun r w' h' => ?_
    · unfold Action.attempt
      cases hends : World.onDevice b.device (Device.free b.address)
          { w with held := w.held.erase b } with
      | value u w' =>
        rw [hends] at hfree
        exact hfree
      | refused e w' =>
        rw [hends] at hfree
        exact hfree.2
      | halted => exact trivial
    · cases r with
      | ok u => exact h'
      | error e => exact h'
  · exact h

theorem Spared.retain (h : w.Spared) (a : Argument) : (retain a w).Spares Spared := by
  unfold World.retain
  cases a.deviceBuffer? <;> exact h

theorem Spared.release (h : w.Spared) (a : Argument) : (release a w).Spares Spared := by
  unfold World.release
  cases a.deviceBuffer? with
  | none => exact h
  | some b => exact h.releaseBuffer b

theorem Spared.allocate (h : w.Spared) (id : DeviceId) (size : Nat) :
    (allocate id size w).Spares Spared :=
  Action.spares_bind (h.onDevice id fun _ hd => hd.alloc size) fun _ _ h' => h'

theorem Spared.upload (h : w.Spared) (id : DeviceId) (bytes : Bytes) :
    (upload id bytes w).Spares Spared := by
  refine Action.spares_bind (h.allocate id bytes.size) fun b w₁ h₁ => ?_
  exact Action.spares_bind (Action.spares_onRefusal
    (h₁.onDevice id fun _ hd => hd.copyin bytes b.address) fun _ h' => h'.releaseBuffer b)
    fun _ _ h₂ => h₂

theorem Spared.download (h : w.Spared) (b : DeviceBuffer) : (download b w).Spares Spared := by
  refine Action.spares_bind (h.onDevice b.device fun _ hd => hd.synchronize) fun _ w₁ h₁ => ?_
  refine Action.spares_bind (K := Spared) h₁ fun key w₂ h₂ => ?_
  refine Action.spares_bind (Action.spares_lift _ h₂) fun host w₃ h₃ => ?_
  exact Action.spares_bind (h₃.onDevice b.device fun _ hd => hd.copyout b.address b.size)
    fun _ _ h₄ => h₄

end World

namespace Argument

theorem spares_buffer (a : Argument) : a.buffer.Spares := by
  unfold buffer
  cases a.storage with
  | some st => exact trivial
  | none => exact nofun

theorem spares_make (s : Shape) (st : Storage) : (make s st).Spares := by
  refine (Outcome.spares_lift _).bind fun n => ?_
  refine (Outcome.spares_require (by nofun)).bind fun _ => ?_
  cases st with
  | host b => exact (Outcome.spares_require (by nofun)).bind fun _ => trivial
  | device b => exact trivial

theorem spares_withShape (a : Argument) (s : Shape) : (a.withShape s).Spares := by
  unfold withShape
  cases a.storage with
  | some st => exact spares_make s st
  | none => exact trivial

theorem spares_hostBytes (a : Argument) : a.hostBytes.Spares := by
  refine Outcome.Spares.bind ?_ fun b => (Outcome.spares_lift _).bind fun _ => trivial
  refine a.spares_buffer.bind fun st => ?_
  cases st with
  | host b => exact trivial
  | device b => exact nofun

end Argument

namespace World

variable {w : World} {a : Argument} {b : DeviceBuffer}

theorem spares_operand (a : Argument) : (operand a).Spares := by
  refine a.spares_buffer.bind fun st => ?_
  cases st with
  | host b => exact nofun
  | device b => exact trivial

theorem Spared.toHost (h : w.Spared) (a : Argument) : (toHost a w).Spares Spared := by
  have hmake : ∀ host w', w'.Spared →
      ((do return ← Argument.make a.shape (.host host) : Action World Argument) w').Spares Spared :=
    fun _ _ h' => Action.spares_ofOutcome (Argument.spares_make _ _) h'
  refine Action.spares_bind (Action.spares_ofOutcome a.spares_buffer h) fun st w₁ h₁ => ?_
  cases st with
  | device b => exact Action.spares_bind (h₁.download b) hmake
  | host _ =>
    refine Action.spares_bind (Action.spares_ofOutcome a.spares_hostBytes h₁) fun bytes w₂ h₂ => ?_
    exact Action.spares_bind (K := Spared) h₂ fun key w₃ h₃ => hmake _ w₃ h₃

theorem Spared.sendHost (h : w.Spared) (id : DeviceId) (a : Argument) :
    (sendHost id a w).Spares Spared := by
  refine Action.spares_bind (Action.spares_ofOutcome a.spares_hostBytes h) fun bytes w₁ h₁ => ?_
  refine Action.spares_bind (h₁.upload id bytes) fun b w₂ h₂ => ?_
  exact Action.spares_onRefusal (Action.spares_ofOutcome (Argument.spares_make _ _) h₂)
    fun _ h' => h'.releaseBuffer b

theorem Spared.toDevice (h : w.Spared) (id : DeviceId) (a : Argument) :
    (toDevice id a w).Spares Spared := by
  unfold World.toDevice
  split
  · exact Action.spares_bind (h.toHost a) fun _ _ h' => h'.sendHost id _
  · exact h.sendHost id a

end World

/-! ## Runs -/

namespace Program

open World (Spared)

variable {id : DeviceId} {q : Program} {i : Instruction} {k : BoundKernel} {w w' : World}
variable {params : Parameters} {values : Values} {position output : Nat} {is : List Instruction}
variable {last : List (Option Nat)} {e : Error} {s : Shape} {args : List Argument}

/-- No kernel of a device is refused for a parameter. -/
theorem compute_spares (hw : w.Spared) (hk : ∀ op, k ≠ .host op) :
    (k.compute s args w).Spares Spared := by
  unfold BoundKernel.compute
  cases k with
  | host op => exact absurd rfl (hk op)
  | literal l => exact hw
  | resident a => exact Action.spares_bind (hw.retain a) fun _ _ h => h
  | upload id =>
    cases args with
    | nil => exact trivial
    | cons a rest => exact hw.toDevice id a
  | download =>
    cases args with
    | nil => exact trivial
    | cons a rest => exact hw.toHost a
  | view name =>
    cases args with
    | nil => exact trivial
    | cons a rest =>
      refine Action.spares_bind (Action.spares_ofOutcome (a.spares_withShape s) hw)
        fun b w₁ h₁ => ?_
      exact Action.spares_bind (h₁.retain b) fun _ _ h => h
  | launch op id =>
    refine Action.spares_bind (Action.spares_lift _ hw) fun bytes w₁ h₁ => ?_
    refine Action.spares_bind (h₁.allocate id bytes) fun b w₂ h₂ => ?_
    refine Action.spares_onRefusal ?_ fun _ h => h.releaseBuffer b
    refine Action.spares_bind (Action.spares_ofOutcome (Argument.spares_make _ _) h₂)
      fun result w₃ h₃ => ?_
    rw [Action.mapM_lift]
    refine Action.spares_bind (Action.spares_ofOutcome
      (Outcome.spares_mapM World.spares_operand args) h₃) fun operands w₄ h₄ => ?_
    refine Action.spares_bind (Action.spares_ofOutcome (World.spares_operand result) h₄)
      fun operand w₅ h₅ => ?_
    exact Action.spares_bind (h₅.onDevice id fun _ hd => hd.launch op operand operands)
      fun _ _ h => h

theorem releaseValues_spares (hw : w.Spared) : (releaseValues values w).Spares Spared :=
  Action.spares_forEach (fun a _ h => h.release a) hw

theorem releaseDead_spares {inputs : List Nat} (hw : w.Spared) :
    (releaseDead last position values inputs w).Spares Spared := by
  induction inputs generalizing values w with
  | nil => exact hw
  | cons r inputs ih =>
    rcases releaseDead_cons last position values r inputs with ⟨a, -, heq, -⟩ | ⟨heq, -⟩
    · rw [heq]
      exact Action.spares_bind (hw.release a) fun _ _ h => ih h
    · rw [heq]
      exact ih hw

theorem inputValues_spares (inputs : List Nat) : (inputValues position values inputs).Spares := by
  induction inputs with
  | nil => exact trivial
  | cons r inputs ih =>
    unfold inputValues
    split
    · exact ih.bind fun _ => trivial
    · exact nofun
    · exact trivial

/-- Whether an instruction that is a parameter has an argument, and no other runs on the host. -/
def Served (params : Parameters) (i : Instruction) : Prop :=
  (∀ name s, i.op = .parameter name s → ∃ a, params.lookup name = some a) ∧
    (i.isParameter = false → ∀ op, i.kernel ≠ some (.host op))

theorem instructionValue_spares (hw : w.Spared) (hi : Served params i) :
    (instructionValue params position i values w).Spares Spared := by
  cases hp : i.isParameter with
  | true =>
    obtain ⟨name, s, hop⟩ := exists_parameter hp
    obtain ⟨a, ha⟩ := hi.1 name s hop
    rw [instructionValue_of_parameter hop ha]
    exact Action.spares_bind (hw.retain a) fun _ _ h => h
  | false =>
    cases hk : i.kernel with
    | none =>
      rw [instructionValue_of_unbound hp hk]
      exact ⟨(fun heq => by cases heq), hw⟩
    | some k =>
      rw [instructionValue_of_kernel hp hk]
      refine Action.spares_bind (Action.spares_ofOutcome (inputValues_spares _) hw) fun _ _ h => ?_
      exact compute_spares h fun op hop => hi.2 hp op (hk.trans (congrArg some hop))

theorem releasing_spares (hw : w.Spared) :
    (releasing last output position i values a w).Spares Spared := by
  unfold releasing
  split
  · exact releaseDead_spares hw
  · exact Action.spares_bind (releaseDead_spares hw) fun _ _ h =>
      Action.spares_bind (h.release a) fun _ _ h => h

theorem settling_spares (hw : w.Spared) :
    (settling last output position i values a w).Spares Spared := by
  rcases settling_cases last output position i values a w with heq | ⟨text, heq⟩
  · rw [heq]
    exact releasing_spares hw
  · rw [heq]
    exact releasing_spares hw

theorem runStep_spares (hw : w.Spared) (hi : Served params i) :
    (runStep params last output position values i w).Spares Spared := by
  rw [runStep_eq]
  exact Action.spares_bind (Action.spares_onRefusal (instructionValue_spares hw hi)
    fun _ h => releaseValues_spares h) fun _ _ h => settling_spares h

theorem runFrom_spares (hw : w.Spared) (his : ∀ i ∈ is, Served params i) :
    (runFrom params last output position values is w).Spares Spared := by
  induction is generalizing position values w with
  | nil => exact hw
  | cons i is ih =>
    rw [List.forall_mem_cons] at his
    rw [runFrom_cons]
    exact Action.spares_bind (runStep_spares hw his.1) fun _ _ h => ih h his.2

theorem not_serves_host {op : Operator} : ¬(Backend.device id).Serves is i (.host op) := by
  intro h
  obtain ⟨iop, inputs, s, kernel⟩ := i
  unfold Backend.Serves at h
  cases iop with
  | literal l => cases h
  | hostToDevice =>
    dsimp only at h
    split at h
    · obtain ⟨b, h, -⟩ := h
      cases h
    · cases h
  | deviceToHost => cases h
  | reshape => cases h
  | transpose => cases h
  | _ => cases h.2

/-- Once the arguments are right, nothing that a run is refused for is about a parameter. -/
theorem OnDevice.served (h : q.OnDevice id)
    (hcheck : checkParameters params q.parameters = .value ()) :
    ∀ i ∈ q.instructions, Served params i := by
  intro i hi
  refine ⟨fun name s hop => ?_, fun hp op hk => ?_⟩
  · have hmem := h.parameters name s (mem_declared.mpr ⟨i, hi, hop⟩)
    obtain ⟨a, ha, -⟩ := checkParameters_eq_value hcheck hmem
    exact ⟨a, ha⟩
  · obtain ⟨k, hk', hserves⟩ := h.kernels i hi hp
    rw [hk] at hk'
    cases hk'
    exact not_serves_host hserves

theorem run_spares (hw : w.Spared) (hq : q.OnDevice id)
    (hcheck : checkParameters params q.parameters = .value ()) :
    (q.run params w).Spares Spared := by
  unfold run
  split
  · exact ⟨nofun, hw⟩
  · have hspares : (checkParameters params q.parameters).Spares := by
      rw [hcheck]
      exact trivial
    refine Action.spares_bind (Action.spares_ofOutcome hspares hw) fun _ w h => ?_
    cases q.output? with
    | none => exact ⟨nofun, h⟩
    | some output =>
      refine Action.spares_bind (Action.spares_lift _ h) fun last w₁ h₁ => ?_
      refine Action.spares_bind (runFrom_spares h₁ (hq.served hcheck)) fun values w₂ h₂ => ?_
      cases values.getD output none with
      | none => exact Action.spares_bind (releaseValues_spares h₂) fun _ _ h => ⟨nofun, h⟩
      | some a => exact Action.spares_bind (releaseValues_spares h₂) fun _ _ h => h

/-- A run that is refused for a parameter is refused by the check of its arguments, before it
comes to a device, in whatever world. -/
theorem run_refused_parameter (hw : w.Spared) (hq : q.OnDevice id)
    (h : q.run params w = .refused e w') (hkind : e.kind = .parameter) (u : World) :
    q.run params u = .refused e u := by
  cases hcheck : checkParameters params q.parameters with
  | value a =>
    have hends := run_spares hw hq hcheck
    rw [h] at hends
    exact absurd hkind hends.1
  | refused e' =>
    unfold run at h ⊢
    rw [hcheck] at h ⊢
    split at h
    · cases h
      cases hkind
    · next hcompiled =>
      cases h
      rw [if_neg hcompiled]
      rfl
  | halted =>
    unfold run at h
    rw [hcheck] at h
    split at h
    · cases h
      cases hkind
    · cases h

end Program
end TensorGraph
