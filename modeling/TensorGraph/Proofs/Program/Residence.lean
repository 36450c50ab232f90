/-
Evaluation on a device does not go wrong, as long as values stay there.

A launch is refused when one of its operands is on the host.  A compiled program feeds the device
with what starts on the host, but a value that the program itself brings back, and the views of
it, stay on the host; so an evaluation gives a value just when nothing is computed from those:
`staysOnDevice_of_run` is one direction, and `run_device_safe` the other with the shapes and the
places of what is read.
-/
import TensorGraph.Proofs.Program.Safety
import TensorGraph.Proofs.Program.Start
import TensorGraph.Proofs.Program.Parity
import TensorGraph.Proofs.Program.Values

namespace TensorGraph

/-! ## Where values are -/

namespace World

variable {w w' : World} {id : DeviceId} {a a' : Argument}

theorem location_of_operand {o : Operand} (h : operand a = .value o) :
    a.location = some .device := by
  unfold operand at h
  obtain ⟨st, hst, h⟩ := Outcome.bind_eq_value.mp h
  cases st with
  | device b =>
    unfold Argument.buffer at hst
    rw [Argument.location]
    cases hs : a.storage with
    | none =>
      rw [hs] at hst
      cases hst
    | some st =>
      rw [hs] at hst
      cases hst
      rfl
  | host b => cases h

end World

namespace Argument

theorem location_of_withShape {a a' : Argument} {s : Shape} (h : a.withShape s = .value a') :
    a'.location = a.location := by
  unfold withShape at h
  rw [location]
  cases hst : a.storage with
  | none =>
    rw [hst] at h
    cases h
    rw [location, hst]
    rfl
  | some st =>
    rw [hst] at h
    rw [shape_of_make h, location, hst]

end Argument

namespace Program

variable {p q : Program} {w w' : World} {params : Parameters} {is : List Instruction}
variable {i : Instruction} {k r : Nat} {a : Argument} {args : List Argument} {values values' : Values}
variable {id : DeviceId} {offload : Bool} {op : Operator} {s : Shape}

/-- A launch that goes through had all its operands on a device. -/
theorem location_of_launch (h : (BoundKernel.launch op id).compute s args w = .value a w') :
    ∀ b ∈ args, b.location = some .device := by
  obtain ⟨_, _, _, operands, _, -, -, -, hoperands, -⟩ := BoundKernel.launch_eq_value h
  intro b hb
  obtain ⟨_, -, ho⟩ := exists_of_mem_left hoperands hb
  exact World.location_of_operand ho

/-- Whether values that were brought back, and views of them, are on the host. -/
def BroughtBack (is : List Instruction) (values : Values) : Prop :=
  ∀ (r : Nat) (a : Argument), values[r]? = some (some a) → Fetched is r → a.location = some .host

/-- An instruction that gives a value computes nothing from values that were brought back, and
its own value is on the host if it is one of them. -/
theorem BroughtBack.instructionValue (h : BroughtBack q.instructions values)
    (hq : Ready (.device id offload) q) (hi : q.instructions[k]? = some i)
    (hvalue : instructionValue params k i values w = .value a w') :
    (i.op.isCompute = true → ∀ r ∈ i.inputs, ¬Fetched q.instructions r) ∧
      (Fetched q.instructions k → a.location = some .host) := by
  rw [fetched_iff hi]
  by_cases hp : i.isParameter = true
  · cases hop : i.op with
    | parameter name t => exact ⟨fun hc => (nomatch hc), by simp [Operator.isView]⟩
    | _ =>
      rw [Instruction.isParameter, hop] at hp
      cases hp
  rw [Bool.not_eq_true] at hp
  obtain ⟨c, hc, hserves⟩ := hq.kernels i (List.mem_of_getElem? hi) hp
  obtain ⟨args, hargs, hcompute⟩ := (instructionValue_eq_value hp hc).mp hvalue
  have hin := inputValues_eq_some hargs
  constructor
  · intro hcompute' r hr hfetched
    obtain rfl := eq_launch_of_serves hcompute' hserves
    obtain ⟨b, hb, hread⟩ := exists_of_mem_left hin hr
    have hhost := h _ _ hread hfetched
    have hdevice := location_of_launch hcompute _ hb
    rw [hhost] at hdevice
    cases hdevice
  · rintro (hop | ⟨hview, r, hr, hfetched⟩)
    · obtain rfl := eq_download_of_serves hop hserves
      cases args with
      | nil => cases hcompute
      | cons b args =>
        obtain ⟨_, rfl⟩ := World.toHost_eq_value hcompute
        rfl
    · obtain rfl := eq_view_of_serves hview hserves
      obtain ⟨shapes, hshapes, hinfers⟩ := hq.consistent.infers hi
      obtain ⟨t, rfl⟩ := exists_of_isView hinfers hview
      obtain ⟨r', _, hin', -⟩ := inputs_eq_singleton hshapes
      rw [hin'] at hin hr
      obtain rfl := List.mem_singleton.mp hr
      obtain _ | ⟨hb, _ | _⟩ := hin
      obtain ⟨b, _, hwith, hcompute⟩ := Action.bind_eq_value.mp hcompute
      obtain ⟨hwith, -⟩ := Action.ofOutcome_eq_value.mp hwith
      obtain ⟨_, _, -, hcompute⟩ := Action.bind_eq_value.mp hcompute
      cases hcompute
      rw [Argument.location_of_withShape hwith]
      exact h _ _ hb hfetched

/-! ## Runs that give a value -/

theorem BroughtBack.runStep {last : List (Option Nat)} {output : Nat}
    (h : BroughtBack q.instructions values) (hq : Ready (.device id offload) q)
    (hi : q.instructions[k]? = some i)
    (hvalue : runStep params last output k values i w = .value values' w') :
    (i.op.isCompute = true → ∀ r ∈ i.inputs, ¬Fetched q.instructions r) ∧
      BroughtBack q.instructions values' := by
  have hafter : BroughtBack q.instructions values' :=
    EveryAt.runStep (P := fun r a => Fetched q.instructions r → a.location = some .host) h
      (fun w a w' ha => (h.instructionValue hq hi ha).2) hvalue
  unfold Program.runStep at hvalue
  obtain ⟨a, _, ha, -⟩ := Action.bind_eq_value.mp hvalue
  exact ⟨(h.instructionValue hq hi (Action.onRefusal_eq_value.mp ha)).1, hafter⟩

/-- A run that gives a value computed nothing from values that were brought back. -/
theorem BroughtBack.runFrom {last : List (Option Nat)} {output : Nat}
    {done now rest : List Instruction} (h : BroughtBack q.instructions values)
    (hq : Ready (.device id offload) q) (his : q.instructions = done ++ now ++ rest)
    (hvalue : runFrom params last output done.length values now w = .value values' w') :
    ∀ i ∈ now, i.op.isCompute = true → ∀ r ∈ i.inputs, ¬Fetched q.instructions r := by
  induction now generalizing done values w with
  | nil => exact fun _ hi => nomatch hi
  | cons i now ih =>
    have hi : q.instructions[done.length]? = some i :=
      getElem?_of_split (his.trans (List.append_assoc ..))
    rw [runFrom_cons] at hvalue
    obtain ⟨values₁, _, hstep, hvalue⟩ := Action.bind_eq_value.mp hvalue
    obtain ⟨hreads, h₁⟩ := h.runStep hq hi hstep
    rw [List.append_cons] at his
    rw [List.forall_mem_cons]
    have hlen : (done ++ [i]).length = done.length + 1 := List.length_append
    rw [← hlen] at hvalue
    exact ⟨hreads, ih h₁ his hvalue⟩

theorem staysOnDevice_of_run (hq : Ready (.device id offload) q)
    (hvalue : q.run params w = .value a w') : StaysOnDevice q.instructions := by
  unfold run at hvalue
  rw [isCompiled, hq.target] at hvalue
  obtain ⟨_, _, -, hvalue⟩ := Action.bind_eq_value.mp hvalue
  cases houtput : q.output? with
  | none =>
    rw [houtput] at hvalue
    cases hvalue
  | some output =>
    rw [houtput] at hvalue
    obtain ⟨last, _, -, hvalue⟩ := Action.bind_eq_value.mp hvalue
    obtain ⟨values, _, hrun, -⟩ := Action.bind_eq_value.mp hvalue
    have hempty : BroughtBack q.instructions (List.replicate q.size none) :=
      fun r a ha => absurd ha (getElem?_replicate_none _ r a)
    have his : q.instructions = [] ++ q.instructions ++ [] := (List.append_nil _).symm
    exact hempty.runFrom hq his hrun

/-! ## Safety -/

variable {views : List View} {pins : List Resident} {fits : Prop} {next : Nat} {j : Instruction}

/-- What a computing operator reads is on the device of the program. -/
theorem Deployed.operand_ends (hD : Deployed fits id offload params views pins q)
    (hw : w.Loaded fits id next pins)
    (hroom : fits → next + (q.instructions.map Instruction.demand).sum ≤ Word.maxUnsigned)
    (hi : i ∈ q.instructions) (hc : i.op.isCompute = true) (hr : r ∈ i.inputs)
    (hj : q.instructions[r]? = some j) :
    (q.valueAt params r j w).Ends fits fun a _ =>
      ∃ b, a = ⟨j.shape, some (.device b)⟩ ∧ b.device = id := by
  have hne : i.op ≠ .hostToDevice := fun heq => by
    rw [heq] at hc
    cases hc
  obtain ⟨j', hj', hstarts⟩ := hD.not_startsOnHost hi hne r hr
  rw [hj] at hj'
  cases hj'
  refine ((backs_device hD).valueAt_ends hD.ready.consistent hj (deviceHolds_nil hw hroom)).mono ?_
  rintro a w₁ ⟨es, h⟩
  obtain ⟨j', v, hj', -, hlocated⟩ := h.located r a List.mem_cons_self
  rw [hj] at hj'
  cases hj'
  rcases hlocated with ⟨-, hstarts' | hfetched⟩ | ⟨b, rfl, hstarts' | ⟨-, hid⟩⟩
  · rw [hstarts] at hstarts'
    cases hstarts'
  · exact absurd hfetched (hD.stays i hi hc r hr)
  · rw [hstarts] at hstarts'
    cases hstarts'
  · exact ⟨b, rfl, hid⟩

/-- A program that keeps its values on the device is not refused. -/
theorem Ready.run_of_staysOnDevice {start : World} {d : Device}
    (hq : Ready (.device id offload) q) (hpins : Pinning q) (hfed : Fed q.instructions)
    (hstays : StaysOnDevice q.instructions) (hne : q.instructions ≠ [])
    (hdeclared : ∀ name s, (name, s) ∈ q.parameters → s.Populated)
    (hargs : ∀ name a, params.lookup name = some a → a.Valid)
    (hcheck : checkParameters params q.parameters = .value ()) (hstart : start.Healthy)
    (hd : start.devices[id]? = some d) (hunlimited : d.Unlimited)
    (hheld : (q.residents ++
      (arguments params q).filterMap Argument.deviceBuffer?).Subperm start.held) :
    ((q.run params start).Ends (Fits q.instructions ∧ Roomy d.next q.instructions) fun a _ =>
      q.last?.map Instruction.shape = some a.shape) ∧
    ∀ i ∈ q.instructions, i.op.isCompute = true → ∀ r ∈ i.inputs, ∃ j,
      q.instructions[r]? = some j ∧
        (q.valueAt params r j start).Ends (Fits q.instructions ∧ Roomy d.next q.instructions)
          fun a _ => ∃ b, a = ⟨j.shape, some (.device b)⟩ ∧ b.device = id := by
  obtain ⟨views, pins, hD, hloaded⟩ := hq.exists_deployed hpins hfed hstays hdeclared hargs hcheck
    hstart hd hunlimited hheld fun hf : Fits q.instructions ∧ Roomy d.next q.instructions => hf
  constructor
  · refine (hD.run_ends hne hcheck hloaded fun hf => hf.2.1).mono ?_
    rintro a _ ⟨i, v, hi, -, hlocated, -⟩
    rw [hi, hlocated.shape_eq]
    rfl
  · intro i hi hc r hr
    obtain ⟨j, hj, -⟩ := hfed i hi r hr
    exact ⟨j, hj, hD.operand_ends hloaded (fun hf => hf.2.1) hi hc hr hj⟩

/-- A program that was compiled for a device without limits gives a value just when nothing is
computed from values that it brings back to the host.  Then it is not refused whatever sizes are,
its output has the recorded shape, and computing operators read tensors of the device. -/
theorem run_device_safe {start : World} {d : Device} (hb : Built p) (hne : p.instructions ≠ [])
    (hp : ∀ i ∈ p.instructions, i.shape.Populated)
    (hcompile : p.compile (.device id offload) w = .value q w') (hstart : start.Healthy)
    (hd : start.devices[id]? = some d) (hunlimited : d.Unlimited)
    (hargs : ∀ name a, params.lookup name = some a → a.Valid)
    (hcheck : checkParameters params q.parameters = .value ())
    (hheld : (q.residents ++
      (arguments params q).filterMap Argument.deviceBuffer?).Subperm start.held) :
    (Fits q.instructions ∧ Roomy d.next q.instructions →
      ((∃ a stop, q.run params start = .value a stop) ↔ StaysOnDevice q.instructions)) ∧
    (StaysOnDevice q.instructions →
      ((q.run params start).Ends (Fits q.instructions ∧ Roomy d.next q.instructions) fun a _ =>
        p.last?.map Instruction.shape = some a.shape) ∧
      ∀ i ∈ q.instructions, i.op.isCompute = true → ∀ r ∈ i.inputs, ∃ j,
        q.instructions[r]? = some j ∧
          (q.valueAt params r j start).Ends (Fits q.instructions ∧ Roomy d.next q.instructions)
            fun a _ => ∃ b, a = ⟨j.shape, some (.device b)⟩ ∧ b.device = id) := by
  obtain ⟨hready, hparams, hshape, -⟩ :=
    ready_of_compile hb hp (Or.inr ⟨id, offload, rfl⟩) hcompile
  have hpins := pinning_of_compile hb (Or.inr ⟨id, offload, rfl⟩) hcompile
  obtain ⟨hfed, -⟩ := fed_of_compile hb hcompile
  have hdeclared : ∀ name s, (name, s) ∈ q.parameters → s.Populated := fun name s hmem =>
    hb.unbound.wellFormed.populated hp (hparams ▸ hmem)
  have hne' : q.instructions ≠ [] := by
    intro hnil
    rw [last?, last?, hnil, List.getLast?_nil, Option.map_none, eq_comm, Option.map_eq_none_iff,
      List.getLast?_eq_none_iff] at hshape
    exact hne hshape
  rw [← hshape]
  have hsafe := fun hstays => hready.run_of_staysOnDevice hpins hfed hstays hne' hdeclared hargs
    hcheck hstart hd hunlimited hheld
  refine ⟨fun hfits => ⟨?_, fun hstays => ?_⟩, hsafe⟩
  · rintro ⟨a, stop, hvalue⟩
    exact staysOnDevice_of_run hready hvalue
  · obtain ⟨a, stop, hvalue, -⟩ := (hsafe hstays).1.exists_value_of_fits hfits
    exact ⟨a, stop, hvalue⟩

/-- A matrix that is brought back and moved to the device again before it is added to itself. -/
def movedAgain : Program where
  instructions :=
    [{ op := .parameter "x" matrix, inputs := [], shape := matrix },
     { op := .deviceToHost, inputs := [0], shape := matrix },
     { op := .hostToDevice, inputs := [1], shape := matrix },
     { op := .add, inputs := [2, 2], shape := matrix }]
  parameters := [("x", matrix)]

theorem built_movedAgain : Built movedAgain := by
  have hx : addParameter "x" matrix {} = .value 0
      { instructions := movedAgain.instructions.take 1, parameters := [("x", matrix)] } := rfl
  have hback : addInstruction .deviceToHost [0]
      { instructions := movedAgain.instructions.take 1, parameters := [("x", matrix)] } =
        .value 1 { instructions := movedAgain.instructions.take 2,
                   parameters := [("x", matrix)] } := rfl
  have hagain : addInstruction .hostToDevice [1]
      { instructions := movedAgain.instructions.take 2, parameters := [("x", matrix)] } =
        .value 2 { instructions := movedAgain.instructions.take 3,
                   parameters := [("x", matrix)] } := rfl
  have hadd : addInstruction .add [2, 2]
      { instructions := movedAgain.instructions.take 3, parameters := [("x", matrix)] } =
        .value 3 movedAgain := rfl
  have hplain : ∀ op, op = Operator.deviceToHost ∨ op = .hostToDevice ∨ op = .add →
      ∀ l, op = .literal l → l.Made := by
    rintro _ (rfl | rfl | rfl) _ h <;> cases h
  exact .instruction (.instruction (.instruction (.parameter .empty hx) (hplain _ (.inl rfl)) hback)
    (hplain _ (.inr (.inl rfl))) hagain) (hplain _ (.inr (.inr rfl))) hadd

theorem run_device_safe_movedAgain : ∃ q w, movedAgain.compile (.device 0 true)
      { devices := [{}] } = .value q w ∧ StaysOnDevice q.instructions ∧
    (∃ a stop, q.run [("x", oneToSix)] { devices := [{}] } = .value a stop ∧ a.shape = matrix) ∧
    ∀ i ∈ q.instructions, i.op.isCompute = true → ∀ r ∈ i.inputs, ∃ j a stop,
      q.instructions[r]? = some j ∧
        q.valueAt [("x", oneToSix)] r j { devices := [{}] } = .value a stop ∧
          a.location = some .device := by
  obtain ⟨q, w, hq, htest⟩ := Turn.exists_of_passes
    (show (movedAgain.compile (.device 0 true) { devices := [{}] }).passes (fun q _ =>
      decide (q.parameters = [("x", matrix)] ∧ q.residents = [] ∧ Roomy 4096 q.instructions) &&
      q.instructions.all fitsAlone &&
      (q.run [("x", oneToSix)] { devices := [{}] }).passes fun _ _ => true) = true
      by decide +kernel)
  rw [Bool.and_eq_true, Bool.and_eq_true, decide_eq_true_iff] at htest
  obtain ⟨⟨⟨hparams, hresidents, hroomy⟩, hfits⟩, hrun⟩ := htest
  obtain ⟨a, stop, hvalue, -⟩ := Turn.exists_of_passes hrun
  have hpopulated : ∀ i ∈ movedAgain.instructions, i.shape.Populated := by
    unfold Shape.Populated
    decide
  have hstart : World.Healthy { devices := [{}] } := by
    refine ⟨fun d hd => ?_, fun _ hb => nomatch hb⟩
    rw [List.mem_singleton.mp hd]
    exact healthy_empty
  have hheld : (q.residents ++ (arguments [("x", oneToSix)] q).filterMap
      Argument.deviceBuffer?).Subperm ([] : List DeviceBuffer) := by
    rw [hresidents, arguments, hparams]
    exact List.Subperm.refl _
  obtain ⟨hiff, hsafe⟩ := run_device_safe built_movedAgain (List.cons_ne_nil _ _) hpopulated hq
    hstart rfl ⟨rfl, rfl⟩ (fun name a ha => (hostParameters_oneToSix name a ha).valid)
    (by rw [hparams]; rfl) hheld
  have hroom : Fits q.instructions ∧ Roomy 4096 q.instructions := ⟨fits_of_all hfits, hroomy⟩
  have hstays := (hiff hroom).mp ⟨a, stop, hvalue⟩
  obtain ⟨hends, hoperands⟩ := hsafe hstays
  have hshape := hends.of_value hvalue
  refine ⟨q, w, hq, hstays, ⟨a, stop, hvalue, (Option.some.inj hshape).symm⟩, ?_⟩
  intro i hi hc r hr
  obtain ⟨j, hj, hoperand⟩ := hoperands i hi hc r hr
  obtain ⟨b, stop', hvalue', buffer, rfl, -⟩ := hoperand.exists_value_of_fits hroom
  exact ⟨j, _, stop', hj, hvalue', rfl⟩

def broughtBack : Program where
  instructions :=
    [{ op := .parameter "x" matrix, inputs := [], shape := matrix },
     { op := .deviceToHost, inputs := [0], shape := matrix },
     { op := .add, inputs := [1, 1], shape := matrix }]
  parameters := [("x", matrix)]

theorem built_broughtBack : Built broughtBack := by
  have hx : addParameter "x" matrix {} = .value 0
      { instructions := broughtBack.instructions.take 1, parameters := [("x", matrix)] } := rfl
  have hback : addInstruction .deviceToHost [0]
      { instructions := broughtBack.instructions.take 1, parameters := [("x", matrix)] } =
        .value 1 { instructions := broughtBack.instructions.take 2,
                   parameters := [("x", matrix)] } := rfl
  have hadd : addInstruction .add [1, 1]
      { instructions := broughtBack.instructions.take 2, parameters := [("x", matrix)] } =
        .value 2 broughtBack := rfl
  have hplain : ∀ op, op = Operator.deviceToHost ∨ op = .add → ∀ l, op = .literal l → l.Made := by
    rintro _ (rfl | rfl) _ h <;> cases h
  exact .instruction (.instruction (.parameter .empty hx) (hplain _ (.inl rfl)) hback)
    (hplain _ (.inr rfl)) hadd

/-- What is brought back is no operand of a launch, although the program compiles. -/
theorem run_device_broughtBack : Built broughtBack ∧
    (∀ i ∈ broughtBack.instructions, i.shape.Populated) ∧
    ∃ q w w', broughtBack.compile (.device 0 false) { devices := [{}] } = .value q w ∧
      checkParameters [("x", oneToSix)] q.parameters = .value () ∧
      q.run [("x", oneToSix)] w = .refused (.storage (.operandNotOnDevice oneToSix.text)) w' := by
  have hpopulated : ∀ i ∈ broughtBack.instructions, i.shape.Populated := by
    unfold Shape.Populated
    decide
  obtain ⟨q, w, hq, htest⟩ := Turn.exists_of_passes
    (show (broughtBack.compile (.device 0 false) { devices := [{}] }).passes (fun q w =>
      decide (q.parameters = [("x", matrix)]) && (q.run [("x", oneToSix)] w).refusedWith
        (.storage (.operandNotOnDevice oneToSix.text))) = true by decide +kernel)
  rw [Bool.and_eq_true, decide_eq_true_iff] at htest
  obtain ⟨w', hrefused⟩ := Turn.exists_of_refusedWith htest.2
  exact ⟨built_broughtBack, hpopulated, q, w, w', hq, by rw [htest.1]; rfl, hrefused⟩

end Program
end TensorGraph
