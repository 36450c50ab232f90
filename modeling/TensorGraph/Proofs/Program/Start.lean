/-
How an evaluation on a device starts.

Constants, and arguments that are on devices, are there before the first instruction runs, and
mean what can be read in their buffers.  `Ready.exists_deployed` collects what they mean and what
the other instructions make of it, whatever devices the arguments are on.  It needs that no device
has a failure pending, and that what the program and the arguments hold is allocated.
-/
import TensorGraph.Proofs.Program.Bind

namespace TensorGraph

/-! ## What is held -/

namespace Argument

/-- Whether the argument is a shape over some storage as `make` puts it there, or absent. -/
def Valid (a : Argument) : Prop := ∀ st, a.storage = some st → make a.shape st = .value a

theorem valid_of_make {s : Shape} {st : Storage} {a : Argument} (h : make s st = .value a) :
    a.Valid := by
  obtain rfl := shape_of_make h
  intro st' hst
  cases hst
  exact h

theorem Valid.roomy {s : Shape} {b : DeviceBuffer} (h : Valid ⟨s, some (.device b)⟩)
    (hp : s.Populated) (v : View) : Resident.Roomy ⟨b, s, v⟩ := by
  have hmake := h _ rfl
  unfold make at hmake
  obtain ⟨n, hn, hmake⟩ := Outcome.bind_eq_value.mp hmake
  obtain ⟨_, hsize, -⟩ := Outcome.bind_eq_value.mp hmake
  have hn' := ((Shape.storageBytes_eq_some hp).mp (Outcome.ofOption_eq_value.mp hn)).1
  have hle : n ≤ b.size := Outcome.require_eq_value.mp hsize
  show s.space * s.dtype.size ≤ b.size
  omega

theorem Valid.onHost {s : Shape} {b : HostBuffer} (h : Valid ⟨s, some (.host b)⟩) :
    OnHost ⟨s, some (.host b)⟩ := ⟨b, rfl, h _ rfl⟩

theorem OnHost.valid {a : Argument} (h : a.OnHost) : a.Valid := by
  obtain ⟨b, hb, hmake⟩ := h
  exact valid_of_make hmake

theorem OnHost.deviceBuffer?_eq_none {a : Argument} (h : a.OnHost) : a.deviceBuffer? = none := by
  obtain ⟨b, hb, -⟩ := h
  rw [deviceBuffer?, hb]
  rfl

end Argument

def Device.settled (d : Device) : Memory := ((d.memory.runAll d.queue).map Prod.fst).getD []

namespace World

variable {w : World} {id : DeviceId} {d : Device} {F : Prop} {rs : List Resident}
variable {as : List Argument} {a : Argument} {b : DeviceBuffer}

/-- Whether no device has a failure pending, and all that is held is allocated. -/
structure Healthy (w : World) : Prop where
  devices : ∀ d ∈ w.devices, d.Healthy
  allocated : ∀ b ∈ w.held, ∃ d, w.devices[b.device]? = some d ∧
    (d.memory.find? b.address).map Array.size = some b.size

def read (w : World) (b : DeviceBuffer) : Bytes :=
  (w.devices[b.device]?.bind fun d => d.settled.find? b.address).getD #[]

/-- What a device buffer holds for an argument, as the tensor that can be read there. -/
def resident? (w : World) (a : Argument) : Option Resident :=
  a.deviceBuffer?.map fun b => ⟨b, a.shape, View.ofBytes a.shape a.shape.dtype.size (w.read b)⟩

def tensor? (w : World) (a : Argument) : Option View :=
  match w.resident? a with
  | some r => some r.tensor
  | none => a.tensor?

theorem map_buffer_residents (w : World) (as : List Argument) :
    (as.filterMap w.resident?).map Resident.buffer = as.filterMap Argument.deviceBuffer? := by
  rw [List.map_filterMap]
  refine List.filterMap_congr fun a _ => ?_
  unfold resident?
  rw [Option.map_map]
  exact Option.map_id'

theorem exists_of_mem_residents {r : Resident} (hr : r ∈ as.filterMap w.resident?) :
    ∃ s b, (⟨s, some (.device b)⟩ : Argument) ∈ as ∧
      r = ⟨b, s, View.ofBytes s s.dtype.size (w.read b)⟩ := by
  obtain ⟨⟨s, st⟩, ha, hmap⟩ := List.mem_filterMap.mp hr
  obtain ⟨b, hb, rfl⟩ := Option.map_eq_some_iff.mp hmap
  obtain _ | (_ | b) := st
  · cases hb
  · cases hb
  · cases hb
    exact ⟨s, b, ha, rfl⟩

theorem keeps_read {r : Resident} (hd : w.devices[r.buffer.device]? = some d) (h : d.Healthy)
    (hsize : (d.memory.find? r.buffer.address).map Array.size = some r.buffer.size)
    (hr : r.tensor = View.ofBytes r.shape r.shape.dtype.size (w.read r.buffer)) :
    d.settled.Keeps r := by
  obtain ⟨m, hrun⟩ := h.settles
  have hsettled : d.settled = m := by
    rw [Device.settled, hrun]
    rfl
  rw [← Memory.sameSizes_of_runAll hrun, ← hsettled] at hsize
  obtain ⟨bytes, hfind, hbytes⟩ := Option.map_eq_some_iff.mp hsize
  refine ⟨bytes, hfind, hbytes, ?_⟩
  rw [hr, read, hd, Option.bind_some, hfind]
  exact .refl _

theorem Healthy.loaded (h : w.Healthy) (hd : w.devices[id]? = some d) (hunlimited : d.Unlimited)
    (hheld : (as.filterMap Argument.deviceBuffer?).Subperm w.held) (hvalid : ∀ a ∈ as, a.Valid)
    (hp : ∀ a ∈ as, a.shape.Populated) :
    Loaded F id d.next w (as.filterMap w.resident?) := by
  have hresident : ∀ r ∈ as.filterMap w.resident?, r.Roomy ∧ r.buffer ∈ w.held ∧
      r.tensor = View.ofBytes r.shape r.shape.dtype.size (w.read r.buffer) := by
    intro r hr
    obtain ⟨s, b, ha, rfl⟩ := exists_of_mem_residents hr
    exact ⟨(hvalid _ ha).roomy (hp _ ha) _,
      hheld.subset (List.mem_filterMap.mpr ⟨_, ha, rfl⟩), rfl⟩
  refine ⟨fun i hi => ?_, fun b => ?_⟩
  · obtain ⟨e, he, hid⟩ : ∃ e, w.devices[i]? = some e ∧ (i = id → e = d) := by
      rcases hi with rfl | ⟨r, hr, rfl⟩
      · exact ⟨d, hd, fun _ => rfl⟩
      · obtain ⟨e, he, -⟩ := h.allocated _ (hresident r hr).2.1
        refine ⟨e, he, fun heq => ?_⟩
        rw [heq, hd] at he
        exact (Option.some.inj he).symm
    have hhealthy := h.devices e (List.mem_of_getElem? he)
    obtain ⟨m, hrun⟩ := hhealthy.settles
    have hsizes : ∀ r ∈ on i (as.filterMap w.resident?),
        (e.memory.find? r.buffer.address).map Array.size = some r.buffer.size := by
      intro r hr
      obtain ⟨hmem, rfl⟩ := mem_on.mp hr
      obtain ⟨e', he', hsize⟩ := h.allocated _ (hresident r hmem).2.1
      rw [he] at he'
      cases he'
      exact hsize
    refine ⟨e, he, fun heq => by rw [hid heq], hhealthy.holds hrun (fun heq => hid heq ▸ hunlimited)
      (fun r hr => (hresident r (mem_on.mp hr).1).1) hsizes fun r hr => ?_⟩
    obtain ⟨hmem, rfl⟩ := mem_on.mp hr
    have hkeeps := keeps_read he hhealthy (hsizes r hr) (hresident r hmem).2.2
    rwa [Device.settled, hrun] at hkeeps
  · rw [map_buffer_residents]
    exact hheld.count_le b

/-! ## Constants -/

theorem valid_of_toDevice {a' : Argument} {w' : World} (h : toDevice id a w = .value a' w') :
    a'.Valid := by
  have hsend : ∀ {a : Argument} {w : World}, sendHost id a w = .value a' w' → a'.Valid := by
    intro a w h
    unfold sendHost uploadAs at h
    obtain ⟨_, _, _, h⟩ := Action.bind_eq_value.mp h
    obtain ⟨_, _, _, h⟩ := Action.bind_eq_value.mp h
    exact Argument.valid_of_make (Action.ofOutcome_eq_value.mp (Action.onRefusal_eq_value.mp h)).1
  unfold toDevice at h
  split at h
  · obtain ⟨_, _, _, h⟩ := Action.bind_eq_value.mp h
    exact hsend h
  · exact hsend h

end World

def BoundKernel.constant? : BoundKernel → Option Argument
  | resident a => some a
  | _ => none

namespace Program

variable {p q : Program} {t : Target} {w w' : World} {a : Argument}

/-- A tensor that a kernel holds was put there by a transfer. -/
theorem valid_of_bind {position : Nat} (h : t.bind p position w = .value (.resident a) w') :
    a.Valid := by
  unfold Target.bind at h
  obtain ⟨i, w₁, -, h⟩ := Action.bind_eq_value.mp h
  revert h
  cases t.backend with
  | host refused =>
    intro h
    dsimp only at h
    split at h
    · cases h
    · obtain ⟨h, -⟩ := Action.ofOutcome_eq_value.mp h
      unfold Backend.bindHost at h
      split at h <;> cases h
  | device id =>
    intro h
    unfold Backend.bindDevice at h
    obtain ⟨op, inputs, s, kernel⟩ := i
    cases op with
    | literal | deviceToHost | reshape | transpose => cases h
    | hostToDevice =>
      dsimp only at h
      cases inputs with
      | nil => cases h
      | cons r rest =>
        dsimp only at h
        obtain ⟨j, _, -, h⟩ := Action.bind_eq_value.mp h
        revert h
        cases j.op with
        | literal l =>
          intro h
          obtain ⟨a', _, ha, hvalue⟩ := Action.bind_eq_value.mp h
          cases hvalue
          exact World.valid_of_toDevice ha
        | _ => exact fun h => nomatch h
    | _ =>
      obtain ⟨w₂, _, -, h⟩ := Action.bind_eq_value.mp h
      revert h
      cases w₂.devices[id]? with
      | none => exact fun h => nomatch h
      | some d =>
        intro h
        dsimp only at h
        split at h <;> cases h

/-- All kernels were bound, if there were none before. -/
theorem bindAll_forall {P : BoundKernel → Prop} {positions : List Nat}
    (hP : ∀ (p : Program) position c w w', t.bind p position w = .value c w' → P c)
    (hp : ∀ i ∈ p.instructions, ∀ c, i.kernel = some c → P c)
    (h : bindAll t p positions w = .value q w') :
    ∀ i ∈ q.instructions, ∀ c, i.kernel = some c → P c := by
  induction positions generalizing p w with
  | nil =>
    cases h
    exact hp
  | cons position rest ih =>
    unfold bindAll at h
    obtain ⟨i, w₁, hget, h⟩ := Action.bind_eq_value.mp h
    have hi := eq_of_get (Action.ofOutcome_eq_value.mp hget).1
    split at h
    · exact ih hp h
    · obtain ⟨c, w₂, hbind, h⟩ := Action.bind_eq_value.mp h
      refine ih (fun j hj c' hc' => ?_) h
      rw [instructions_setKernel hi] at hj
      rcases List.mem_or_eq_of_mem_set hj with hj | rfl
      · exact hp j hj c' hc'
      · cases hc'
        exact hP p position c _ _ (Action.onRefusal_eq_value.mp hbind)

theorem valid_of_compile (hp : Sound p) (hs : t.Stock) (h : p.compile t w = .value q w') :
    ∀ i ∈ q.instructions, ∀ a, i.kernel = some (.resident a) → a.Valid := by
  have hopen := (compile_eq_value h).1
  unfold compile at h
  rw [hopen] at h
  dsimp only at h
  obtain ⟨lowered, w₁, hlower, h⟩ := Action.bind_eq_value.mp h
  obtain ⟨bound, w₂, hbind, h⟩ := Action.bind_eq_value.mp h
  obtain ⟨_, w₃, _, h⟩ := Action.bind_eq_value.mp h
  cases h
  obtain ⟨copies, hlow, -⟩ := lowered_of_stock hs hp.wellFormed.consistent hopen
    (lower_eq_value hlower)
  have hnone := hlow.refines.kernels (hp.unbound hopen)
  intro i hi a ha
  refine bindAll_forall (P := fun c => ∀ a, c = .resident a → a.Valid) ?_ ?_ hbind i hi _ ha a rfl
  · rintro p position _ w w' hvalue a rfl
    exact valid_of_bind hvalue
  · intro j hj c hc
    rw [hnone j hj] at hc
    cases hc

/-! ## Meanings -/

variable {params : Parameters} {is : List Instruction} {i : Instruction} {id : DeviceId}
variable {d : Device} {offload : Bool} {fits : Prop} {views : List View} {next : Nat}

/-- The tensor of an instruction that computes nothing: an argument, or a constant that is on a
device. -/
def given? (params : Parameters) (w : World) (i : Instruction) : Option View :=
  match i.op with
  | .parameter name _ => params.lookup name >>= w.tensor?
  | _ => i.kernel.bind BoundKernel.constant? >>= w.tensor?

/-- Tensors for some instructions, those of the parameters among them, give tensors for all. -/
theorem Consistent.exists_views {given : Instruction → Option View} (hc : Consistent is)
    (hlens : ∀ i ∈ is, ∀ v, given i = some v → v.lens = i.shape.lens)
    (hparam : ∀ i ∈ is, i.isParameter = true → given i ≠ none) :
    ∃ views, Recorded is views ∧ ∀ (k : Nat) (i : Instruction) v, is[k]? = some i →
      views[k]? = some v → given i = some v ∨ given i = none ∧
        ∃ inputs, (i.inputs.mapM fun r => views[r]?) = some inputs ∧
          i.op.denote i.shape inputs = some v := by
  induction is using List.reverseRecOn with
  | nil => exact ⟨[], .nil, fun _ _ _ hi => nomatch hi⟩
  | append_singleton is i ih =>
    obtain ⟨hc', shapes, hshapes, hinfer⟩ := consistent_concat.mp hc
    rw [List.forall_mem_append, List.forall_mem_singleton] at hlens hparam
    obtain ⟨ws, hrec, hmeans⟩ := ih hc' hlens.1 hparam.1
    obtain ⟨inputs, hinputs, hshaped⟩ := hrec.shaped hshapes
    obtain ⟨v, hl, hv⟩ : ∃ v, v.lens = i.shape.lens ∧ (given i = some v ∨
        given i = none ∧ i.op.denote i.shape inputs = some v) := by
      rcases hg : given i with _ | v
      · have hp : i.op.isParameter = false :=
          Bool.eq_false_iff.mpr fun htrue => hparam.2 htrue hg
        obtain ⟨v, hv, hl⟩ := Operator.exists_denote (Operator.infers_of_infer hinfer) hp hshaped
        exact ⟨v, hl, Or.inr ⟨rfl, hv⟩⟩
      · exact ⟨v, hlens.2 v hg, Or.inl rfl⟩
    have hgrow : ∀ {rs : List Nat} {us : List View}, (rs.mapM fun r => ws[r]?) = some us →
        (rs.mapM fun r => (ws ++ [v])[r]?) = some us := by
      intro rs us hus
      rw [mapM_eq_some] at hus ⊢
      exact hus.imp fun r u hu => getElem?_append_of_some hu [v]
    refine ⟨ws ++ [v], List.rel_append hrec (.cons hl .nil), fun k j u hj hu => ?_⟩
    rcases getElem?_concat_eq hj with hj | ⟨rfl, rfl⟩
    · have hlt : k < ws.length := hrec.length_eq ▸ (List.getElem?_eq_some_iff.mp hj).1
      rw [List.getElem?_append_left hlt] at hu
      exact (hmeans k j u hj hu).imp_right fun ⟨hg, us, hus, hd⟩ => ⟨hg, us, hgrow hus, hd⟩
    · rw [hrec.length_eq, List.getElem?_concat_length] at hu
      cases hu
      exact hv.imp_right fun ⟨hg, hd⟩ => ⟨hg, inputs, hgrow hinputs, hd⟩

/-! ## Programs that were compiled for a device -/

def constants (q : Program) : List Argument :=
  q.instructions.filterMap fun i => i.kernel.bind BoundKernel.constant?

def arguments (params : Parameters) (q : Program) : List Argument :=
  q.parameters.filterMap fun e => params.lookup e.1

theorem filterMap_constants (q : Program) :
    q.constants.filterMap Argument.deviceBuffer? = q.residents := by
  rw [constants, residents, List.filterMap_filterMap]
  refine List.filterMap_congr fun i _ => ?_
  obtain _ | c := i.kernel
  · rfl
  · cases c <;> rfl

theorem kernel_of_constant (h : i.kernel.bind BoundKernel.constant? = some a) :
    i.kernel = some (.resident a) := by
  obtain ⟨c, hc, hconstant⟩ := Option.bind_eq_some_iff.mp h
  rw [hc]
  cases c with
  | resident a' =>
    cases hconstant
    rfl
  | _ => cases hconstant

structure Pinning (q : Program) : Prop where
  valid : ∀ i ∈ q.instructions, ∀ a, i.kernel = some (.resident a) → a.Valid
  vacant : ∀ i ∈ q.instructions, i.isParameter = true → i.kernel = none

theorem Pinning.not_isParameter (h : Pinning q) (hi : i ∈ q.instructions)
    (hk : i.kernel ≠ none) : i.isParameter = false :=
  Bool.eq_false_iff.mpr fun hp => hk (h.vacant i hi hp)

theorem pinning_of_compile (hb : Built p) (hs : t.Stock) (h : p.compile t w = .value q w') :
    Pinning q := by
  refine ⟨valid_of_compile hb.reached.sound hs h, fun i hi hp => ?_⟩
  obtain ⟨hwell, hopen, hfree, -⟩ := hb.unbound
  obtain ⟨-, -, lowered, hlower, hrebound⟩ := compile_eq_value h
  obtain ⟨copies, hlow, -⟩ := lowered_of_stock hs hwell.consistent hopen hlower
  obtain ⟨k, hk⟩ := List.mem_iff_getElem?.mp hi
  have hlt : k < lowered.instructions.length :=
    hrebound.length ▸ (List.getElem?_eq_some_iff.mp hk).1
  obtain ⟨kernel, hq, -, hkeep⟩ := hrebound.bound k _ (List.getElem?_eq_getElem hlt)
  rw [show q.instructions[k]? = _ from hq] at hk
  cases hk
  exact (hkeep (Or.inr hp)).trans (hlow.refines.kernels hfree _ (List.getElem_mem hlt))

/-- The tensor that a kernel holds is that of a transfer to the device. -/
theorem Ready.constant (hq : Ready (.device id offload) q) (hpins : Pinning q)
    (hi : i ∈ q.instructions) (hk : i.kernel = some (.resident a)) :
    ∃ b, i.op = .hostToDevice ∧ a = ⟨i.shape, some (.device b)⟩ := by
  have hp := hpins.not_isParameter hi (hk ▸ Option.some_ne_none _)
  obtain ⟨c, hc, hserves⟩ := hq.kernels i hi hp
  rw [hk] at hc
  cases hc
  obtain ⟨k, hget⟩ := List.mem_iff_getElem?.mp hi
  cases assigned_of_serves hq.consistent hget hp hserves with
  | @resident _ _ _ b hop => exact ⟨b, hop, rfl⟩

theorem given?_of_parameter {name : String} {s : Shape} (hop : i.op = .parameter name s) :
    given? params w i = params.lookup name >>= w.tensor? := by
  unfold given?
  rw [hop]

theorem given?_of_not_isParameter (hp : i.isParameter = false) :
    given? params w i = i.kernel.bind BoundKernel.constant? >>= w.tensor? := by
  obtain ⟨op, inputs, s, kernel⟩ := i
  cases op with
  | parameter => cases hp
  | _ => rfl

theorem given?_eq_none (hp : i.isParameter = false) (hk : ∀ a, i.kernel ≠ some (.resident a)) :
    given? params w i = none := by
  rw [given?_of_not_isParameter hp]
  cases hkernel : i.kernel with
  | none => rfl
  | some c =>
    cases c with
    | resident a => exact absurd hkernel (hk a)
    | _ => rfl

/-- The argument of a parameter stores the tensor on the host, or has it on a device. -/
theorem Ready.exists_given (hq : Ready t q)
    (hargs : ∀ name a, params.lookup name = some a → a.Valid)
    (hcheck : checkParameters params q.parameters = .value ()) (hi : i ∈ q.instructions)
    {name : String} {s : Shape} (hop : i.op = .parameter name s) :
    ∃ a v, params.lookup name = some a ∧ i.shape = s ∧ given? params w i = some v ∧
      v.lens = s.lens ∧ (a.Stores s v ∨ ∃ b, a = ⟨s, some (.device b)⟩ ∧
        ⟨b, s, v⟩ ∈ (arguments params q).filterMap w.resident?) := by
  have hmem : (name, s) ∈ q.parameters := hq.parameters name s (mem_declared.mpr ⟨i, hi, hop⟩)
  obtain ⟨a, ha, rfl, hpresent⟩ := checkParameters_eq_value hcheck hmem
  obtain ⟨k, hk⟩ := List.mem_iff_getElem?.mp hi
  obtain ⟨shapes, -, hinfers⟩ := hq.consistent.infers hk
  have hpop := hq.populated i hi
  have hshape : i.shape = a.shape := hinfers.shape_of_parameter hop
  rw [hshape] at hpop
  have harg : a ∈ arguments params q := List.mem_filterMap.mpr ⟨_, hmem, ha⟩
  rw [given?_of_parameter hop, ha, Option.bind_eq_bind, Option.bind_some]
  obtain ⟨u, st⟩ := a
  obtain _ | (b | b) := st
  · cases hpresent
  · obtain ⟨v, hv, hstores⟩ := (hargs name _ ha).onHost.stores hpop
    exact ⟨_, v, rfl, hshape, hv, lens_of_stores hstores, Or.inl hstores⟩
  · exact ⟨_, _, rfl, hshape, rfl, rfl, Or.inr ⟨b, rfl, List.mem_filterMap.mpr ⟨_, harg, rfl⟩⟩⟩

theorem Ready.given?_of_constant (hq : Ready (.device id offload) q) (hpins : Pinning q)
    (hi : i ∈ q.instructions) (hk : i.kernel = some (.resident a)) :
    ∃ b, a = ⟨i.shape, some (.device b)⟩ ∧ given? params w i =
      some (View.ofBytes i.shape i.shape.dtype.size (w.read b)) := by
  obtain ⟨b, hop, rfl⟩ := hq.constant hpins hi hk
  refine ⟨b, rfl, ?_⟩
  rw [given?_of_not_isParameter (congrArg Operator.isParameter hop), hk]
  rfl

theorem Ready.lens_of_given (hq : Ready (.device id offload) q) (hpins : Pinning q)
    (hargs : ∀ name a, params.lookup name = some a → a.Valid)
    (hcheck : checkParameters params q.parameters = .value ()) (hi : i ∈ q.instructions) {v : View}
    (hv : given? params w i = some v) : v.lens = i.shape.lens := by
  by_cases hp : i.isParameter = true
  · obtain ⟨name, s, hop⟩ := exists_parameter hp
    obtain ⟨_, v', -, hshape, hv', hlens, -⟩ := hq.exists_given (w := w) hargs hcheck hi hop
    rw [hv] at hv'
    cases hv'
    rw [hshape]
    exact hlens
  · rw [Bool.not_eq_true] at hp
    by_cases hk : ∃ a, i.kernel = some (.resident a)
    · obtain ⟨a, hk⟩ := hk
      obtain ⟨b, -, hv'⟩ := hq.given?_of_constant hpins hi hk
      rw [hv'] at hv
      cases hv
      rfl
    · rw [given?_eq_none hp fun a ha => hk ⟨a, ha⟩] at hv
      cases hv

/-- What is there before the first instruction runs. -/
theorem Ready.standing (hq : Ready (.device id offload) q) (hpins : Pinning q)
    (hdeclared : ∀ name s, (name, s) ∈ q.parameters → s.Populated)
    (hargs : ∀ name a, params.lookup name = some a → a.Valid)
    (hcheck : checkParameters params q.parameters = .value ()) :
    ∀ a ∈ q.constants ++ arguments params q, a.Valid ∧ a.shape.Populated := by
  rw [List.forall_mem_append]
  constructor
  · intro a ha
    obtain ⟨i, hi, hk⟩ := List.mem_filterMap.mp ha
    have hkernel := kernel_of_constant hk
    refine ⟨hpins.valid i hi a hkernel, ?_⟩
    obtain ⟨b, -, rfl⟩ := hq.constant hpins hi hkernel
    exact hq.populated i hi
  · intro a ha
    obtain ⟨⟨name, s⟩, he, ha⟩ := List.mem_filterMap.mp ha
    obtain ⟨a', ha', rfl, -⟩ := checkParameters_eq_value hcheck he
    rw [show params.lookup name = some a from ha] at ha'
    cases ha'
    exact ⟨hargs name a ha, hdeclared name a.shape he⟩

/-- An evaluation starts with all constants and arguments in place, wherever they are. -/
theorem Ready.exists_deployed (hq : Ready (.device id offload) q) (hpins : Pinning q)
    (hfed : Fed q.instructions) (hstays : StaysOnDevice q.instructions)
    (hdeclared : ∀ name s, (name, s) ∈ q.parameters → s.Populated)
    (hargs : ∀ name a, params.lookup name = some a → a.Valid)
    (hcheck : checkParameters params q.parameters = .value ()) (hw : w.Healthy)
    (hd : w.devices[id]? = some d) (hunlimited : d.Unlimited)
    (hheld : (q.residents ++ (arguments params q).filterMap Argument.deviceBuffer?).Subperm w.held)
    (hroom : fits → Fits q.instructions ∧ Roomy next q.instructions) :
    ∃ views pins, Deployed fits id offload params views pins q ∧
      w.Loaded fits id d.next pins := by
  obtain ⟨views, hrecorded, hmeans⟩ := hq.consistent.exists_views
    (fun i hi v hv => hq.lens_of_given hpins hargs hcheck hi (w := w) hv) fun i hi hp => by
      obtain ⟨name, s, hop⟩ := exists_parameter hp
      obtain ⟨_, v, -, -, hv, -⟩ := hq.exists_given (w := w) hargs hcheck hi hop
      rw [hv]
      exact Option.some_ne_none v
  -- a tensor that is given is the tensor of its position
  have hgiven : ∀ {k : Nat} {i : Instruction} {v v' : View}, q.instructions[k]? = some i →
      views[k]? = some v → given? params w i = some v' → v' = v := by
    intro k i v v' hi hv hv'
    rcases hmeans k i v hi hv with hsame | ⟨hnone, -⟩
    · exact Option.some.inj (hv'.symm.trans hsame)
    · rw [hv'] at hnone
      cases hnone
  refine ⟨views, (q.constants ++ arguments params q).filterMap w.resident?, ?_,
    hw.loaded hd hunlimited ?_ ?_ ?_⟩
  · refine ⟨hq, hfed, hstays, hrecorded, ?_, ?_, ?_, fun hf => ⟨(hroom hf).1, (hroom hf).2.2⟩⟩
    · intro k i inputs v hi hinputs hv hp hk
      rcases hmeans k i v hi hv with hsome | ⟨-, inputs', hinputs', hd⟩
      · rw [given?_eq_none hp hk] at hsome
        cases hsome
      · rw [hinputs] at hinputs'
        cases hinputs'
        exact hd
    · intro k i b v hi _ hk hv
      have hmem := List.mem_of_getElem? hi
      obtain ⟨_, heq, hread⟩ := hq.given?_of_constant hpins hmem hk
      cases heq
      obtain rfl := hgiven hi hv hread
      have hconstant : (⟨i.shape, some (.device b)⟩ : Argument) ∈ q.constants :=
        List.mem_filterMap.mpr ⟨i, hmem, by rw [hk]; rfl⟩
      exact List.mem_filterMap.mpr ⟨_, List.mem_append_left _ hconstant, rfl⟩
    · intro k i name s v hi hop hv
      obtain ⟨a, v', ha, -, hread, -, hstores⟩ :=
        hq.exists_given (w := w) hargs hcheck (List.mem_of_getElem? hi) hop
      obtain rfl := hgiven hi hv hread
      refine ⟨a, ha, hstores.imp_right ?_⟩
      rintro ⟨b, heq, hmem⟩
      refine ⟨b, heq, ?_⟩
      rw [List.filterMap_append]
      exact List.mem_append_right _ hmem
  · rw [List.filterMap_append, filterMap_constants]
    exact hheld
  · exact fun a ha => (hq.standing hpins hdeclared hargs hcheck a ha).1
  · exact fun a ha => (hq.standing hpins hdeclared hargs hcheck a ha).2

end Program
end TensorGraph
