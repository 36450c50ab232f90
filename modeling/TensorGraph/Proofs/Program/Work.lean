/-
The work of an evaluation.

What an evaluation makes a device do is fixed by the compiled program: each kernel adds its own
work (`BoundKernel.work`), whatever the arguments on the host are, and releasing values adds none.
So a run has uploaded each parameter, launched what computes, and waited for the device once if the
output is brought back; and of what it allocated, only what its result holds is left.  Compiling
has allocated a buffer for each constant before, and no run moves one again: `evaluation_work`.
-/
import TensorGraph.Proofs.Ownership.Client
import TensorGraph.Proofs.Program.Course
import TensorGraph.Proofs.Program.Limited
import TensorGraph.Proofs.Program.Location
import TensorGraph.Proofs.Program.Moves
import TensorGraph.Proofs.Program.Safety
import TensorGraph.Proofs.Program.Start

namespace TensorGraph

open World (Issued Ledger)

variable {v w w' : World} {id : DeviceId} {d₀ : Device} {k : Work} {bs : List DeviceBuffer}
variable {a : Argument} {args : List Argument} {s : Shape} {c : BoundKernel}

/-! ## Kernels -/

/-- Whether a kernel belongs to a device and is given what it works on there: tensors on the host
for an upload, and on the device for a download.  What it holds is held already. -/
def BoundKernel.Suits (v : World) (id : DeviceId) (args : List Argument) : BoundKernel → Prop
  | host _ => False
  | resident a => a.holds ⊆ v.held
  | upload here => here = id ∧ ∀ a ∈ args, a.location ≠ some .device
  | download => ∀ a ∈ args, ∃ b, a.storage = some (.device b) ∧ b.device = id
  | launch _ here => here = id
  | literal _ | view _ => True

theorem World.Ledger.compute (hv : v.Issued id d₀) (h : Ledger v id d₀ k bs w)
    (hc : c.Suits v id args) (hargs : ∀ a ∈ args, a.holds ⊆ bs ++ v.held)
    (hrun : c.compute s args w = .value a w') :
    Ledger v id d₀ (k + c.work) (a.holds ++ bs) w' := by
  cases c with
  | host op => exact hc.elim
  | literal l =>
    cases hrun
    exact h
  | resident b =>
    obtain ⟨rfl, hretain⟩ := BoundKernel.resident_eq_value hrun
    exact h.retain hv (List.subset_append_of_subset_right _ hc) hretain
  | upload here =>
    obtain ⟨rfl, hhost⟩ := hc
    cases args with
    | nil => cases hrun
    | cons b args => exact h.toDevice (hhost b List.mem_cons_self) hrun
  | download =>
    cases args with
    | nil => cases hrun
    | cons b args =>
      obtain ⟨b', hstorage, hb'⟩ := hc b List.mem_cons_self
      exact h.toHost hstorage hb' hrun
  | view name =>
    cases args with
    | nil => cases hrun
    | cons b args =>
      obtain ⟨hshape, hretain⟩ := BoundKernel.view_eq_value hrun
      refine h.retain hv ?_ hretain
      rw [Argument.holds_of_withShape hshape]
      exact hargs b List.mem_cons_self
  | launch op here =>
    obtain rfl : here = id := hc
    obtain ⟨size, b, w₁, operands, target, -, hallocate, hresult, -, hlaunch⟩ :=
      BoundKernel.launch_eq_value hrun
    rw [World.holds_of_make_device hresult, show (BoundKernel.launch op here).work =
      ⟨1, 0, 0⟩ + ⟨0, 1, 0⟩ from rfl, ← add_assoc]
    exact (h.allocate hallocate).launch hlaunch

namespace Program

variable {p q : Program} {is rest : List Instruction} {i : Instruction} {n output : Nat}
variable {params : Parameters} {values values' : Values} {last : List (Option Nat)}
variable {offload : Bool} {P : Nat → Argument → Prop}

/-! ## Values that are kept -/

theorem ledger_of_releaseDead (hv : v.Issued id d₀) {inputs : List Nat}
    (h : Ledger v id d₀ k (heldBy values ++ bs) w)
    (hrun : releaseDead last n values inputs w = .value values' w') :
    Ledger v id d₀ k (heldBy values' ++ bs) w' := by
  induction inputs generalizing values w with
  | nil =>
    cases hrun
    exact h
  | cons r inputs ih =>
    rcases releaseDead_cons last n values r inputs with ⟨a, ha, heq, -⟩ | ⟨heq, -⟩
    · rw [heq] at hrun
      obtain ⟨_, w₁, hrelease, hrest⟩ := Action.bind_eq_value.mp hrun
      have hperm := (heldBy_set_none ha).append_right bs
      rw [List.append_assoc] at hperm
      exact ih ((h.trans hperm).release hv hrelease) hrest
    · rw [heq] at hrun
      exact ih h hrun

theorem ledger_of_releasing (hv : v.Issued id d₀)
    (h : Ledger v id d₀ k (a.holds ++ heldBy values) w) (hfree : values[n]? = some none)
    (hrun : releasing last output n i values a w = .value values' w') :
    Ledger v id d₀ k (heldBy values') w' := by
  unfold releasing at hrun
  split at hrun
  · have h₂ := h.trans (heldBy_set_some a hfree).symm
    rw [← List.append_nil (heldBy _)] at h₂ ⊢
    exact ledger_of_releaseDead hv h₂ hrun
  · obtain ⟨values₁, w₂, hdead, hlast⟩ := Action.bind_eq_value.mp hrun
    obtain ⟨_, w₃, hrelease, hvalue⟩ := Action.bind_eq_value.mp hlast
    cases hvalue
    have h₂ := ledger_of_releaseDead hv (h.trans List.perm_append_comm) hdead
    exact (h₂.trans List.perm_append_comm).release hv hrelease

theorem ledger_of_settling (hv : v.Issued id d₀)
    (h : Ledger v id d₀ k (a.holds ++ heldBy values) w) (hfree : values[n]? = some none)
    (hrun : settling last output n i values a w = .value values' w') :
    Ledger v id d₀ k (heldBy values') w' := by
  rcases settling_cases last output n i values a w with heq | ⟨text, heq⟩
  · rw [heq] at hrun
    exact ledger_of_releasing hv h hfree hrun
  · have hnoted : Ledger v id d₀ k (a.holds ++ heldBy values)
        { w with log := w.log ++ [⟨.debug, text⟩] } := h.congr rfl rfl
    rw [heq] at hrun
    exact ledger_of_releasing hv hnoted hfree hrun

theorem ledger_of_forEach_release (hv : v.Issued id d₀) {as : List Argument} {u : Unit}
    (h : Ledger v id d₀ k (as.flatMap Argument.holds ++ bs) w)
    (hrun : Action.forEach World.release as w = .value u w') : Ledger v id d₀ k bs w' := by
  induction as generalizing w with
  | nil =>
    cases hrun
    exact h
  | cons b as ih =>
    obtain ⟨_, w₁, hrelease, hrest⟩ := Action.bind_eq_value.mp hrun
    rw [List.flatMap_cons, List.append_assoc] at h
    exact ih (h.release hv hrelease) hrest

theorem ledger_of_releaseValues (hv : v.Issued id d₀) {u : Unit}
    (h : Ledger v id d₀ k (heldBy values ++ bs) w) (hrun : releaseValues values w = .value u w') :
    Ledger v id d₀ k bs w' := by
  rw [heldBy_eq] at h
  exact ledger_of_forEach_release hv h hrun

/-! ## Runs -/

/-- The instructions from a position on, if each of them adds its own work. -/
theorem ledger_of_runFrom (hv : v.Issued id d₀)
    (hstep : ∀ m i, rest[m]? = some i → ∀ values k w a w', EveryAt P values →
      Ledger v id d₀ k (heldBy values) w → instructionValue params (n + m) i values w = .value a w' →
        P (n + m) a ∧ Ledger v id d₀ (k + i.work) (a.holds ++ heldBy values) w')
    (hahead : Ahead n rest values) (hkept : EveryAt P values)
    (h : Ledger v id d₀ k (heldBy values) w)
    (hrun : runFrom params last output n values rest w = .value values' w') :
    Ledger v id d₀ (k + (rest.map Instruction.work).sum) (heldBy values') w' := by
  induction rest generalizing n values k w with
  | nil =>
    cases hrun
    exact h
  | cons i rest ih =>
    rw [runFrom_cons] at hrun
    obtain ⟨values₁, w₁, hrunStep, hrest⟩ := Action.bind_eq_value.mp hrun
    obtain ⟨a, w₂, hvalue, hsettle, hvalues⟩ := runStep_eq_value hrunStep
    obtain ⟨ha, h₂⟩ := hstep 0 i rfl values k w a w₂ hkept h hvalue
    have hlen := hahead.length
    rw [List.length_cons] at hlen
    have hlt : n < values.length := by omega
    have hfree : values[n]? = some none := by
      cases hv : values[n] with
      | none => rw [List.getElem?_eq_getElem hlt, hv]
      | some b =>
        exact absurd (by rw [List.getElem?_eq_getElem hlt, hv]) (hahead.free n b le_rfl)
    have hnext : Ahead (n + 1) rest values₁ := by
      refine ⟨?_, fun r b hr hb => ?_⟩
      · rw [hvalues, succeeding, length_cleared]
        split
        · rw [List.length_set]
          omega
        · omega
      · rw [hvalues] at hb
        rcases getElem?_of_succeeding hb with hold | ⟨rfl, -⟩
        · exact hahead.free r b (by omega) hold
        · omega
    have hkept' : EveryAt P values₁ := by
      intro r b hb
      rw [hvalues] at hb
      rcases getElem?_of_succeeding hb with hold | ⟨rfl, rfl⟩
      · exact hkept r b hold
      · exact ha
    rw [List.map_cons, List.sum_cons, ← add_assoc]
    refine ih (fun m j hj values k w a w' hkept h hvalue => ?_) hnext hkept'
      (ledger_of_settling hv h₂ hfree hsettle) hrest
    have hshift : n + 1 + m = n + (m + 1) := by omega
    rw [hshift] at hvalue ⊢
    exact hstep (m + 1) j hj values k w a w' hkept h hvalue

/-- A run has done the work of the kernels, and of what that allocated, only what the result holds
is left. -/
theorem ledger_of_run (hv : v.Issued id d₀)
    (hstep : ∀ n i, q.instructions[n]? = some i → ∀ values k w a w', EveryAt P values →
      Ledger v id d₀ k (heldBy values) w → instructionValue params n i values w = .value a w' →
        P n a ∧ Ledger v id d₀ (k + i.work) (a.holds ++ heldBy values) w')
    (hrun : q.run params v = .value a w') :
    Ledger v id d₀ (q.instructions.map Instruction.work).sum a.holds w' := by
  obtain ⟨last, values, w₁, hvalues, hout, hrelease⟩ := exists_values_of_run hrun
  have hahead : Ahead 0 q.instructions (List.replicate q.size none) :=
    ⟨by rw [List.length_replicate, Nat.zero_add]; rfl, fun r a _ => getElem?_replicate_none _ r a⟩
  have hnil : heldBy (List.replicate q.size none) = [] := by
    rw [heldBy, kept_replicate]
    rfl
  have h₁ := ledger_of_runFrom (k := 0) (P := P) hv
    (fun m i hi => by rw [Nat.zero_add]; exact hstep m i hi) hahead (everyAt_replicate P q.size)
    (by rw [hnil]; exact hv.ledger) hvalues
  rw [zero_add] at h₁
  exact ledger_of_releaseValues hv
    (h₁.trans ((heldBy_set_none hout).trans List.perm_append_comm)) hrelease

/-! ## Instructions of a compiled program -/

structure Transferring (id : DeviceId) (offload : Bool) (q : Program) : Prop where
  sound : Sound q
  target : q.target = some (.device id offload)
  reads : ReadsDevice q.instructions
  onDevice : q.OnDevice id
  vacant : ∀ i ∈ q.instructions, i.isParameter = true → i.kernel = none
  sent : Sent offload q.instructions

theorem transferring_of_compile (hb : Built p)
    (hfree : ∀ i ∈ p.instructions, i.op.isTransfer = false)
    (h : p.compile (.device id offload) w = .value q w') : Transferring id offload q where
  sound := hb.reached.sound.compile (Or.inr ⟨id, offload, rfl⟩) h
  target := (compile_eq_value h).2.1
  reads := (readsDevice_of_compile hb hfree h).1
  onDevice := onDevice_of_compile hb.reached.sound h
  vacant := (pinning_of_compile hb (Or.inr ⟨id, offload, rfl⟩) h).vacant
  sent := sent_of_compile hb hfree h

theorem Transferring.bound (hq : Transferring id offload q) : Bound id q.instructions q.instructions :=
  fun i hi => ⟨hq.vacant i hi, hq.onDevice.kernels i hi⟩

/-- Whether the value at a position is where its instruction puts it, parameters being on the
host. -/
def Lying (id : DeviceId) (is : List Instruction) (n : Nat) (a : Argument) : Prop :=
  Placed id is n a ∧ ∀ i, is[n]? = some i → startsOnHost i.op = true → a.location = some .host

theorem holds_of_location (h : a.location = some .host) : a.holds = [] := by
  unfold Argument.location at h
  unfold Argument.holds Argument.deviceBuffer?
  cases hs : a.storage with
  | none => rfl
  | some st =>
    rw [hs] at h
    cases st with
    | host b => rfl
    | device b => cases h

theorem Transferring.lying (hq : Transferring id offload q)
    (hhost : ∀ name a, params.lookup name = some a → a.location = some .host)
    (hi : q.instructions[n]? = some i) (hkept : EveryAt (Lying id q.instructions) values)
    (hvalue : instructionValue params n i values w = .value a w') : Lying id q.instructions n a := by
  have hplaced := placed_of_instructionValue hq.sound hq.target hq.reads hi
    (fun r b hb => (hkept r b hb).1) hvalue
  refine ⟨hplaced, fun j hj hstarts => ?_⟩
  rw [hi] at hj
  cases hj
  cases hop : i.op with
  | literal l => exact (hplaced i hi).1 (Or.inl ⟨l, hop⟩)
  | parameter name s => exact hhost name a (parameter_eq_value hop hvalue).1
  | _ =>
    rw [hop] at hstarts
    cases hstarts

/-- The kernel of an instruction is given what it works on. -/
theorem Transferring.suits (hq : Transferring id offload q) (hheld : q.residents ⊆ v.held)
    (hi : q.instructions[n]? = some i) (hp : i.isParameter = false) (hk : i.kernel = some c)
    (hkept : EveryAt (Lying id q.instructions) values)
    (hargs : inputValues n values i.inputs = .value args) : c.Suits v id args := by
  have hmem := List.mem_of_getElem? hi
  have hin := inputValues_eq_some hargs
  rcases hq.onDevice.kernel_cases hi hp with ⟨-, hc⟩ | ⟨hop, hc⟩ | ⟨-, hc⟩ | ⟨l, hc⟩ | ⟨b, hc⟩ | hc <;>
    rw [hk] at hc <;> cases hc
  · exact rfl
  · refine ⟨rfl, fun a ha => ?_⟩
    obtain ⟨r, j, hinputs, hj, hstarts⟩ := hq.sent.exists_moved hmem hop
    rw [hinputs] at hin
    obtain _ | ⟨hb, _ | _⟩ := hin
    rw [List.mem_singleton.mp ha, (hkept r _ hb).2 j hj hstarts]
    simp
  · exact trivial
  · exact trivial
  · intro b' hb'
    refine hheld (List.mem_filterMap.mpr ⟨i, hmem, ?_⟩)
    rw [hk]
    exact Option.mem_toList.mp hb'
  · intro a ha
    obtain ⟨r, hr, hb⟩ := exists_of_mem_right hin ha
    obtain ⟨j, hj, hback, hstarts⟩ := hq.reads i hmem r hr
    refine ((hkept _ _ hb).1 j hj).2 (Bool.eq_false_iff.mpr fun htrue => ?_) hback
    rcases hq.onDevice.hostToDevice hi (hstarts htrue) with ⟨b, hc, -⟩ | ⟨hc, -⟩ <;>
      rw [hk] at hc <;> cases hc

theorem Transferring.step (hq : Transferring id offload q) (hv : v.Issued id d₀)
    (hheld : q.residents ⊆ v.held)
    (hhost : ∀ name a, params.lookup name = some a → a.location = some .host)
    (hi : q.instructions[n]? = some i) (hkept : EveryAt (Lying id q.instructions) values)
    (h : Ledger v id d₀ k (heldBy values) w)
    (hvalue : instructionValue params n i values w = .value a w') :
    Ledger v id d₀ (k + i.work) (a.holds ++ heldBy values) w' := by
  by_cases hp : i.isParameter = true
  · have hwork : i.work = 0 := by
      rw [Instruction.work, hq.vacant i (List.mem_of_getElem? hi) hp]
      rfl
    obtain ⟨name, s, hop⟩ := exists_parameter hp
    obtain ⟨harg, hretain⟩ := parameter_eq_value hop hvalue
    rw [hwork, add_zero]
    refine h.retain hv ?_ hretain
    rw [holds_of_location (hhost name a harg)]
    exact List.nil_subset _
  · rw [Bool.not_eq_true] at hp
    obtain ⟨c, hc, -⟩ := hq.onDevice.kernels i (List.mem_of_getElem? hi) hp
    obtain ⟨args, hargs, hcompute⟩ := (instructionValue_eq_value hp hc).mp hvalue
    rw [show i.work = c.work by rw [Instruction.work, hc]; rfl]
    refine h.compute hv (hq.suits hheld hi hp hc hkept hargs) (fun b hb => ?_) hcompute
    obtain ⟨r, hr⟩ := mem_of_inputValues hargs b hb
    exact List.subset_append_of_subset_left _ (holds_subset_heldBy hr)

/-! ## Compiling -/

theorem ledger_of_bind {target : String} (h : Ledger v id d₀ k bs w)
    (hbind : Backend.bindDevice id target p i w = .value c w') :
    Ledger v id d₀ (k + ⟨c.resident?.toList.length, 0, 0⟩) (c.resident?.toList ++ bs) w' := by
  obtain ⟨op, inputs, s, kernel⟩ := i
  unfold Backend.bindDevice at hbind
  cases op with
  | literal | deviceToHost | reshape | transpose =>
    cases hbind
    exact h
  | hostToDevice =>
    cases inputs with
    | nil => cases hbind
    | cons r rest =>
      obtain ⟨j, w₁, hget, hmoved⟩ := Action.bind_eq_value.mp hbind
      obtain ⟨-, rfl⟩ := Action.ofOutcome_eq_value.mp hget
      revert hmoved
      cases j.op with
      | literal l =>
        intro hmoved
        obtain ⟨b, w₂, hmove, hvalue⟩ := Action.bind_eq_value.mp hmoved
        cases hvalue
        obtain ⟨b', rfl, -⟩ := World.toDevice_eq_value hmove
        exact h.toDevice (by simp [Argument.location, Argument.ofLiteral, Storage.location]) hmove
      | _ =>
        intro hmoved
        cases hmoved
        exact h
  | _ =>
    obtain ⟨w₁, w₂, hget, hfound⟩ := Action.bind_eq_value.mp hbind
    cases hget
    revert hfound
    cases w.devices[id]? with
    | none =>
      intro hfound
      cases hfound
    | some d =>
      intro hfound
      dsimp only at hfound
      split at hfound
      · cases hfound
        exact h
      · cases hfound

theorem ledger_of_bindAll {positions : List Nat} (hnd : positions.Nodup)
    (hvacant : Vacant p positions) (h : Ledger v id d₀ ⟨p.residents.length, 0, 0⟩ p.residents w)
    (hrun : bindAll (.device id offload) p positions w = .value q w') :
    Ledger v id d₀ ⟨q.residents.length, 0, 0⟩ q.residents w' := by
  induction positions generalizing p w with
  | nil =>
    cases hrun
    exact h
  | cons position rest ih =>
    obtain ⟨hnot, hrest⟩ := List.nodup_cons.mp hnd
    obtain ⟨⟨i, hi, hunheld⟩, hvacant⟩ := vacant_cons.mp hvacant
    unfold bindAll at hrun
    rw [Action.bind_lift_of_value (get_of_getElem? hi)] at hrun
    split at hrun
    · exact ih hrest hvacant h hrun
    · obtain ⟨c, w₁, hbind, hbound⟩ := Action.bind_eq_value.mp hrun
      have hbind' := Action.onRefusal_eq_value.mp hbind
      unfold Target.bind at hbind'
      rw [Action.bind_lift_of_value (get_of_getElem? hi)] at hbind'
      have hperm := residents_setKernel hi hunheld c
      have h₁ := (ledger_of_bind h hbind').trans hperm.symm
      have hwork : (⟨p.residents.length, 0, 0⟩ + ⟨c.resident?.toList.length, 0, 0⟩ : Work) =
          ⟨(p.setKernel position c).residents.length, 0, 0⟩ := by
        refine Work.ext ?_ rfl rfl
        rw [hperm.length_eq, List.length_append]
        exact Nat.add_comm ..
      rw [hwork] at h₁
      exact ih hrest (hvacant.setKernel hnot c) h₁ hbound

/-- Compiling allocates what the compiled program holds. -/
theorem ledger_of_compile (hb : Built p) (hw : w.Issued id d₀)
    (h : p.compile (.device id offload) w = .value q w') :
    Ledger w id d₀ ⟨q.residents.length, 0, 0⟩ q.residents w' := by
  obtain ⟨hwell, hopen, hkernels, -⟩ := hb.unbound
  have hstock : (Target.device id offload).Stock := Or.inr ⟨id, offload, rfl⟩
  unfold compile at h
  rw [hopen] at h
  obtain ⟨lowered, w₁, hlower, hlowered⟩ := Action.bind_eq_value.mp h
  obtain ⟨bound, w₂, hbind, hbound⟩ := Action.bind_eq_value.mp hlowered
  obtain ⟨_, w₃, hnote, hvalue⟩ := Action.bind_eq_value.mp hbound
  cases hnote
  cases hvalue
  have hpasses := lower_eq_value hlower
  obtain ⟨w₁', hsame, hlower'⟩ := lower_of_lowers hstock hwell.consistent hopen hkernels hpasses w
  rw [hlower'] at hlower
  cases hlower
  obtain ⟨copies, hlow, -⟩ := lowered_of_stock hstock hwell.consistent hopen hpasses
  have hnil : lowered.residents = [] := residents_eq_nil (hlow.refines.kernels hkernels)
  have hstart : Ledger w id d₀ ⟨lowered.residents.length, 0, 0⟩ lowered.residents w₁ := by
    rw [hnil]
    exact hw.ledger.congr hsame.devices hsame.held
  have hledger := ledger_of_bindAll List.nodup_range (vacant_of_residents hnil) hstart hbind
  exact hledger.congr rfl rfl

/-- In a world with its books in order, what a compiled program holds is held. -/
theorem holding_of_compile (hb : Built p) (hw : World.Holding w bs)
    (h : p.compile (.device id offload) w = .value q w') : World.Holding w' (q.residents ++ bs) := by
  have hmeets := compile_meets (t := .device id offload) hw
    fun _ => residents_eq_nil hb.unbound.kernels
  rw [h] at hmeets
  exact hmeets.1

/-! ## What is left -/

/-- Of the allocations that were made since, those are left that somebody has come to hold. -/
theorem exists_worked (hv : v.Issued id d₀) (h : Ledger v id d₀ k a.holds w) :
    ∃ d, w.devices[id]? = some d ∧
      d₀.Worked k ((a.holds.filter (· ∉ v.held)).map fun b => (b.address, b.size)) d := by
  obtain ⟨d, late, hd, hn, hworked, hiff⟩ := h.account
  have hnodup : late.Nodup := by
    have hkeys := hn.nodup
    rw [hworked.layout, List.map_append] at hkeys
    exact List.Nodup.of_map _ (List.nodup_append.mp hkeys).1
  suffices hlate : late = (a.holds.filter (· ∉ v.held)).map fun b => (b.address, b.size) by
    exact ⟨d, hd, hlate ▸ hworked⟩
  have hmem : ∀ e, e ∈ late ↔ e ∈ (a.holds.filter (· ∉ v.held)).map fun b => (b.address, b.size) := by
    intro e
    rw [List.mem_map]
    constructor
    · intro he
      have hlater := hworked.later e he
      refine ⟨⟨id, e.1, e.2⟩, List.mem_filter.mpr ⟨(hiff e hlater).mpr he, ?_⟩, rfl⟩
      exact decide_eq_true (hv.not_mem_held rfl hlater)
    · rintro ⟨b, hb, rfl⟩
      obtain ⟨hholds, hnew⟩ := List.mem_filter.mp hb
      obtain ⟨rfl, hlater⟩ := (h.origin b hholds).resolve_left (of_decide_eq_true hnew)
      exact (hiff (b.address, b.size) hlater).mp hholds
  -- an argument holds one buffer at most
  have hlen : ((a.holds.filter (· ∉ v.held)).map fun b => (b.address, b.size)).length ≤ 1 := by
    rw [List.length_map]
    refine (List.length_filter_le _ _).trans ?_
    unfold Argument.holds
    cases a.deviceBuffer? <;> simp
  generalize ((a.holds.filter (· ∉ v.held)).map fun b => (b.address, b.size)) = left at hmem hlen ⊢
  rcases left with _ | ⟨e, _ | ⟨e', left⟩⟩
  · exact List.eq_nil_iff_forall_not_mem.mpr fun e he => nomatch (hmem e).mp he
  · exact List.perm_singleton.mp
      ((List.perm_ext_iff_of_nodup hnodup (List.nodup_singleton e)).mpr hmem)
  · rw [List.length_cons, List.length_cons] at hlen
    omega

/-- What an evaluation makes a device do is fixed by the compiled program.  Compiling allocates a
buffer for each constant, and a run finds it there: the transfer of a constant calls no device.  A
run allocates once for each parameter and each computing instruction, launches each of the latter,
and waits for the device once if the output is brought back; nothing is freed that was there
before, no address is freed that is not allocated, and everything that the run allocated is freed
again but for what its result holds. -/
theorem evaluation_work (hb : Built p) (hfree : ∀ i ∈ p.instructions, i.op.isTransfer = false)
    (hcompile : p.compile (.device id offload) w = .value q w') :
    (∀ d₀, w.Issued id d₀ → ∃ d late, w'.devices[id]? = some d ∧
      d₀.Worked ⟨q.instructions.countP Instruction.isLiteral, 0, 0⟩ late d ∧
      ∀ e, d₀.next ≤ e.1 → (⟨id, e.1, e.2⟩ ∈ q.residents ↔ e ∈ late)) ∧
    (∀ n i r j l, q.instructions[n]? = some i → i.op = .hostToDevice → i.inputs = [r] →
      q.instructions[r]? = some j → j.op = .literal l →
      ∃ b, i.kernel = some (.resident ⟨i.shape, some (.device b)⟩) ∧
        ∀ params values u a u', instructionValue params n i values u = .value a u' →
          a = ⟨i.shape, some (.device b)⟩ ∧ u'.devices = u.devices) ∧
    ∀ v d₀ params a v', v.Issued id d₀ → q.residents ⊆ v.held →
      (∀ name c, params.lookup name = some c → c.location = some .host) →
      q.run params v = .value a v' →
      ∃ d, v'.devices[id]? = some d ∧
        d₀.Worked
          ⟨q.instructions.countP Instruction.isParameter +
              q.instructions.countP fun i => i.op.isCompute,
            q.instructions.countP fun i => i.op.isCompute, if offload = true then 1 else 0⟩
          ((a.holds.filter (· ∉ v.held)).map fun b => (b.address, b.size)) d := by
  have hq := transferring_of_compile hb hfree hcompile
  refine ⟨fun d₀ hw => ?_, fun n i r j l hi hop hin hj hlit => ?_,
    fun v d₀ params a v' hv hheld hhost hrun => ?_⟩
  · have hcount : q.residents.length = q.instructions.countP Instruction.isLiteral :=
      hq.sent.residents hq.bound
    obtain ⟨d, late, hd, -, hworked, hiff⟩ := (ledger_of_compile hb hw hcompile).account
    rw [hcount] at hworked
    exact ⟨d, late, hd, hworked, hiff⟩
  · rcases hq.onDevice.hostToDevice hi hop with ⟨b, hk, -⟩ | ⟨hk, hnone⟩
    · refine ⟨b, hk, fun params values u a u' hvalue => ?_⟩
      rw [instructionValue_of_kernel (congrArg Operator.isParameter hop) hk] at hvalue
      obtain ⟨args, u₁, hlift, hcompute⟩ := Action.bind_eq_value.mp hvalue
      obtain ⟨-, rfl⟩ := Action.ofOutcome_eq_value.mp hlift
      obtain ⟨_, u₂, hretain, hreturn⟩ := Action.bind_eq_value.mp hcompute
      cases hretain
      cases hreturn
      exact ⟨rfl, rfl⟩
    · -- the kernel of a constant's transfer holds what was moved when it was bound
      obtain ⟨k, hk', hserves⟩ := hq.onDevice.kernels i (List.mem_of_getElem? hi)
        (congrArg Operator.isParameter hop)
      rw [hk] at hk'
      cases hk'
      unfold Backend.Serves at hserves
      rw [hop, hin] at hserves
      dsimp only at hserves
      rw [List.head?_cons, Option.bind_some, hj, Option.map_some, hlit] at hserves
      obtain ⟨b, hresident, -⟩ := hserves
      cases hresident
  · have hne : q.instructions ≠ [] := by
      intro hnil
      obtain ⟨j, hj⟩ := exists_last_of_run hq.target hrun
      rw [last?, hnil] at hj
      cases hj
    have hledger := ledger_of_run (P := Lying id q.instructions) hv
      (fun n i hi values k w a w' hkept h hvalue => ⟨hq.lying hhost hi hkept hvalue,
        hq.step hv hheld hhost hi hkept h hvalue⟩) hrun
    rw [hq.sent.work hq.bound hne] at hledger
    exact exists_worked hv hledger

def addedZeros : Program where
  instructions :=
    [{ op := .parameter "x" matrix, inputs := [], shape := matrix },
     { op := .literal zeros, inputs := [], shape := matrix },
     { op := .add, inputs := [0, 1], shape := matrix }]
  parameters := [("x", matrix)]

theorem built_addedZeros : Built addedZeros := by
  have hx : addParameter "x" matrix {} = .value 0
      { instructions := addedZeros.instructions.take 1, parameters := [("x", matrix)] } := rfl
  have hzeros : addLiteral { instructions := addedZeros.instructions.take 1,
                             parameters := [("x", matrix)] } zeros {} =
      .value ({ instructions := addedZeros.instructions.take 2,
                parameters := [("x", matrix)] }, 1) {} := rfl
  have hadd : addInstruction .add [0, 1]
      { instructions := addedZeros.instructions.take 2, parameters := [("x", matrix)] } =
        .value 2 addedZeros := rfl
  have hplain : ∀ l, Operator.add = .literal l → l.Made := fun _ h => nomatch h
  exact .instruction (.literal (.parameter .empty hx) made_zeros hzeros) hplain hadd

/-- The constant is moved when the program is compiled.  A run moves the parameter, launches the
sum and waits for it, and nothing is left on the device. -/
theorem evaluation_work_addedZeros :
    (Built addedZeros ∧ ∀ i ∈ addedZeros.instructions, i.op.isTransfer = false) ∧
    ∃ q w late d₁ a v' d, addedZeros.compile (.device 0 true) { devices := [{}] } = .value q w ∧
      w.devices[0]? = some d₁ ∧ Device.Worked {} ⟨1, 0, 0⟩ late d₁ ∧ w.Issued 0 d₁ ∧
      q.residents ⊆ w.held ∧ q.run [("x", oneToSix)] w = .value a v' ∧ v'.devices[0]? = some d ∧
      d₁.Worked ⟨2, 1, 1⟩ [] d := by
  have hfree : ∀ i ∈ addedZeros.instructions, i.op.isTransfer = false := by decide
  obtain ⟨q, w, hq, htest⟩ := Turn.exists_of_passes
    (show (addedZeros.compile (.device 0 true) { devices := [{}] }).passes (fun q w =>
      decide (q.instructions.countP Instruction.isLiteral = 1 ∧
        q.instructions.countP Instruction.isParameter = 1 ∧
        q.instructions.countP (fun i => i.op.isCompute) = 1) &&
      (q.run [("x", oneToSix)] w).passes fun a _ => a.holds = []) = true by decide +kernel)
  rw [Bool.and_eq_true, decide_eq_true_iff] at htest
  obtain ⟨⟨hliterals, hparameters, hcomputes⟩, hruns⟩ := htest
  obtain ⟨a, v', hrun, hnil⟩ := Turn.exists_of_passes hruns
  have hnew : World.Issued { devices := [{}] } 0 {} :=
    ⟨rfl, ⟨.nil, (fun _ h => nomatch h)⟩, fun _ h => nomatch h⟩
  obtain ⟨hcompiled, -, hwork⟩ := evaluation_work built_addedZeros hfree hq
  obtain ⟨d₁, late, hd₁, hworked₁, -⟩ := hcompiled {} hnew
  have hnone : World.Accounted {} :=
    ⟨(fun _ h => nomatch h), fun _ => ⟨(fun h => nomatch h), fun ⟨_, h, _⟩ => nomatch h⟩⟩
  have hempty : World.Holding { devices := [{}] } [] :=
    World.Holding.addDevice (w := {}) ⟨hnone, .nil⟩ none []
  have hheld := holding_of_compile built_addedZeros hempty hq
  have hissued := hheld.accounted.issued hd₁
  have hsub : q.residents ⊆ w.held := fun b hb =>
    hheld.perm.mem_iff.mpr (List.mem_append_left _ hb)
  have hhost : ∀ name c, List.lookup name [("x", oneToSix)] = some c →
      c.location = some .host := by
    intro name c hc
    obtain ⟨b, hb, -⟩ := hostParameters_oneToSix name c hc
    rw [Argument.location, hb]
    rfl
  obtain ⟨d, hd, hworked⟩ := hwork w d₁ _ a v' hissued hsub hhost hrun
  rw [hliterals] at hworked₁
  rw [hparameters, hcomputes, of_decide_eq_true hnil] at hworked
  exact ⟨⟨built_addedZeros, hfree⟩, q, w, late, d₁, a, v', d, hq, hd₁, hworked₁, hissued, hsub,
    hrun, hd, hworked⟩

end Program
end TensorGraph
