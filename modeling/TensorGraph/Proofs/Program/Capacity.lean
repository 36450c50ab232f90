/-
Evaluation on a device with a capacity.

Beside a run on a device with a capacity goes the `Course` of the same run without it.  As long as
there is room for what is made beside the values with a use to come, the two do not differ; at the
first instruction for which there is none the run is refused, and gives back what it holds.  So a
run gives a value just when there is room for all instructions: `run_within_capacity`.
-/
import TensorGraph.Proofs.Program.Course

namespace TensorGraph
namespace Program

variable {p q : Program} {start w w' : World} {id : DeviceId} {d d₀ : Device} {i : Instruction}
variable {is : List Instruction} {k capacity : Nat} {values : Values} {offload : Bool}
variable {params : Parameters} {views : List View} {pins : List Resident}
variable {last : List (Option Nat)}

theorem Backs.forEach_release_ends {fits : Prop}
    {Holds : Nat → World → List (Nat × Argument) → Prop} (hb : Backs params is fits Holds)
    {es : List (Nat × Argument)} (h : Holds k w es) :
    (Action.forEach World.release (es.map Prod.snd) w).Ends fits fun _ _ => True := by
  induction es generalizing w with
  | nil => exact trivial
  | cons e es ih => exact Action.ends_bind (hb.release h) fun _ _ h' => ih h'

section Limited

variable (hP : Prepared start id offload params views pins q d₀ last)

namespace Course

include hP

/-- An instruction for which there is room gives what it gives without the capacity. -/
theorem instructionValue_limit (h : Course start id views pins q last k values w)
    (hi : q.instructions[k]? = some i)
    (hfits : AffordsAt d₀.stats.liveBytes capacity q.instructions k) :
    instructionValue params k i values (w.limit id (some capacity)) =
      (instructionValue params k i values w).map (World.limit id (some capacity)) := by
  cases ha : i.allocates with
  | true =>
    obtain ⟨u, hmakes, hgrown, -⟩ := h.exists_makes hP hi ha
    obtain ⟨d, hd, hnone, hlive⟩ := h.exists_device hP (List.getElem?_eq_some_iff.mp hi).1 hgrown
    exact hmakes.limit_of_le hd hnone (hlive ▸ hfits i hi ha)
  | false => exact ignores_instructionValue ha w

/-- Where there is no room the value is refused, and the others can be given back. -/
theorem instructionValue_refused (h : Course start id views pins q last k values w)
    (hi : q.instructions[k]? = some i)
    (hshort : ¬AffordsAt d₀.stats.liveBytes capacity q.instructions k) :
    ∃ u, instructionValue params k i values (w.limit id (some capacity)) =
        .refused (.device .alloc (.outOfMemory i.bytes
          (d₀.stats.liveBytes + heldBytes q.instructions k) capacity))
          (u.limit id (some capacity)) ∧
      DeviceHolds True id q.instructions views pins k u (kept values) := by
  obtain ⟨ha, hlt⟩ : i.allocates = true ∧
      capacity < d₀.stats.liveBytes + heldBytes q.instructions k + i.bytes := by
    simp only [AffordsAt, hi, Option.some.injEq, forall_eq', not_forall, not_le] at hshort
    obtain ⟨ha, hlt⟩ := hshort
    exact ⟨ha, hlt⟩
  obtain ⟨values', w', hstep, -⟩ := h.exists_runStep hP hi
  obtain ⟨a, w₁, hvalue, -⟩ := runStep_eq_value hstep
  obtain ⟨u, hmakes, hgrown, hbacked⟩ := h.exists_makes hP hi ha
  obtain ⟨d, hd, -, hlive⟩ := h.exists_device hP (List.getElem?_eq_some_iff.mp hi).1 hgrown
  rw [← hlive] at hlt ⊢
  refine ⟨_, hmakes.limit_of_lt hvalue hd hlt, hbacked.located, ?_⟩
  obtain ⟨next, hloaded, hroom⟩ := hbacked.loaded
  obtain ⟨d', hd', hnext, hholds⟩ := hloaded.target
  rw [hd] at hd'
  cases hd'
  exact ⟨next, hloaded.called (World.called_setDevice hd d) (hholds.makes_of fun _ => trivial)
    fun _ => hnext, hroom⟩

theorem exists_runStep_limit (h : Course start id views pins q last k values w)
    (hi : q.instructions[k]? = some i)
    (hfits : AffordsAt d₀.stats.liveBytes capacity q.instructions k) :
    ∃ values' w', runStep params last (q.size - 1) k values i (w.limit id (some capacity)) =
        .value values' (w'.limit id (some capacity)) ∧
      Course start id views pins q last (k + 1) values' w' := by
  obtain ⟨values', w', hstep, hnext⟩ := h.exists_runStep hP hi
  refine ⟨values', w', ?_, hnext⟩
  have hlimit : runStep params last (q.size - 1) k values i (w.limit id (some capacity)) =
      (runStep params last (q.size - 1) k values i w).map (World.limit id (some capacity)) := by
    rw [runStep_eq]
    refine Action.bind_map (Action.onRefusal_map (h.instructionValue_limit hP hi hfits)
      (ignores_releaseValues values)) fun a w₁ _ => ignores_settling a w₁
  rw [hlimit, hstep]
  rfl

/-- All values are given back, in a world that backs them. -/
theorem exists_releaseValues (capacity : Nat)
    (hbacked : DeviceHolds True id q.instructions views pins k w (kept values)) :
    ∃ w' : World, releaseValues values (w.limit id (some capacity)) =
      .value () (w'.limit id (some capacity)) := by
  have hends : (releaseValues values w).Ends True fun _ _ => True := by
    rw [releaseValues, ← map_snd_keptFrom 0 values]
    exact (backs_device hP.deployed).forEach_release_ends hbacked
  obtain ⟨_, w', hvalue, -⟩ := hends.exists_value_of_fits trivial
  refine ⟨w', ?_⟩
  rw [ignores_releaseValues values w, hvalue]
  rfl

theorem exists_runStep_refused (h : Course start id views pins q last k values w)
    (hi : q.instructions[k]? = some i)
    (hshort : ¬AffordsAt d₀.stats.liveBytes capacity q.instructions k) :
    ∃ w', runStep params last (q.size - 1) k values i (w.limit id (some capacity)) =
      .refused (.device .alloc (.outOfMemory i.bytes
        (d₀.stats.liveBytes + heldBytes q.instructions k) capacity)) w' := by
  obtain ⟨u, hrefused, hbacked⟩ := h.instructionValue_refused hP hi hshort
  obtain ⟨u', hrelease⟩ := exists_releaseValues hP capacity hbacked
  refine ⟨u'.limit id (some capacity), ?_⟩
  rw [runStep_eq]
  apply Action.bind_of_refused
  unfold Action.onRefusal
  rw [hrefused]
  dsimp only
  rw [hrelease]

/-- A stretch of a run for which there is room. -/
theorem exists_runFrom_limit {done now rest : List Instruction}
    (h : Course start id views pins q last done.length values w)
    (his : q.instructions = done ++ now ++ rest)
    (hfits : ∀ m < (done ++ now).length, AffordsAt d₀.stats.liveBytes capacity q.instructions m) :
    ∃ values' w', runFrom params last (q.size - 1) done.length values now
        (w.limit id (some capacity)) = .value values' (w'.limit id (some capacity)) ∧
      Course start id views pins q last (done ++ now).length values' w' := by
  induction now generalizing done values w with
  | nil =>
    rw [List.append_nil]
    exact ⟨values, w, rfl, h⟩
  | cons i now ih =>
    have hi : q.instructions[done.length]? = some i :=
      getElem?_of_split (his.trans (List.append_assoc ..))
    obtain ⟨values₁, w₁, hstep, h₁⟩ := h.exists_runStep_limit hP hi (hfits _ (by simp))
    have hdone : (done ++ [i]).length = done.length + 1 := List.length_append
    rw [← hdone] at h₁
    rw [List.append_cons] at his hfits ⊢
    obtain ⟨values', w', hrun, h'⟩ := ih h₁ his hfits
    refine ⟨values', w', ?_, h'⟩
    rw [runFrom_cons, Action.bind_of_value hstep, ← hdone]
    exact hrun

end Course

namespace Prepared

include hP

/-- The first instructions of a run, as long as there is room for them. -/
theorem exists_runFrom (hk : k ≤ q.instructions.length)
    (hfits : ∀ m < k, AffordsAt d₀.stats.liveBytes capacity q.instructions m) :
    ∃ values w, runFrom params last (q.size - 1) 0 (List.replicate q.size none)
        (q.instructions.take k) (start.limit id (some capacity)) =
          .value values (w.limit id (some capacity)) ∧
      Course start id views pins q last k values w := by
  have htake : ([] ++ q.instructions.take k).length = k := List.length_take_of_le hk
  have hstart : Course start id views pins q last ([] : List Instruction).length _ start :=
    hP.course
  have hrun := hstart.exists_runFrom_limit hP (List.take_append_drop k _).symm
    fun m hm => hfits m (hm.trans_eq htake)
  rwa [htake] at hrun

theorem exists_valueAt (hi : q.instructions[k]? = some i)
    (hfits : ∀ m ≤ k, AffordsAt d₀.stats.liveBytes capacity q.instructions m) :
    ∃ a w, q.valueAt params k i (start.limit id (some capacity)) = .value a w := by
  obtain ⟨values, w, hrun, hcourse⟩ := hP.exists_runFrom
    (Nat.le_of_lt (List.getElem?_eq_some_iff.mp hi).1) fun m hm => hfits m (Nat.le_of_lt hm)
  obtain ⟨values', w', hstep, -⟩ := hcourse.exists_runStep_limit hP hi (hfits k le_rfl)
  obtain ⟨a, w₁, hvalue, -⟩ := runStep_eq_value hstep
  refine ⟨a, w₁, ?_⟩
  unfold valueAt
  rw [Action.bind_lift_of_some hP.lastUses, Action.bind_of_value hrun, hvalue]

/-- The first instruction for which there is no room is refused. -/
theorem exists_valueAt_refused (hi : q.instructions[k]? = some i)
    (hfits : ∀ m < k, AffordsAt d₀.stats.liveBytes capacity q.instructions m)
    (hshort : ¬AffordsAt d₀.stats.liveBytes capacity q.instructions k) :
    ∃ w, q.valueAt params k i (start.limit id (some capacity)) =
      .refused (.device .alloc (.outOfMemory i.bytes
        (d₀.stats.liveBytes + heldBytes q.instructions k) capacity)) w := by
  obtain ⟨values, w, hrun, hcourse⟩ := hP.exists_runFrom
    (Nat.le_of_lt (List.getElem?_eq_some_iff.mp hi).1) hfits
  obtain ⟨u, hrefused, -⟩ := hcourse.instructionValue_refused hP hi hshort
  refine ⟨u.limit id (some capacity), ?_⟩
  unfold valueAt
  rw [Action.bind_lift_of_some hP.lastUses, Action.bind_of_value hrun, hrefused]

/-- A run is its instructions and what becomes of the values in the end. -/
theorem run_eq (hne : q.instructions ≠ []) (w : World) : q.run params w = (do
    let values ← runFrom params last (q.size - 1) 0 (List.replicate q.size none) q.instructions
    match values.getD (q.size - 1) none with
    | none => do
      releaseValues values
      Action.refuse (.noInstruction (q.size - 1) q.size)
    | some a => do
      releaseValues (values.set (q.size - 1) none)
      return a : Action World Argument) w := by
  have hcompiled : q.isCompiled = true := by
    rw [isCompiled, hP.deployed.ready.target]
    rfl
  have houtput : q.output? = some (q.size - 1) := by
    rw [output?, List.isEmpty_eq_false_iff.mpr hne]
    rfl
  unfold run
  rw [hcompiled, houtput, Bool.not_true, if_neg Bool.false_ne_true]
  beta_reduce
  rw [Action.bind_lift_of_value hP.check]
  exact Action.bind_lift_of_some hP.lastUses

/-- With room for all instructions a run gives a value. -/
theorem exists_run (hne : q.instructions ≠ [])
    (hfits : Affords d₀.stats.liveBytes capacity q.instructions) :
    ∃ a w, q.run params (start.limit id (some capacity)) = .value a w := by
  have hpos : 0 < q.size := List.length_pos_iff.mpr hne
  have ho : q.size - 1 + 1 = q.instructions.length := Nat.sub_add_cancel hpos
  obtain ⟨values, w, hrun, hcourse⟩ := hP.exists_runFrom le_rfl fun m _ => hfits m
  rw [List.take_length] at hrun
  obtain ⟨⟨a, ha⟩, hrest⟩ := hcourse.filled.only_output hP.reads ho
  refine ⟨a, w.limit id (some capacity), ?_⟩
  rw [hP.run_eq hne, Action.bind_of_value hrun, getD_eq_some.mpr ha]
  dsimp only
  rw [releaseValues, (keptFrom_eq_nil 0 hrest).2]
  rfl

/-- Without room for one of them it is refused where the first of these is. -/
theorem exists_run_refused (hi : q.instructions[k]? = some i)
    (hfits : ∀ m < k, AffordsAt d₀.stats.liveBytes capacity q.instructions m)
    (hshort : ¬AffordsAt d₀.stats.liveBytes capacity q.instructions k) :
    ∃ w, q.run params (start.limit id (some capacity)) =
      .refused (.device .alloc (.outOfMemory i.bytes
        (d₀.stats.liveBytes + heldBytes q.instructions k) capacity)) w := by
  obtain ⟨hlt, hget⟩ := List.getElem?_eq_some_iff.mp hi
  have hne : q.instructions ≠ [] := List.ne_nil_of_length_pos (Nat.zero_lt_of_lt hlt)
  obtain ⟨values, w, hrun, hcourse⟩ := hP.exists_runFrom (Nat.le_of_lt hlt) hfits
  obtain ⟨w', hstep⟩ := hcourse.exists_runStep_refused hP hi hshort
  have hsplit : q.instructions = q.instructions.take k ++ i :: q.instructions.drop (k + 1) := by
    rw [← hget, ← List.drop_eq_getElem_cons hlt, List.take_append_drop]
  refine ⟨w', (hP.run_eq hne _).trans (Action.bind_of_refused ?_)⟩
  conv_lhs => rw [hsplit]
  rw [runFrom_append, Action.bind_of_value hrun, Nat.zero_add,
    List.length_take_of_le (Nat.le_of_lt hlt), runFrom_cons]
  exact Action.bind_of_refused hstep

end Prepared

end Limited

/-- A program with the output of another is not empty unless the other is. -/
theorem instructions_ne_nil (hshape : q.last?.map Instruction.shape = p.last?.map Instruction.shape)
    (hne : p.instructions ≠ []) : q.instructions ≠ [] := by
  intro hnil
  rw [last?, last?, hnil, List.getLast?_nil, Option.map_none, eq_comm, Option.map_eq_none_iff,
    List.getLast?_eq_none_iff] at hshape
  exact hne hshape

/-- What is needed for a run on the device as it would be without its capacity. -/
theorem exists_prepared (hb : Built p) (hfree : ∀ i ∈ p.instructions, i.op.isTransfer = false)
    (hp : ∀ i ∈ p.instructions, i.shape.Populated)
    (hcompile : p.compile (.device id offload) w = .value q w') (hstart : start.Healthy)
    (hd : start.devices[id]? = some d) (hsupported : d.unsupported = [])
    (hheld : q.residents.Subperm start.held) (hhost : HostParameters params)
    (hcheck : checkParameters params q.parameters = .value ()) (hfits : Fits q.instructions)
    (hroomy : Roomy d.next q.instructions) :
    ∃ views pins last, Prepared (start.limit id none) id offload params views pins q
      (d.withCapacity none) last := by
  obtain ⟨hready, hparams, -⟩ := ready_of_compile hb hp (Or.inr ⟨id, offload, rfl⟩) hcompile
  have hpins := pinning_of_compile hb (Or.inr ⟨id, offload, rfl⟩) hcompile
  have honDevice := onDevice_of_compile hb.reached.sound hcompile
  obtain ⟨hfed, -, honly⟩ := fed_of_compile hb hcompile
  have hstays : StaysOnDevice q.instructions :=
    staysOnDevice_of_last hready.consistent fun k i hi hop => (honly hfree k i hi hop).2
  have hdeclared : ∀ name s, (name, s) ∈ q.parameters → s.Populated := fun name s hmem =>
    hb.unbound.wellFormed.populated hp (hparams ▸ hmem)
  have hdevice : (start.limit id none).devices[id]? = some (d.withCapacity none) := by
    rw [World.getElem?_limit_self, hd]
    rfl
  have hresidents : (q.residents ++
      (arguments params q).filterMap Argument.deviceBuffer?).Subperm start.held := by
    have hnone : (arguments params q).filterMap Argument.deviceBuffer? = [] :=
      List.filterMap_eq_nil_iff.mpr fun a ha => by
        obtain ⟨e, -, hlookup⟩ := List.mem_filterMap.mp ha
        exact (hhost e.1 a hlookup).deviceBuffer?_eq_none
    rwa [hnone, List.append_nil]
  obtain ⟨views, pins, hdeployed, hloaded⟩ := hready.exists_deployed hpins hfed hstays hdeclared
    (fun name a ha => (hhost name a ha).valid) hcheck hstart.limit hdevice ⟨rfl, hsupported⟩
    hresidents fun _ : True => ⟨hfits, hroomy⟩
  obtain ⟨last, hlast, hlength, hreads⟩ := exists_lastUses hready.consistent
  refine ⟨views, pins, last, hdeployed, hpins, honDevice, hstart.limit.firm,
    ⟨hheld.subset, fun name a ha => ?_⟩, hcheck, hdevice, rfl, hloaded, hroomy.1, hlast, hreads,
    hlength⟩
  rw [Argument.holds, (hhost name a ha).deviceBuffer?_eq_none]
  exact List.nil_subset _

theorem healthy_ofCapacity (capacity : Nat) :
    World.Healthy { devices := [.ofCapacity capacity] } := by
  refine ⟨fun d hd => ?_, fun _ hb => nomatch hb⟩
  rw [List.mem_singleton.mp hd]
  exact ⟨⟨some capacity, [], .refl⟩, rfl, _, rfl⟩

/-- A device with a capacity evaluates a program without transfers of its own just when each upload
and each launch finds room beside what was live before and the buffers of the values with a use to
come.  Otherwise it gets as far as the first that finds none: that one is refused for want of
memory, and the evaluation with it. -/
theorem run_within_capacity (hb : Built p) (hne : p.instructions ≠ [])
    (hfree : ∀ i ∈ p.instructions, i.op.isTransfer = false)
    (hp : ∀ i ∈ p.instructions, i.shape.Populated)
    (hcompile : p.compile (.device id offload) w = .value q w') (hstart : start.Healthy)
    (hd : start.devices[id]? = some d) (hcapacity : d.capacity = some capacity)
    (hsupported : d.unsupported = []) (hheld : q.residents.Subperm start.held)
    (hhost : HostParameters params) (hcheck : checkParameters params q.parameters = .value ())
    (hfits : Fits q.instructions) (hroomy : Roomy d.next q.instructions) :
    ((∃ a stop, q.run params start = .value a stop) ↔
      Affords d.stats.liveBytes capacity q.instructions) ∧
    ∀ k i, q.instructions[k]? = some i →
      (∀ m < k, AffordsAt d.stats.liveBytes capacity q.instructions m) →
      ¬AffordsAt d.stats.liveBytes capacity q.instructions k →
      (∀ m j, m < k → q.instructions[m]? = some j →
        ∃ a w₁, q.valueAt params m j start = .value a w₁) ∧
      ∃ w₁ stop,
        q.valueAt params k i start = .refused (.device .alloc (.outOfMemory i.bytes
          (d.stats.liveBytes + heldBytes q.instructions k) capacity)) w₁ ∧
        q.run params start = .refused (.device .alloc (.outOfMemory i.bytes
          (d.stats.liveBytes + heldBytes q.instructions k) capacity)) stop := by
  obtain ⟨views, pins, last, hP⟩ := exists_prepared hb hfree hp hcompile hstart hd hsupported hheld
    hhost hcheck hfits hroomy
  have hlimit : (start.limit id none).limit id (some capacity) = start :=
    World.limit_limit_of_capacity hd hcapacity
  obtain ⟨-, -, hshape, -⟩ := ready_of_compile hb hp (Or.inr ⟨id, offload, rfl⟩) hcompile
  have hne' : q.instructions ≠ [] := instructions_ne_nil hshape hne
  rw [← hlimit]
  refine ⟨⟨?_, fun hafford => ?_⟩, fun k i hi hbefore hshort => ⟨fun m j hm hj => ?_, ?_⟩⟩
  · rintro ⟨a, stop, hvalue⟩
    by_contra hno
    obtain ⟨k, i, hi, hbefore, hshort⟩ := exists_first_of_not_affords hno
    obtain ⟨stop', hstop⟩ := hP.exists_run_refused hi hbefore hshort
    rw [hvalue] at hstop
    cases hstop
  · exact hP.exists_run hne' hafford
  · exact hP.exists_valueAt hj fun n hn => hbefore n (Nat.lt_of_le_of_lt hn hm)
  · obtain ⟨w₁, hvalue⟩ := hP.exists_valueAt_refused hi hbefore hshort
    obtain ⟨stop, hrun⟩ := hP.exists_run_refused hi hbefore hshort
    exact ⟨w₁, stop, hvalue, hrun⟩

/-- A matrix of six floats is uploaded, and copied while a view of it is still to be read.  There is
room for both in 48 bytes; in 47 the copy is refused. -/
theorem run_within_capacity_twiceTransposed : ∃ q w,
    twiceTransposed.compile (.device 0 false) { devices := [.ofCapacity 48] } = .value q w ∧
    (∃ a stop, q.run [("x", oneToSix)] { devices := [.ofCapacity 48] } = .value a stop) ∧
    ∃ stop, q.run [("x", oneToSix)] { devices := [.ofCapacity 47] } =
      .refused (.device .alloc (.outOfMemory 24 24 47)) stop := by
  obtain ⟨q, w, hq, htest⟩ := Turn.exists_of_passes
    (show (twiceTransposed.compile (.device 0 false) { devices := [.ofCapacity 48] }).passes
      (fun q _ => decide (q.parameters = [("x", matrix)] ∧ q.residents = [] ∧
        Roomy 4096 q.instructions ∧ Affords 0 48 q.instructions ∧
        (∀ m < 4, AffordsAt 0 47 q.instructions m) ∧ ¬AffordsAt 0 47 q.instructions 4 ∧
        heldBytes q.instructions 4 = 24 ∧ q.instructions[4]?.map Instruction.bytes = some 24) &&
      q.instructions.all fitsAlone) = true by decide +kernel)
  rw [Bool.and_eq_true, decide_eq_true_iff] at htest
  obtain ⟨⟨hparams, hresidents, hroomy, hafford, hbefore, hshort, hheld, hbytes⟩, hfits⟩ := htest
  obtain ⟨i, hi, hbytes⟩ := Option.map_eq_some_iff.mp hbytes
  have hwithin := fun capacity => run_within_capacity built_twiceTransposed
    (List.cons_ne_nil _ _) (by decide) populated_twiceTransposed hq (healthy_ofCapacity capacity)
    rfl rfl rfl (hresidents ▸ List.nil_subperm) hostParameters_oneToSix
    (by rw [hparams]; rfl) (fits_of_all hfits) hroomy
  obtain ⟨-, stop, -, hrun⟩ := ((hwithin 47).2 4 i hi hbefore hshort).2
  refine ⟨q, w, hq, (hwithin 48).1.mpr hafford, stop, ?_⟩
  have hlive : (Device.ofCapacity 47).stats.liveBytes + heldBytes q.instructions 4 = 24 := by
    rw [hheld]
    rfl
  rw [hrun, hbytes, hlive]

end Program
end TensorGraph
