/-
Instructions on a device with a capacity.

Where an instruction makes a buffer for its value it comes to `allocate`, and makes nothing of the
capacity before or behind: `World.Makes`.  The other instructions, and all that a run does with
values, make nothing of it at all.
-/
import TensorGraph.Proofs.Device.Limit
import TensorGraph.Proofs.Isolation.Foretells
import TensorGraph.Proofs.Ownership.Evaluate
import TensorGraph.Proofs.Program.Demand

namespace TensorGraph

open TensorGraph.Action (Ignores)

variable {id : DeviceId} {c : Option Nat} {w w' u : World} {d : Device} {size capacity : Nat}
variable {a a' : Argument} {s : Shape} {op : Operator} {inputs : List Argument} {bytes : Bytes}

/-! ## Fresh buffers -/

namespace World

/-- Whether a computation gives what is in the buffer that it is handed, whatever the capacity
is. -/
structure Fills (id : DeviceId) (k : DeviceBuffer → Action World Argument) : Prop where
  ignores : ∀ c b, Ignores (limit id c) (k b)
  holds : ∀ {b w a w'}, k b w = .value a w' → a.holds = [b]

/-- Whether a computation in the world `w` comes, in the world `u`, to the making of a buffer for
what it gives, whatever the capacity is. -/
def Makes (id : DeviceId) (size : Nat) (x : Action World Argument) (w u : World) : Prop :=
  ∃ k, Fills id k ∧ x w = (allocate id size >>= k) u ∧
    ∀ c, x (w.limit id c) = (allocate id size >>= k) (u.limit id c)

namespace Makes

variable {x : Action World Argument}

/-- What is given is in a buffer that the device has just made. -/
theorem holds (h : Makes id size x w u) (hvalue : x w = .value a w') :
    ∃ d, u.devices[id]? = some d ∧ a.holds = [⟨id, d.next, size⟩] := by
  obtain ⟨k, hfills, hx, -⟩ := h
  rw [hx] at hvalue
  obtain ⟨b, w₁, halloc, hk⟩ := Action.bind_eq_value.mp hvalue
  obtain ⟨d, hd, -, rfl, -⟩ := allocate_eq_value halloc
  exact ⟨d, hd, hfills.holds hk⟩

theorem limit_of_le (h : Makes id size x w u) (hd : u.devices[id]? = some d)
    (hnone : d.capacity = none) (hle : d.stats.liveBytes + size ≤ capacity) :
    x (w.limit id (some capacity)) = (x w).map (limit id (some capacity)) := by
  obtain ⟨k, hfills, hx, hlimit⟩ := h
  rw [hx, hlimit]
  exact Action.bind_map (allocate_limit_of_le hd hnone hle) fun b _ _ => hfills.ignores _ b _

theorem limit_of_lt (h : Makes id size x w u) (hvalue : x w = .value a w')
    (hd : u.devices[id]? = some d) (hlt : capacity < d.stats.liveBytes + size) :
    x (w.limit id (some capacity)) =
      .refused (.device .alloc (.outOfMemory size d.stats.liveBytes capacity))
        ((u.setDevice id d).limit id (some capacity)) := by
  obtain ⟨k, hfills, hx, hlimit⟩ := h
  rw [hx] at hvalue
  obtain ⟨b, w₁, halloc, -⟩ := Action.bind_eq_value.mp hvalue
  rw [hlimit, Action.bind_of_refused (allocate_limit_of_lt hd halloc hlt)]

end Makes

/-! ## Kernels that make a buffer -/

theorem fills_launch (id : DeviceId) (op : Operator) (s : Shape) (inputs : List Argument) :
    Fills id fun b =>
      Action.onRefusal (do
        let result ← Argument.make s (.device b)
        let operands ← inputs.mapM fun a : Argument => operand a
        onDevice id (Device.launch op (← operand result) operands)
        return result) (releaseBuffer b) where
  ignores c b := by
    refine Ignores.onRefusal ?_ (ignores_releaseBuffer b)
    refine (Action.ignores_lift _).bind fun result => ?_
    rw [Action.mapM_lift]
    refine (Action.ignores_lift _).bind fun operands => ?_
    refine (Action.ignores_lift _).bind fun output => ?_
    exact (ignores_onDevice (Device.ignores_launch _ _ _) _).bind fun _ => Action.ignores_pure _
  holds h := by
    obtain ⟨result, _, hmake, h⟩ := Action.bind_eq_value.mp (Action.onRefusal_eq_value.mp h)
    obtain ⟨_, _, -, h⟩ := Action.bind_eq_value.mp h
    obtain ⟨_, _, -, h⟩ := Action.bind_eq_value.mp h
    obtain ⟨_, _, -, h⟩ := Action.bind_eq_value.mp h
    cases h
    exact holds_of_make_device (Action.ofOutcome_eq_value.mp hmake).1

theorem makes_launch {n : Nat} (hs : s.storageBytes = some n) (w : World) :
    Makes id n ((BoundKernel.launch op id).compute s inputs) w w := by
  have hcompute : ∀ w, (BoundKernel.launch op id).compute s inputs w = _ :=
    fun _ => Action.bind_lift_of_some hs
  exact ⟨_, fills_launch id op s inputs, hcompute w, fun c => hcompute (w.limit id c)⟩

theorem fills_upload (id : DeviceId) (bytes : Bytes) (s : Shape) :
    Fills id fun b => do
      (onDevice id (Device.copyin bytes b.address)).onRefusal (releaseBuffer b)
      place s b where
  ignores c b := by
    refine Ignores.bind ?_ fun _ => ignores_place s b
    exact (ignores_onDevice (Device.ignores_copyin _ _) _).onRefusal (ignores_releaseBuffer b)
  holds h := by
    obtain ⟨_, _, -, h⟩ := Action.bind_eq_value.mp h
    exact holds_of_make_device (Action.ofOutcome_eq_value.mp (Action.onRefusal_eq_value.mp h)).1

theorem makes_sendHost (hbytes : a.hostBytes = .value bytes) (w : World) :
    Makes id bytes.size (sendHost id a) w w := by
  have hsend : sendHost id a = (do
      let b ← allocate id bytes.size
      (onDevice id (Device.copyin bytes b.address)).onRefusal (releaseBuffer b)
      place a.shape b) := by
    funext w
    unfold sendHost uploadAs upload
    rw [Action.bind_lift_of_value hbytes]
    simp only [bind_assoc, pure_bind]
  exact ⟨_, fills_upload id bytes a.shape, congrFun hsend w, fun c => congrFun hsend (w.limit id c)⟩

theorem makes_toDevice_of_host (ha : a.location ≠ some .device)
    (hbytes : a.hostBytes = .value bytes) (w : World) :
    Makes id bytes.size (toDevice id a) w w := by
  unfold toDevice
  rw [if_neg ha]
  exact makes_sendHost hbytes w

/-- What is on a device goes through the host. -/
theorem makes_toDevice_of_device (ha : a.location = some .device)
    (hvalue : toHost a w = .value a' u) (hbytes : a'.hostBytes = .value bytes) :
    Makes id bytes.size (toDevice id a) w u := by
  have hmakes : Makes id bytes.size (sendHost id a') u u := makes_sendHost hbytes u
  obtain ⟨k, hfills, hsend, hlimit⟩ := hmakes
  refine ⟨k, hfills, ?_, fun c => ?_⟩
  · unfold toDevice
    rw [if_pos ha, Action.bind_of_value hvalue, hsend]
  · have hvalue' : toHost a (w.limit id c) = .value a' (u.limit id c) := by
      rw [ignores_toHost a w, hvalue]
      rfl
    unfold toDevice
    rw [if_pos ha, Action.bind_of_value hvalue', hlimit]

end World

/-! ## Kernels that make none -/

open World (limit)

theorem BoundKernel.ignores_compute {k : BoundKernel} (hupload : ∀ i, k ≠ .upload i)
    (hlaunch : ∀ op i, k ≠ .launch op i) (s : Shape) (inputs : List Argument) :
    Ignores (limit id c) (k.compute s inputs) := by
  cases k with
  | host op =>
    refine World.ignores_freshKey.bind fun key => (Action.ignores_lift _).bind fun a => ?_
    exact (World.ignores_retain a).bind fun _ => Action.ignores_pure a
  | literal l => exact Action.ignores_pure _
  | resident a => exact (World.ignores_retain a).bind fun _ => Action.ignores_pure a
  | upload i => exact absurd rfl (hupload i)
  | download =>
    cases inputs with
    | nil => exact Action.ignores_halt
    | cons a _ => exact World.ignores_toHost a
  | view name =>
    cases inputs with
    | nil => exact Action.ignores_halt
    | cons a _ =>
      refine (Action.ignores_lift _).bind fun b => ?_
      exact (World.ignores_retain b).bind fun _ => Action.ignores_pure b
  | launch op i => exact absurd rfl (hlaunch op i)

namespace Program

variable {params : Parameters} {k output : Nat} {i : Instruction} {values values' : Values}
variable {last : List (Option Nat)} {is : List Instruction}

/-- An instruction that makes no buffer makes nothing of the capacity. -/
theorem ignores_instructionValue (h : i.allocates = false) :
    Ignores (limit id c) (instructionValue params k i values) := by
  cases hp : i.isParameter with
  | true =>
    obtain ⟨name, s, hop⟩ := exists_parameter hp
    rcases Option.eq_none_or_eq_some (params.lookup name) with hnone | ⟨a, ha⟩
    · rw [instructionValue_of_missing hop hnone]
      exact Action.ignores_refuse _
    · rw [instructionValue_of_parameter hop ha]
      exact (World.ignores_retain a).bind fun _ => Action.ignores_pure a
  | false =>
    unfold Instruction.allocates at h
    cases hk : i.kernel with
    | none =>
      rw [instructionValue_of_unbound hp hk]
      exact Action.ignores_refuse _
    | some kernel =>
      rw [instructionValue_of_kernel hp hk]
      rw [hk] at h
      refine (Action.ignores_lift _).bind fun inputs => ?_
      refine BoundKernel.ignores_compute ?_ ?_ _ _
      · rintro _ rfl
        cases h
      · rintro _ _ rfl
        cases h

/-! ## What a run does with values -/

theorem ignores_releaseValues (values : Values) : Ignores (limit id c) (releaseValues values) :=
  Action.ignores_forEach World.ignores_release _

theorem ignores_releaseDead (values : Values) (inputs : List Nat) :
    Ignores (limit id c) (releaseDead last k values inputs) := by
  induction inputs generalizing values with
  | nil => exact Action.ignores_pure _
  | cons r rest ih =>
    rcases releaseDead_cons last k values r rest with ⟨a, -, heq, -⟩ | ⟨heq, -⟩
    · rw [heq]
      exact (World.ignores_release a).bind fun _ => ih _
    · rw [heq]
      exact ih _

theorem ignores_settling (a : Argument) :
    Ignores (limit id c) (settling last output k i values a) := by
  have hreleasing : Ignores (limit id c) (releasing last output k i values a) := by
    unfold releasing
    split
    · exact ignores_releaseDead _ _
    · refine (ignores_releaseDead _ _).bind fun values => ?_
      exact (World.ignores_release a).bind fun _ => Action.ignores_pure _
  refine Action.ignores_get_bind fun w => ?_
  rw [World.settings_limit]
  split
  · exact ((World.ignores_note _ _).bind fun _ => hreleasing) w
  · exact hreleasing w

end Program
end TensorGraph
