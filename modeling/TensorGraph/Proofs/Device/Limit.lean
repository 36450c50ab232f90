/-
Devices that differ in their capacity only.

A capacity plays a part where memory is allocated, and nowhere else.  `Action.Ignores` says that a
computation makes nothing of a change of the state and passes it on; it is carried through the
ways in which computations are put together, so each call of a device but `alloc` ignores what the
capacity is, and each operation on a world that allocates nothing does.  `allocate_limit_of_le` and
`allocate_limit_of_lt` are the two ways in which a capacity matters.
-/
import TensorGraph.Proofs.Device.Allocate
import TensorGraph.Proofs.Device.World
import TensorGraph.Proofs.Program.Start

namespace TensorGraph

variable {α β σ : Type} {f : σ → σ}

def Turn.map (f : σ → σ) : Turn σ α → Turn σ α
  | .value a s => .value a (f s)
  | .refused e s => .refused e (f s)
  | .halted => .halted

theorem Turn.Leaves.map {x : Turn σ α} {s : σ} (h : x.Leaves s) : (x.map f).Leaves (f s) := by
  rcases h with ⟨a, rfl⟩ | ⟨e, rfl⟩
  · exact Or.inl ⟨a, rfl⟩
  · exact Or.inr ⟨e, rfl⟩

namespace Action

variable {x : Action σ α} {k : α → Action σ β} {s : σ}

/-- Whether a computation makes nothing of a change of the state, and passes it on. -/
def Ignores (f : σ → σ) (x : Action σ α) : Prop := ∀ s, x (f s) = (x s).map f

theorem ignores_pure (a : α) : Ignores f (pure a) := fun _ => rfl

theorem ignores_refuse (e : Error) : Ignores f (refuse e : Action σ α) := fun _ => rfl

theorem ignores_halt : Ignores f (halt : Action σ α) := fun _ => rfl

theorem ignores_lift (x : Outcome α) : Ignores f (liftM x : Action σ α) := by
  intro s
  rw [lift_apply, lift_apply]
  cases x <;> rfl

theorem ignores_option (x : Option α) : Ignores f (liftM x : Action σ α) :=
  ignores_lift (Outcome.ofOption x)

theorem ignores_modify {g : σ → σ} (h : ∀ s, g (f s) = f (g s)) : Ignores f (modify g) := by
  intro s
  rw [modify_apply, modify_apply, h]
  rfl

theorem bind_map (h : x (f s) = (x s).map f) (hk : ∀ a s', x s = .value a s' →
    k a (f s') = (k a s').map f) : (x >>= k) (f s) = ((x >>= k) s).map f := by
  rw [Action.bind_apply, Action.bind_apply, h]
  cases hx : x s with
  | value a s' => exact hk a s' hx
  | refused e s' => rfl
  | halted => rfl

theorem Ignores.bind (h : Ignores f x) (hk : ∀ a, Ignores f (k a)) : Ignores f (x >>= k) :=
  fun s => bind_map (h s) fun a s' _ => hk a s'

/-- What is read from the state may play a part as long as the end is the same. -/
theorem ignores_get_bind {k : σ → Action σ β} (h : ∀ s, k (f s) (f s) = (k s s).map f) :
    Ignores f (get >>= k) := h

theorem onRefusal_map {cleanup : Action σ Unit} (h : x (f s) = (x s).map f)
    (hc : Ignores f cleanup) : x.onRefusal cleanup (f s) = (x.onRefusal cleanup s).map f := by
  unfold Action.onRefusal
  rw [h]
  cases x s with
  | value a s' => rfl
  | halted => rfl
  | refused e s' =>
    dsimp only [Turn.map]
    rw [hc s']
    cases cleanup s' <;> rfl

theorem Ignores.onRefusal {cleanup : Action σ Unit} (h : Ignores f x) (hc : Ignores f cleanup) :
    Ignores f (x.onRefusal cleanup) := fun s => onRefusal_map (h s) hc

theorem Ignores.attempt (h : Ignores f x) : Ignores f x.attempt := by
  intro s
  unfold Action.attempt
  rw [h s]
  cases x s <;> rfl

theorem ignores_forEach {g : α → Action σ Unit} (h : ∀ a, Ignores f (g a)) (as : List α) :
    Ignores f (forEach g as) := by
  induction as with
  | nil => exact ignores_pure ()
  | cons a as ih => exact (h a).bind fun _ => ih

end Action

open TensorGraph.Action (Ignores)

/-! ## Calls of a device -/

namespace Device

variable {d d' : Device} {c : Option Nat} {bytes : Nat}

def withCapacity (c : Option Nat) (d : Device) : Device := { d with capacity := c }

@[simp] theorem memory_withCapacity : (d.withCapacity c).memory = d.memory := rfl

@[simp] theorem queue_withCapacity : (d.withCapacity c).queue = d.queue := rfl

@[simp] theorem failure_withCapacity : (d.withCapacity c).failure = d.failure := rfl

theorem ignores_flush : Ignores (withCapacity c) flush := by
  intro d
  unfold flush
  rw [memory_withCapacity, queue_withCapacity]
  rcases d.memory.runAll d.queue with _ | ⟨m, _ | stop⟩ <;> rfl

theorem ignores_settle : Ignores (withCapacity c) settle := by
  refine ignores_flush.bind fun _ => Action.ignores_get_bind fun d => ?_
  rw [failure_withCapacity]
  cases d.failure <;> rfl

theorem ignores_allocation (call : DeviceCall) (address : Nat) :
    Ignores (withCapacity c) (allocation call address) := by
  refine Action.ignores_get_bind fun d => ?_
  rw [memory_withCapacity]
  cases d.memory.find? address <;> rfl

theorem ignores_free (address : Nat) : Ignores (withCapacity c) (free address) := by
  refine ignores_flush.bind fun _ => Action.ignores_get_bind fun d => ?_
  rw [memory_withCapacity]
  cases d.memory.find? address <;> rfl

theorem ignores_copyin (bytes : Bytes) (address : Nat) :
    Ignores (withCapacity c) (copyin bytes address) := by
  refine ignores_settle.bind fun _ => (ignores_allocation _ _).bind fun old => ?_
  split
  · exact Action.ignores_refuse _
  · exact Action.ignores_modify fun _ => rfl

theorem ignores_copyout (address len : Nat) :
    Ignores (withCapacity c) (copyout address len) := by
  refine ignores_settle.bind fun _ => (ignores_allocation _ _).bind fun bytes => ?_
  split
  · exact Action.ignores_refuse _
  · exact Action.ignores_pure _

theorem ignores_requireFits (operand : Operand) :
    Ignores (withCapacity c) (requireFits operand) := by
  refine (ignores_allocation _ _).bind fun bytes => (Action.ignores_option _).bind fun n => ?_
  split
  · exact Action.ignores_refuse _
  · exact Action.ignores_pure _

theorem ignores_launch (op : Operator) (output : Operand) (inputs : List Operand) :
    Ignores (withCapacity c) (launch op output inputs) := by
  have hqueue : Ignores (withCapacity c) (do
      Action.forEach requireFits (inputs ++ [output])
      modify fun d => d.queued ⟨op, output, inputs⟩ : Action Device Unit) :=
    (Action.ignores_forEach ignores_requireFits _).bind fun _ => Action.ignores_modify fun _ => rfl
  refine Action.ignores_get_bind fun d => ?_
  have hsupports : (withCapacity c d).supports op output.shape.dtype =
    d.supports op output.shape.dtype := rfl
  rw [hsupports]
  split
  · rfl
  · split
    · rfl
    · exact hqueue d

theorem ignores_synchronize : Ignores (withCapacity c) synchronize := by
  refine Ignores.bind ?_ fun _ => ignores_settle
  exact Action.ignores_modify fun _ => rfl

theorem alloc_withCapacity_of_le {capacity : Nat} (hd : d.capacity = none)
    (hle : d.stats.liveBytes + bytes ≤ capacity) :
    alloc bytes (d.withCapacity (some capacity)) =
      (alloc bytes d).map (withCapacity (some capacity)) := by
  have hroom : (d.withCapacity (some capacity)).Room bytes ↔ d.Room bytes := Iff.rfl
  have hwithin : ¬(d.withCapacity (some capacity)).Exceeds bytes := by
    rintro ⟨_, hsome, -, hlt⟩
    cases hsome
    exact absurd hlt (Nat.not_lt.mpr hle)
  rcases alloc_cases d bytes with ⟨hvalue, hyes, -⟩ | ⟨_, hsome, -⟩ | ⟨hhalt, hno, -⟩
  · rcases alloc_cases (d.withCapacity (some capacity)) bytes with
      ⟨hvalue', -⟩ | ⟨_, -, hexceeds, -⟩ | ⟨-, hno, -⟩
    · rw [hvalue, hvalue']
      rfl
    · exact absurd hexceeds hwithin
    · exact absurd (hroom.mpr hyes) hno
  · rw [hd] at hsome
    cases hsome
  · rcases alloc_cases (d.withCapacity (some capacity)) bytes with
      ⟨-, hyes, -⟩ | ⟨_, -, hexceeds, -⟩ | ⟨hhalt', -⟩
    · exact absurd (hroom.mp hyes) hno
    · exact absurd hexceeds hwithin
    · rw [hhalt, hhalt']
      rfl

theorem alloc_withCapacity_of_lt {capacity : Nat}
    (hroom : d.stats.liveBytes + bytes ≤ Word.maxUnsigned)
    (hlt : capacity < d.stats.liveBytes + bytes) :
    alloc bytes (d.withCapacity (some capacity)) =
      .refused (.device .alloc (.outOfMemory bytes d.stats.liveBytes capacity))
        (d.withCapacity (some capacity)) := by
  have hexceeds : (d.withCapacity (some capacity)).Exceeds bytes := ⟨capacity, rfl, hroom, hlt⟩
  rcases alloc_cases (d.withCapacity (some capacity)) bytes with
    ⟨-, -, hno⟩ | ⟨_, hsome, -, hrefused⟩ | ⟨-, -, hno⟩
  · exact absurd hexceeds hno
  · cases hsome
    exact hrefused
  · exact absurd hexceeds hno

/-! ## Reached devices -/

/-- A call is made without the capacity as well, or changes nothing. -/
theorem Step.withoutCapacity (h : Step d d') :
    Relation.ReflTransGen Step (d.withCapacity none) (d'.withCapacity none) := by
  have hleaves : ∀ {α : Type} {call : Action Device α}, Ignores (Device.withCapacity none) call →
      (call d).Leaves d' → (call (d.withCapacity none)).Leaves (d'.withCapacity none) := by
    intro α call hcall hleaves
    rw [hcall d]
    exact hleaves.map
  cases h with
  | @alloc _ bytes h =>
    rcases alloc_cases d bytes with ⟨hvalue, hroom, -⟩ | ⟨_, -, -, hrefused⟩ | ⟨hhalt, -⟩
    · rw [hvalue] at h
      obtain ⟨_, heq⟩ | ⟨_, heq⟩ := h <;> cases heq
      rcases alloc_cases (d.withCapacity none) bytes with
        ⟨hvalue', -⟩ | ⟨_, hsome, -⟩ | ⟨-, hno, -⟩
      · exact .single (.alloc (Or.inl ⟨_, hvalue'⟩))
      · cases hsome
      · exact absurd hroom hno
    · rw [hrefused] at h
      obtain ⟨_, heq⟩ | ⟨_, heq⟩ := h <;> cases heq
      exact .refl
    · rw [hhalt] at h
      obtain ⟨_, heq⟩ | ⟨_, heq⟩ := h <;> cases heq
  | free h => exact .single (.free (hleaves (ignores_free _) h))
  | copyin h => exact .single (.copyin (hleaves (ignores_copyin _ _) h))
  | copyout h => exact .single (.copyout (hleaves (ignores_copyout _ _) h))
  | launch h => exact .single (.launch (hleaves (ignores_launch _ _ _) h))
  | synchronize h => exact .single (.synchronize (hleaves ignores_synchronize h))
  | collect => exact .single .collect

theorem Reached.withoutCapacity (h : d.Reached) : (d.withCapacity none).Reached := by
  obtain ⟨capacity, unsupported, hpath⟩ := h
  refine ⟨none, unsupported, ?_⟩
  induction hpath with
  | refl => exact .refl
  | tail _ hstep ih => exact ih.trans hstep.withoutCapacity

theorem Healthy.withoutCapacity (h : d.Healthy) : (d.withCapacity none).Healthy :=
  ⟨h.reached.withoutCapacity, h.failure, h.settles⟩

end Device

/-! ## Operations on a world -/

namespace World

variable {w : World} {id i : DeviceId} {c : Option Nat} {d : Device} {size : Nat}

def limit (id : DeviceId) (c : Option Nat) (w : World) : World :=
  { w with devices := w.devices.modify id (Device.withCapacity c) }

@[simp] theorem held_limit : (w.limit id c).held = w.held := rfl

@[simp] theorem settings_limit : (w.limit id c).settings = w.settings := rfl

theorem getElem?_limit_self :
    (w.limit id c).devices[id]? = w.devices[id]?.map (Device.withCapacity c) := by
  show (w.devices.modify id _)[id]? = _
  rw [List.getElem?_modify]
  simp

theorem getElem?_limit_ne (hi : i ≠ id) : (w.limit id c).devices[i]? = w.devices[i]? := by
  show (w.devices.modify id _)[i]? = _
  rw [List.getElem?_modify]
  simp [Ne.symm hi]

theorem limit_limit_of_capacity (hd : w.devices[id]? = some d) (hc : d.capacity = c) :
    (w.limit id none).limit id c = w := by
  have hdevices : (w.devices.modify id (Device.withCapacity none)).modify id
      (Device.withCapacity c) = w.devices := by
    apply List.ext_getElem?
    intro i
    rw [List.getElem?_modify, List.getElem?_modify]
    by_cases hi : id = i
    · subst hi hc
      rw [hd]
      simp [Device.withCapacity]
    · simp [hi]
  unfold limit
  dsimp only
  rw [hdevices]

theorem Healthy.limit (h : w.Healthy) : (w.limit id none).Healthy where
  devices e he := by
    obtain ⟨i, hi⟩ := List.mem_iff_getElem?.mp he
    by_cases heq : i = id
    · subst heq
      rw [getElem?_limit_self] at hi
      obtain ⟨d, hd, rfl⟩ := Option.map_eq_some_iff.mp hi
      exact (h.devices d (List.mem_of_getElem? hd)).withoutCapacity
    · rw [getElem?_limit_ne heq] at hi
      exact h.devices e (List.mem_of_getElem? hi)
  allocated b hb := by
    obtain ⟨d, hd, hfind⟩ := h.allocated b hb
    by_cases heq : b.device = id
    · subst heq
      rw [getElem?_limit_self, hd]
      exact ⟨_, rfl, hfind⟩
    · rw [getElem?_limit_ne heq]
      exact ⟨d, hd, hfind⟩

theorem setDevice_limit_self (d : Device) :
    (w.limit id c).setDevice id (d.withCapacity c) = (w.setDevice id d).limit id c := by
  have hdevices : (w.devices.modify id (Device.withCapacity c)).set id
      { d.withCapacity c with notices := [] } =
        (w.devices.set id { d with notices := [] }).modify id (Device.withCapacity c) := by
    apply List.ext_getElem?
    intro j
    rw [List.getElem?_set, List.getElem?_modify, List.getElem?_modify, List.getElem?_set,
      List.length_modify]
    by_cases hj : id = j
    · subst hj
      by_cases hlt : id < w.devices.length
      · simp only [if_pos hlt, if_true]
        rfl
      · simp [hlt]
    · simp [hj]
  unfold setDevice limit
  dsimp only
  rw [hdevices]
  rfl

theorem setDevice_limit_ne (hi : i ≠ id) (d : Device) :
    (w.limit id c).setDevice i d = (w.setDevice i d).limit id c := by
  have hdevices : (w.devices.modify id (Device.withCapacity c)).set i { d with notices := [] } =
      (w.devices.set i { d with notices := [] }).modify id (Device.withCapacity c) := by
    apply List.ext_getElem?
    intro j
    rw [List.getElem?_set, List.getElem?_modify, List.getElem?_modify, List.getElem?_set,
      List.length_modify]
    by_cases hj : i = j
    · subst hj
      simp [Ne.symm hi]
    · simp [hj]
  unfold setDevice limit
  dsimp only
  rw [hdevices]

theorem onDevice_limit_self {call : Action Device α} (hd : w.devices[id]? = some d)
    (h : call (d.withCapacity c) = (call d).map (Device.withCapacity c)) :
    onDevice id call (w.limit id c) = (onDevice id call w).map (limit id c) := by
  unfold onDevice
  rw [getElem?_limit_self, hd]
  dsimp only [Option.map_some]
  rw [h]
  cases call d with
  | value a d' => exact congrArg _ (setDevice_limit_self d')
  | refused e d' => exact congrArg _ (setDevice_limit_self d')
  | halted => rfl

theorem onDevice_limit_ne (hi : i ≠ id) (call : Action Device α) :
    onDevice i call (w.limit id c) = (onDevice i call w).map (limit id c) := by
  unfold onDevice
  rw [getElem?_limit_ne hi]
  cases w.devices[i]? with
  | none => rfl
  | some d =>
    dsimp only
    cases call d with
    | value a d' => exact congrArg _ (setDevice_limit_ne hi d')
    | refused e d' => exact congrArg _ (setDevice_limit_ne hi d')
    | halted => rfl

theorem ignores_onDevice {call : Action Device α} (h : Ignores (Device.withCapacity c) call)
    (i : DeviceId) : Ignores (limit id c) (onDevice i call) := by
  intro w
  by_cases hi : i = id
  · subst hi
    rcases Option.eq_none_or_eq_some w.devices[i]? with hnone | ⟨d, hd⟩
    · unfold onDevice
      rw [getElem?_limit_self, hnone]
      rfl
    · exact onDevice_limit_self hd (h d)
  · exact onDevice_limit_ne hi call

theorem ignores_note (level : Level) (text : String) :
    Ignores (limit id c) (note level text) := Action.ignores_modify fun _ => rfl

theorem ignores_freshKey : Ignores (limit id c) freshKey := fun _ => rfl

theorem ignores_retainBuffer (b : DeviceBuffer) : Ignores (limit id c) (retainBuffer b) :=
  Action.ignores_modify fun _ => rfl

theorem ignores_releaseBuffer (b : DeviceBuffer) : Ignores (limit id c) (releaseBuffer b) := by
  refine Ignores.bind (Action.ignores_modify fun _ => rfl) fun _ =>
    Action.ignores_get_bind fun w => ?_
  rw [held_limit]
  split
  · refine ((ignores_onDevice (Device.ignores_free _) _).attempt.bind fun result => ?_) w
    cases result with
    | ok _ => exact Action.ignores_pure ()
    | error e => exact ignores_note _ _
  · rfl

theorem ignores_retain (a : Argument) : Ignores (limit id c) (retain a) := by
  unfold retain
  cases a.deviceBuffer? with
  | none => exact Action.ignores_pure ()
  | some b => exact ignores_retainBuffer b

theorem ignores_release (a : Argument) : Ignores (limit id c) (release a) := by
  unfold release
  cases a.deviceBuffer? with
  | none => exact Action.ignores_pure ()
  | some b => exact ignores_releaseBuffer b

theorem ignores_download (b : DeviceBuffer) : Ignores (limit id c) (download b) := by
  refine (ignores_onDevice Device.ignores_synchronize _).bind fun _ => ?_
  refine ignores_freshKey.bind fun key => (Action.ignores_option _).bind fun host => ?_
  exact (ignores_onDevice (Device.ignores_copyout _ _) _).bind fun _ => Action.ignores_pure _

theorem ignores_toHost (a : Argument) : Ignores (limit id c) (toHost a) := by
  have hmake : ∀ host : HostBuffer, Ignores (limit id c)
      (do return ← Argument.make a.shape (.host host) : Action World Argument) :=
    fun host => Action.ignores_lift _
  refine (Action.ignores_lift _).bind fun storage => ?_
  cases storage with
  | device b => exact (ignores_download b).bind hmake
  | host b =>
    refine (Action.ignores_lift _).bind fun bytes => ignores_freshKey.bind fun key => ?_
    exact hmake _

theorem ignores_place (s : Shape) (b : DeviceBuffer) : Ignores (limit id c) (place s b) :=
  Ignores.onRefusal (Action.ignores_lift _) (ignores_releaseBuffer b)

/-! ## Fresh buffers -/

theorem allocate_limit_of_le {capacity : Nat} (hd : w.devices[id]? = some d)
    (hcapacity : d.capacity = none) (hle : d.stats.liveBytes + size ≤ capacity) :
    allocate id size (w.limit id (some capacity)) =
      (allocate id size w).map (limit id (some capacity)) := by
  refine Action.bind_map (onDevice_limit_self hd (Device.alloc_withCapacity_of_le hcapacity hle)) ?_
  exact fun _ w' _ => rfl

theorem allocate_limit_of_lt {capacity : Nat} {b : DeviceBuffer} {w' : World}
    (hd : w.devices[id]? = some d) (hvalue : allocate id size w = .value b w')
    (hlt : capacity < d.stats.liveBytes + size) :
    allocate id size (w.limit id (some capacity)) =
      .refused (.device .alloc (.outOfMemory size d.stats.liveBytes capacity))
        ((w.setDevice id d).limit id (some capacity)) := by
  obtain ⟨d₁, hd₁, hroom, -⟩ := allocate_eq_value hvalue
  rw [hd] at hd₁
  cases hd₁
  have hrefused := Device.alloc_withCapacity_of_lt hroom.2.2 hlt
  unfold allocate
  rw [Action.bind_apply]
  unfold onDevice
  rw [getElem?_limit_self, hd]
  dsimp only [Option.map_some]
  rw [hrefused]
  dsimp only
  rw [setDevice_limit_self]

end World
end TensorGraph
