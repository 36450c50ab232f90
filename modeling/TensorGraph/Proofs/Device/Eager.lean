/-
Queued launches against launches that run at once.

An eager device runs every launch that it accepts inside the call itself.  At every point of a
sequence of calls it is the device of the model with its queue run (`Lags`): the calls that look
at memory run the queue first, and a new allocation lies apart from what the queue names.  So
where no accepted launch fails, no caller can tell the two devices apart:
`deferral_unobservable`.

A launch may be accepted that reads behind an allocation, with elements wider than those of its
operand.  What is there when it runs is not decided by the calls, so such launches count as failing
(`Launch.StaysInside`).
-/
import TensorGraph.Proofs.Device.Reached

namespace TensorGraph

namespace Turn

variable {α σ τ : Type}

def state? : Turn σ α → Option σ
  | value _ s => some s
  | refused _ s => some s
  | halted => none

/-- Whether two computations end the same way, in states that are related. -/
inductive Matches (R : σ → τ → Prop) : Turn σ α → Turn τ α → Prop
  | value (a : α) {s : σ} {t : τ} : R s t → Matches R (.value a s) (.value a t)
  | refused (e : Error) {s : σ} {t : τ} : R s t → Matches R (.refused e s) (.refused e t)
  | halted : Matches R .halted .halted

theorem Matches.states {R : σ → τ → Prop} {x : Turn σ α} {y : Turn τ α} (h : x.Matches R y) :
    (∃ s t, x.state? = some s ∧ y.state? = some t ∧ R s t) ∨ x.state? = none ∧ y.state? = none := by
  cases h with
  | value a h => exact Or.inl ⟨_, _, rfl, rfl, h⟩
  | refused e h => exact Or.inl ⟨_, _, rfl, rfl, h⟩
  | halted => exact Or.inr ⟨rfl, rfl⟩

theorem matches_self {R : σ → σ → Prop} {P : σ → Prop} {x : Turn σ α} (h : x.Always P)
    (hP : ∀ s, P s → R s s) : x.Matches R x := by
  cases x with
  | value a s => exact .value a (hP s h)
  | refused e s => exact .refused e (hP s h)
  | halted => exact .halted

/-- What follows without touching the state plays no part. -/
theorem Matches.map {β : Type} {R : σ → τ → Prop} {x : Action σ α} {y : Action τ α} {s : σ} {t : τ}
    (h : (x s).Matches R (y t)) (f : α → β) :
    ((do return f (← x) : Action σ β) s).Matches R ((do return f (← y) : Action τ β) t) := by
  rw [Action.bind_apply, Action.bind_apply]
  revert h
  generalize x s = turn
  generalize y t = turn'
  intro h
  cases h with
  | value a h => exact .value (f a) h
  | refused e h => exact .refused e h
  | halted => exact .halted

end Turn

/-! ## Elements inside an allocation -/

/-- Whether the elements of an operand, taken as `size` bytes each, lie inside `count` bytes. -/
def Operand.Inside (o : Operand) (size count : Nat) : Prop :=
  ∀ idx ∈ Index.indices o.shape.lens, Index.offset idx o.shape.axes * size + size ≤ count

instance (o : Operand) (size count : Nat) : Decidable (o.Inside size count) :=
  inferInstanceAs (Decidable (∀ idx ∈ Index.indices o.shape.lens, _))

/-- Whether all that a launch reads lies in the allocations of its inputs, which are made of words
of eight bytes. -/
def Launch.StaysInside (l : Launch) (m : Memory) : Prop :=
  ∀ i ∈ l.inputs, ∃ bytes, m.find? i.address = some bytes ∧
    i.Inside l.output.shape.dtype.size ((bytes.size + 7) / 8 * 8)

/-- Whether a launch runs to its end and reads nothing that is not allocated to its inputs. -/
structure Launch.Completes (l : Launch) (m : Memory) : Prop where
  value : ∃ m', m.execute l = .value m'
  inside : l.StaysInside m

theorem Memory.SameSizes.symm {m m' : Memory} (h : m.SameSizes m') : m'.SameSizes m :=
  fun address => (h address).symm

/-- The elements that are read play no part. -/
theorem Launch.StaysInside.congr {l : Launch} {m m' : Memory} (h : l.StaysInside m)
    (hsizes : m.SameSizes m') : l.StaysInside m' := by
  intro i hi
  obtain ⟨bytes, hbytes, hinside⟩ := h i hi
  obtain ⟨new, hnew, hsize⟩ := hsizes.find? hbytes
  exact ⟨new, hnew, hsize ▸ hinside⟩

namespace Device

/-! ## Calls -/

/-- Takes a launch and runs it at once, and reports its failure. -/
def launchNow (op : Operator) (output : Operand) (inputs : List Operand) : Action Device Unit := do
  launch op output inputs
  settle

inductive Call
  | alloc (bytes : Nat)
  | free (address : Nat)
  | copyin (bytes : Bytes) (address : Nat)
  | copyout (address len : Nat)
  | launch (op : Operator) (output : Operand) (inputs : List Operand)
  | synchronize

inductive Reply
  | done
  | address (address : Nat)
  | bytes (bytes : Bytes)

/-- How a device takes launches. -/
abbrev Launcher := Operator → Operand → List Operand → Action Device Unit

def Call.perform (submit : Launcher) : Call → Action Device Reply
  | alloc bytes => do return .address (← Device.alloc bytes)
  | free address => do
    Device.free address
    return .done
  | copyin bytes address => do
    Device.copyin bytes address
    return .done
  | copyout address len => do return .bytes (← Device.copyout address len)
  | launch op output inputs => do
    submit op output inputs
    return .done
  | synchronize => do
    Device.synchronize
    return .done

/-- What there is to see of a call: how it ended, and what the device has counted then. -/
inductive Seen
  | value (reply : Reply) (stats : DeviceStats)
  | refused (e : Error) (stats : DeviceStats)
  | halted

def Seen.of : Turn Device Reply → Seen
  | .value reply d => .value reply d.stats
  | .refused e d => .refused e d.stats
  | .halted => .halted

/-- What there is to see of calls in a row.  Nothing follows a call that halts. -/
def trace (submit : Launcher) : List Call → Device → List Seen
  | [], _ => []
  | call :: rest, d =>
    Seen.of (call.perform submit d) ::
      match (call.perform submit d).state? with
      | some next => trace submit rest next
      | none => []

def after (submit : Launcher) : List Call → Device → Option Device
  | [], d => some d
  | call :: rest, d =>
    match (call.perform submit d).state? with
    | some next => after submit rest next
    | none => none

/-- What every call preserves holds behind calls in a row. -/
theorem always_after {P : Device → Prop} {submit : Launcher}
    (hstep : ∀ d (call : Call), P d → (call.perform submit d).Always P) {calls : List Call}
    {d d' : Device} (h : P d) (hafter : after submit calls d = some d') : P d' := by
  induction calls generalizing d with
  | nil =>
    cases hafter
    exact h
  | cons call rest ih =>
    have hnext := hstep d call h
    rw [after] at hafter
    cases hturn : call.perform submit d with
    | value reply next =>
      rw [hturn] at hafter hnext
      exact ih hnext hafter
    | refused e next =>
      rw [hturn] at hafter hnext
      exact ih hnext hafter
    | halted =>
      rw [hturn] at hafter
      cases hafter

/-- The launch that a call makes a device accept, and the memory that it is accepted in. -/
def Call.accepted : Call → Device → List (Launch × Memory)
  | launch op output inputs, d =>
    match Device.launch op output inputs d with
    | .value _ _ => [(⟨op, output, inputs⟩, d.memory)]
    | _ => []
  | _, _ => []

/-- The launches that an eager device runs in the course of calls, each with the memory that it
runs on. -/
def history : List Call → Device → List (Launch × Memory)
  | [], _ => []
  | call :: rest, d =>
    call.accepted d ++
      match (call.perform launchNow d).state? with
      | some next => history rest next
      | none => []

/-- Whether the queue runs to its end at every point of a sequence of calls, and nothing in it
reads behind the allocations of its inputs, which keep their sizes as launches run. -/
def Faultless (calls : List Call) (d : Device) : Prop :=
  ∀ made, made <+: calls → ∀ d', after launch made d = some d' →
    (∃ m, d'.memory.runAll d'.queue = some (m, none)) ∧ ∀ l ∈ d'.queue, l.StaysInside d'.memory

/-! ## The eager device behind a device -/

/-- Whether the queue is the end of a history, and every launch in it is going to find at its
operands, which are allocated, what it found there in the history. -/
def Awaits (made : List (Launch × Memory)) (d : Device) : Prop :=
  ∃ done pending, made = done ++ pending ∧ pending.map Prod.fst = d.queue ∧
    ∀ (k : Nat) (l : Launch) (m₀ : Memory), pending[k]? = some (l, m₀) →
      ∃ m, d.memory.runAll (d.queue.take k) = some (m, none) ∧
        ∀ address ∈ l.addresses, ∃ bytes, m.find? address = some bytes ∧
          m₀.find? address = some bytes

structure Lags (made : List (Launch × Memory)) (d e : Device) : Prop where
  settles : d.memory.runAll d.queue = some (e.memory, none)
  eager : e = { d with memory := e.memory, queue := [] }
  failure : d.failure = none
  ordered : d.Ordered
  awaits : Awaits made d

variable {made : List (Launch × Memory)} {d d' e : Device} {submit : Launcher}

theorem flush_of_runAll {m : Memory} (h : d.memory.runAll d.queue = some (m, none)) :
    flush d = .value () { d with memory := m, queue := [] } := by
  unfold flush
  rw [h]

theorem settle_of_flush (h : flush d = .value () d') (hf : d'.failure = none) :
    settle d = .value () d' := by
  unfold settle
  rw [Action.bind_of_value h, Action.bind_of_value Action.get_apply, hf]
  rfl

theorem Lags.queue (h : Lags made d e) : e.queue = [] := by rw [h.eager]

theorem Lags.eager_failure (h : Lags made d e) : e.failure = none := by
  rw [h.eager]
  exact h.failure

theorem Lags.flush (h : Lags made d e) : flush d = .value () e := by
  rw [flush_of_runAll h.settles, ← h.eager]

theorem Lags.settle (h : Lags made d e) : settle d = .value () e :=
  settle_of_flush h.flush h.eager_failure

/-! ## Calls that run the queue -/

structure Settled (d : Device) : Prop where
  queue : d.queue = []
  failure : d.failure = none
  ordered : d.Ordered

theorem Settled.lags (h : d.Settled) (made : List (Launch × Memory)) : Lags made d d where
  settles := by rw [h.queue, Memory.runAll_nil]
  eager := by
    obtain ⟨hqueue, -, -⟩ := h
    cases d
    cases hqueue
    rfl
  failure := h.failure
  ordered := h.ordered
  awaits := ⟨made, [], (List.append_nil made).symm, h.queue.symm, fun _ _ _ hk => nomatch hk⟩

theorem Lags.settled (h : Lags made d e) : e.Settled where
  queue := h.queue
  failure := h.eager_failure
  ordered := by
    have hflush := h.ordered.flush
    rw [h.flush] at hflush
    exact hflush

theorem Settled.flush (h : d.Settled) : Device.flush d = .value () d := flush_of_queue_nil h.queue

theorem Settled.settle (h : d.Settled) : Device.settle d = .value () d :=
  settle_of_flush h.flush h.failure

theorem Settled.always_flush (h : d.Settled) : (Device.flush d).Always Settled := by
  rw [h.flush]
  exact h

theorem Settled.always_settle (h : d.Settled) : (Device.settle d).Always Settled := by
  rw [h.settle]
  exact h

theorem Settled.free (h : d.Settled) (address : Nat) : (free address d).Always Settled := by
  refine always_free h.always_flush address (fun _ h₁ => ⟨h₁.queue, h₁.failure, ?_⟩)
    fun _ _ h₁ _ => ⟨h₁.queue, h₁.failure, h₁.ordered.remove rfl rfl rfl (Nat.sub_le _ _)⟩
  exact ⟨h₁.ordered.memory, h₁.ordered.holdable, h₁.ordered.queue, h₁.ordered.liveBytes⟩

theorem Settled.copyin (h : d.Settled) (bytes : Bytes) (address : Nat) :
    (copyin bytes address d).Always Settled :=
  always_copyin h.always_settle bytes address fun _ _ h₁ hfind hsize =>
    ⟨h₁.queue, h₁.failure, h₁.ordered.overwritten hfind hsize⟩

theorem Settled.copyout (h : d.Settled) (address len : Nat) :
    (copyout address len d).Always Settled := always_copyout h.always_settle address len

def synced (d : Device) : Device := { d with stats := { d.stats with syncs := d.stats.syncs + 1 } }

theorem Lags.synced (h : Lags made d e) : Lags made d.synced e.synced where
  settles := h.settles
  eager := by
    have heager := h.eager
    cases e
    cases heager
    rfl
  failure := h.failure
  ordered := ⟨h.ordered.memory, h.ordered.holdable, h.ordered.queue, h.ordered.liveBytes⟩
  awaits := h.awaits

theorem synchronize_eq (d : Device) : synchronize d = settle d.synced := rfl

/-! ## Allocations -/

theorem Awaits.granted (h : Awaits made d) (ho : d.Ordered) (bytes : Nat) :
    Awaits made (d.granted bytes) := by
  obtain ⟨done, pending, hmade, hqueue, hfinds⟩ := h
  refine ⟨done, pending, hmade, hqueue, fun k l m₀ hk => ?_⟩
  obtain ⟨m, hrun, hfind⟩ := hfinds k l m₀ hk
  have hl : l ∈ d.queue := by
    rw [← hqueue]
    exact List.mem_map_of_mem (List.mem_of_getElem? hk)
  have hapart : ∀ launch ∈ d.queue.take k, d.next ∉ launch.addresses := fun launch hlaunch hmem =>
    Nat.lt_irrefl _ (ho.queue launch (List.mem_of_mem_take hlaunch) _ hmem)
  refine ⟨(d.next, Bytes.zeros bytes) :: m, ?_, fun address haddress => ?_⟩
  · show Memory.runAll ((d.next, Bytes.zeros bytes) :: d.memory) (d.queue.take k) = _
    rw [Memory.runAll_cons_of_notMem hapart, hrun]
    rfl
  · obtain ⟨b, hb, hb₀⟩ := hfind address haddress
    refine ⟨b, ?_, hb₀⟩
    rw [Memory.find?_cons, if_neg (Nat.ne_of_lt (ho.queue l hl address haddress))]
    exact hb

theorem Lags.granted (h : Lags made d e) {bytes : Nat} (hroom : d.Room bytes) :
    Lags made (d.granted bytes) (e.granted bytes) where
  settles := by
    have hapart : ∀ launch ∈ d.queue, d.next ∉ launch.addresses := fun launch hlaunch hmem =>
      Nat.lt_irrefl _ (h.ordered.queue launch hlaunch _ hmem)
    show Memory.runAll ((d.next, Bytes.zeros bytes) :: d.memory) d.queue = _
    rw [Memory.runAll_cons_of_notMem hapart, h.settles, h.eager]
    rfl
  eager := by
    have heager := h.eager
    cases e
    cases heager
    rfl
  failure := h.failure
  ordered := h.ordered.granted hroom
  awaits := h.awaits.granted h.ordered bytes

/-- An allocation depends on counts only, and those are the same. -/
theorem Lags.alloc (h : Lags made d e) (bytes : Nat) :
    (alloc bytes d).Matches (Lags made) (alloc bytes e) := by
  have hroom : e.Room bytes ↔ d.Room bytes := by
    rw [h.eager]
    exact Iff.rfl
  have hexceeds : e.Exceeds bytes ↔ d.Exceeds bytes := by
    rw [h.eager]
    exact Iff.rfl
  have hnext : e.next = d.next := by rw [h.eager]
  have hcapacity : e.capacity = d.capacity := by rw [h.eager]
  have hstats : e.stats = d.stats := by rw [h.eager]
  rcases alloc_cases d bytes with ⟨hd, hr, hx⟩ | ⟨c, hc, hx, hd⟩ | ⟨hd, hr, hx⟩
  · rcases alloc_cases e bytes with ⟨he, -⟩ | ⟨_, -, hx', -⟩ | ⟨-, hr', -⟩
    · rw [hd, he]
      rw [hnext]
      exact .value _ (h.granted hr)
    · exact absurd (hexceeds.mp hx') hx
    · exact absurd (hroom.mpr hr) hr'
  · rcases alloc_cases e bytes with ⟨-, -, hx'⟩ | ⟨c', hc', -, he⟩ | ⟨-, -, hx'⟩
    · exact absurd (hexceeds.mpr hx) hx'
    · rw [hcapacity, hc] at hc'
      cases hc'
      rw [hd, he, hstats]
      exact .refused _ h
    · exact absurd (hexceeds.mpr hx) hx'
  · rcases alloc_cases e bytes with ⟨-, hr', -⟩ | ⟨_, -, hx', -⟩ | ⟨he, -⟩
    · exact absurd (hroom.mp hr') hr
    · exact absurd (hexceeds.mp hx') hx
    · rw [hd, he]
      exact .halted

/-! ## Launches -/

def Agree {α : Type} (check : Action Device α) (d e : Device) : Prop :=
  (∃ a, check d = .value a d ∧ check e = .value a e) ∨
    (∃ error, check d = .refused error d ∧ check e = .refused error e) ∨
    (check d = .halted ∧ check e = .halted)

theorem agree_bind {α β : Type} {check : Action Device α} {f : α → Action Device β}
    (h : Agree check d e) (hf : ∀ a, Agree (f a) d e) : Agree (check >>= f) d e := by
  rcases h with ⟨a, hd, he⟩ | ⟨error, hd, he⟩ | ⟨hd, he⟩
  · unfold Agree
    rw [Action.bind_of_value hd, Action.bind_of_value he]
    exact hf a
  · exact Or.inr (Or.inl ⟨error, Action.bind_of_refused hd, Action.bind_of_refused he⟩)
  · exact Or.inr (Or.inr ⟨Action.bind_of_halted hd, Action.bind_of_halted he⟩)

theorem agree_requireFits (h : d.memory.SameSizes e.memory) (operand : Operand) :
    Agree (requireFits operand) d e := by
  have hsizes := h operand.address
  unfold Agree requireFits
  rcases Option.eq_none_or_eq_some (d.memory.find? operand.address) with hd | ⟨old, hd⟩
  · rw [hd, Option.map_none, Option.map_eq_none_iff] at hsizes
    rw [Action.bind_of_refused (allocation_of_none hd _),
      Action.bind_of_refused (allocation_of_none hsizes _)]
    exact Or.inr (Or.inl ⟨_, rfl, rfl⟩)
  · obtain ⟨new, he, hsize⟩ := h.find? hd
    rw [Action.bind_of_value (allocation_of_some hd _),
      Action.bind_of_value (allocation_of_some he _), hsize]
    rcases Option.eq_none_or_eq_some operand.shape.storageBytes with hn | ⟨n, hn⟩
    · rw [Action.bind_lift_of_none hn, Action.bind_lift_of_none hn]
      exact Or.inr (Or.inr ⟨rfl, rfl⟩)
    · rw [Action.bind_lift_of_some hn, Action.bind_lift_of_some hn]
      split
      · exact Or.inr (Or.inl ⟨_, rfl, rfl⟩)
      · exact Or.inl ⟨(), rfl, rfl⟩

theorem agree_forEach_requireFits (h : d.memory.SameSizes e.memory) (operands : List Operand) :
    Agree (Action.forEach requireFits operands) d e := by
  induction operands with
  | nil => exact Or.inl ⟨(), rfl, rfl⟩
  | cons operand operands ih =>
    rw [Action.forEach_cons]
    exact agree_bind (agree_requireFits h operand) fun _ => ih

/-- A launch is accepted by both devices, or by neither for the same cause. -/
theorem Lags.launch_cases (h : Lags made d e) (op : Operator) (output : Operand)
    (inputs : List Operand) :
    (launch op output inputs d = .value () (d.queued ⟨op, output, inputs⟩) ∧
      launch op output inputs e = .value () (e.queued ⟨op, output, inputs⟩)) ∨
    (∃ error, launch op output inputs d = .refused error d ∧
      launch op output inputs e = .refused error e) ∨
    (launch op output inputs d = .halted ∧ launch op output inputs e = .halted) := by
  have hsupports : e.supports op output.shape.dtype = d.supports op output.shape.dtype := by
    rw [h.eager]
    rfl
  by_cases hd : d.supports op output.shape.dtype = true
  · by_cases halias : (inputs.any fun i => i.address = output.address) = true
    · refine Or.inr (Or.inl ⟨.device .launch (.aliases op.text output.address), ?_, ?_⟩)
      · unfold launch
        rw [Action.bind_of_value Action.get_apply, hd, halias]
        rfl
      · unfold launch
        rw [Action.bind_of_value Action.get_apply, hsupports, hd, halias]
        rfl
    · have hother : ∀ i ∈ inputs, i.address ≠ output.address := fun i hi heq =>
        halias (List.any_eq_true.mpr ⟨i, hi, decide_eq_true heq⟩)
      rw [launch_of_supports hd hother, launch_of_supports (hsupports.trans hd) hother]
      have hchecks := agree_forEach_requireFits (Memory.sameSizes_of_runAll h.settles)
        (inputs ++ [output])
      rcases hchecks with ⟨_, hd', he'⟩ | ⟨error, hd', he'⟩ | ⟨hd', he'⟩
      · rw [Action.bind_of_value hd', Action.bind_of_value he']
        exact Or.inl ⟨rfl, rfl⟩
      · exact Or.inr (Or.inl ⟨error, Action.bind_of_refused hd', Action.bind_of_refused he'⟩)
      · exact Or.inr (Or.inr ⟨Action.bind_of_halted hd', Action.bind_of_halted he'⟩)
  · rw [Bool.not_eq_true] at hd
    refine Or.inr (Or.inl ⟨.device .launch (.noKernel op.text output.shape.dtype), ?_, ?_⟩)
    · unfold launch
      rw [Action.bind_of_value Action.get_apply, hd]
      rfl
    · unfold launch
      rw [Action.bind_of_value Action.get_apply, hsupports, hd]
      rfl

theorem Awaits.queued (h : Awaits made d) {m : Memory} {l : Launch}
    (hrun : d.memory.runAll d.queue = some (m, none))
    (hfind : ∀ address ∈ l.addresses, ∃ bytes, m.find? address = some bytes) :
    Awaits (made ++ [(l, m)]) (d.queued l) := by
  obtain ⟨done, pending, rfl, hqueue, hfinds⟩ := h
  have hlen : pending.length = d.queue.length := by rw [← hqueue, List.length_map]
  refine ⟨done, pending ++ [(l, m)], List.append_assoc .., ?_, fun k l' m₀ hk => ?_⟩
  · rw [List.map_append, hqueue]
    rfl
  · show ∃ m, d.memory.runAll ((d.queue ++ [l]).take k) = _ ∧ _
    rcases Nat.lt_or_ge k pending.length with hlt | hge
    · rw [List.getElem?_append_left hlt] at hk
      rw [List.take_append_of_le_length (by omega)]
      exact hfinds k l' m₀ hk
    · rw [List.getElem?_append_right hge, List.getElem?_singleton] at hk
      split at hk
      · next hzero =>
        cases hk
        have hk' : k = d.queue.length := by omega
        rw [hk', List.take_left' rfl]
        refine ⟨m, hrun, fun address haddress => ?_⟩
        obtain ⟨bytes, hbytes⟩ := hfind address haddress
        exact ⟨bytes, hbytes, hbytes⟩
      · cases hk

theorem Lags.queued (h : Lags made d e) {l : Launch} {m : Memory}
    (hd : ∀ address ∈ l.addresses, ∃ bytes, d.memory.find? address = some bytes)
    (hrun : e.memory.execute l = .value m) :
    Lags (made ++ [(l, e.memory)]) (d.queued l) { e.queued l with memory := m, queue := [] } where
  settles := by
    show d.memory.runAll (d.queue ++ [l]) = _
    rw [Memory.runAll_concat, h.settles]
    show Memory.runAll e.memory [l] = _
    rw [Memory.runAll_cons, hrun]
    rfl
  eager := by
    have heager := h.eager
    cases e
    cases heager
    rfl
  failure := h.failure
  ordered := by
    refine ⟨h.ordered.memory, h.ordered.holdable, fun launch hlaunch address haddress => ?_,
      h.ordered.liveBytes⟩
    rcases List.mem_append.mp hlaunch with hlaunch | hlaunch
    · exact h.ordered.queue launch hlaunch address haddress
    · rw [List.mem_singleton.mp hlaunch] at haddress
      obtain ⟨bytes, hbytes⟩ := hd address haddress
      exact h.ordered.memory address bytes hbytes
  awaits := by
    refine h.awaits.queued h.settles fun address haddress => ?_
    obtain ⟨bytes, hbytes⟩ := hd address haddress
    obtain ⟨new, hnew, -⟩ := (Memory.sameSizes_of_runAll h.settles).find? hbytes
    exact ⟨new, hnew⟩

theorem Call.accepted_of_value {op : Operator} {output : Operand} {inputs : List Operand}
    (h : Device.launch op output inputs d = .value () d') :
    (Call.launch op output inputs).accepted d = [(⟨op, output, inputs⟩, d.memory)] := by
  rw [accepted, h]

theorem Call.accepted_of_refused {op : Operator} {output : Operand} {inputs : List Operand}
    {error : Error} (h : Device.launch op output inputs d = .refused error d') :
    (Call.launch op output inputs).accepted d = [] := by
  rw [accepted, h]

theorem Lags.launch (h : Lags made d e) (op : Operator) (output : Operand) (inputs : List Operand)
    (hok : ∀ l m, (l, m) ∈ (Call.launch op output inputs).accepted e →
      ∃ m', m.execute l = .value m') :
    (Device.launch op output inputs d).Matches
      (Lags (made ++ (Call.launch op output inputs).accepted e))
      (launchNow op output inputs e) := by
  unfold launchNow
  rcases h.launch_cases op output inputs with ⟨hd, he⟩ | ⟨error, hd, he⟩ | ⟨hd, he⟩
  · rw [Call.accepted_of_value he] at hok ⊢
    obtain ⟨m, hm⟩ := hok _ _ List.mem_cons_self
    have hrun : (e.queued ⟨op, output, inputs⟩).memory.runAll
        (e.queued ⟨op, output, inputs⟩).queue = some (m, none) := by
      show e.memory.runAll (e.queue ++ _) = _
      rw [h.queue, List.nil_append, Memory.runAll_cons, hm]
      rfl
    rw [hd, Action.bind_of_value he, settle_of_flush (flush_of_runAll hrun) h.eager_failure]
    refine .value () (h.queued (fun address haddress => ?_) hm)
    rcases Device.launch_cases d op output inputs with ⟨-, hfind⟩ | ⟨error, hd'⟩ | hd'
    · rw [Launch.addresses, List.mem_cons, List.mem_map] at haddress
      rcases haddress with rfl | ⟨operand, hmem, rfl⟩
      · exact hfind output (List.mem_append_right _ List.mem_cons_self)
      · exact hfind operand (List.mem_append_left _ hmem)
    · rw [hd] at hd'
      cases hd'
    · rw [hd] at hd'
      cases hd'
  · rw [Call.accepted_of_refused he, List.append_nil, hd, Action.bind_of_refused he]
    exact .refused error h
  · rw [hd, Action.bind_of_halted he]
    exact .halted

/-! ## Sequences of calls -/

/-- One call.  Those that run the queue leave both devices the same. -/
theorem Lags.step (h : Lags made d e) (call : Call)
    (hok : ∀ l m, (l, m) ∈ call.accepted e → ∃ m', m.execute l = .value m') :
    (call.perform Device.launch d).Matches (Lags (made ++ call.accepted e))
      (call.perform launchNow e) := by
  have hsettled := h.settled
  have hsame : ∀ {α : Type} (x : Action Device α), x d = x e → (x e).Always Settled →
      (x d).Matches (Lags (made ++ [])) (x e) := by
    intro α x heq halways
    rw [heq]
    exact Turn.matches_self halways fun d hd => hd.lags _
  cases call with
  | alloc bytes =>
    show (_ : Turn Device Reply).Matches (Lags (made ++ [])) _
    rw [List.append_nil]
    exact (h.alloc bytes).map Reply.address
  | free address =>
    refine (hsame (Device.free address) ?_ (hsettled.free address)).map fun _ => Reply.done
    unfold Device.free
    rw [Action.bind_of_value h.flush, Action.bind_of_value hsettled.flush]
  | copyin bytes address =>
    refine (hsame (Device.copyin bytes address) ?_ (hsettled.copyin bytes address)).map
      fun _ => Reply.done
    unfold Device.copyin
    rw [Action.bind_of_value h.settle, Action.bind_of_value hsettled.settle]
  | copyout address len =>
    refine (hsame (Device.copyout address len) ?_ (hsettled.copyout address len)).map Reply.bytes
    unfold Device.copyout
    rw [Action.bind_of_value h.settle, Action.bind_of_value hsettled.settle]
  | launch op output inputs => exact (h.launch op output inputs hok).map fun _ => Reply.done
  | synchronize =>
    have hsynced := h.synced
    refine (hsame Device.synchronize ?_ ?_).map fun _ => Reply.done
    · rw [synchronize_eq, synchronize_eq, hsynced.settle, hsynced.settled.settle]
    · rw [synchronize_eq, hsynced.settled.settle]
      exact hsynced.settled

theorem Lags.seen {x y : Turn Device Reply} (h : x.Matches (Lags made) y) :
    Seen.of x = Seen.of y := by
  cases h with
  | value reply h => rw [Seen.of, Seen.of, h.eager]
  | refused error h => rw [Seen.of, Seen.of, h.eager]
  | halted => rfl

/-- Calls in a row lead one device to the other with its queue run, and there is the same to
see of them. -/
theorem Lags.run {calls : List Call} (h : Lags made d e)
    (hok : ∀ l m, (l, m) ∈ history calls e → ∃ m', m.execute l = .value m') :
    trace Device.launch calls d = trace launchNow calls e ∧
      ∀ first, first <+: calls → ∀ d', after Device.launch first d = some d' →
        ∃ e', Lags (made ++ history first e) d' e' := by
  have hstart : ∀ d', after Device.launch [] d = some d' → ∃ e', Lags (made ++ history [] e) d' e' := by
    intro d' hd'
    cases hd'
    exact ⟨e, by rwa [history, List.append_nil]⟩
  induction calls generalizing made d e with
  | nil =>
    refine ⟨rfl, fun first hfirst => ?_⟩
    rw [List.prefix_nil.mp hfirst]
    exact hstart
  | cons call rest ih =>
    have hstep := h.step call fun l m hmem => hok l m (List.mem_append_left _ hmem)
    rw [trace, trace, Lags.seen hstep]
    rcases hstep.states with ⟨d₁, e₁, hd, he, h₁⟩ | ⟨hd, he⟩
    · have hhistory : ∀ first, made ++ history (call :: first) e =
          made ++ call.accepted e ++ history first e₁ := by
        intro first
        rw [history, he, List.append_assoc]
      obtain ⟨htrace, hafter⟩ := ih h₁ (fun l m hmem => hok l m (by
        rw [history, he]
        exact List.mem_append_right _ hmem)) (by
          intro d' hd'
          cases hd'
          exact ⟨e₁, by rwa [history, List.append_nil]⟩)
      rw [hd, he]
      refine ⟨congrArg _ htrace, fun first hfirst d' hd' => ?_⟩
      cases first with
      | nil => exact hstart d' hd'
      | cons call' first =>
        obtain ⟨rfl, hrest⟩ := List.cons_prefix_cons.mp hfirst
        rw [after, hd] at hd'
        obtain ⟨e', h'⟩ := hafter first hrest d' hd'
        exact ⟨e', by rwa [hhistory]⟩
    · rw [hd, he]
      refine ⟨rfl, fun first hfirst d' hd' => ?_⟩
      cases first with
      | nil => exact hstart d' hd'
      | cons call' first =>
        obtain ⟨rfl, -⟩ := List.cons_prefix_cons.mp hfirst
        rw [after, hd] at hd'
        cases hd'

/-! ## Queues that run to their end -/

theorem Lags.completes_of_accepted (h : Lags made d e) {call : Call} (hf : Faultless [call] d) :
    ∀ l m, (l, m) ∈ call.accepted e → l.Completes m := by
  intro l m hmem
  cases call with
  | launch op output inputs =>
    rcases h.launch_cases op output inputs with ⟨hd, he⟩ | ⟨error, -, he⟩ | ⟨-, he⟩
    · rw [Call.accepted_of_value he, List.mem_singleton] at hmem
      cases hmem
      have hafter : after Device.launch [.launch op output inputs] d =
          some (d.queued ⟨op, output, inputs⟩) := by
        rw [after, Call.perform, Action.bind_of_value hd]
        rfl
      obtain ⟨⟨m', hrun⟩, hinside⟩ := hf _ List.prefix_rfl _ hafter
      have hstays : Launch.StaysInside ⟨op, output, inputs⟩ d.memory :=
        hinside _ (List.mem_append_right _ List.mem_cons_self)
      refine ⟨?_, hstays.congr (Memory.sameSizes_of_runAll h.settles)⟩
      have hrun' : d.memory.runAll (d.queue ++ [⟨op, output, inputs⟩]) = some (m', none) := hrun
      rw [Memory.runAll_concat, h.settles] at hrun'
      dsimp only at hrun'
      rw [Memory.runAll_cons] at hrun'
      cases hexecute : e.memory.execute ⟨op, output, inputs⟩ with
      | value next => exact ⟨next, rfl⟩
      | refused error =>
        rw [hexecute] at hrun'
        cases hrun'
      | halted =>
        rw [hexecute] at hrun'
        cases hrun'
    · rw [Call.accepted_of_refused he] at hmem
      cases hmem
    · rw [Call.accepted, he] at hmem
      cases hmem
  | _ => cases hmem

theorem Lags.completes_of_history {calls : List Call} (h : Lags made d e)
    (hf : Faultless calls d) : ∀ l m, (l, m) ∈ history calls e → l.Completes m := by
  induction calls generalizing made d e with
  | nil => exact fun _ _ hmem => nomatch hmem
  | cons call rest ih =>
    have hcall := h.completes_of_accepted fun first hfirst => hf first
      (hfirst.trans (List.cons_prefix_cons.mpr ⟨rfl, List.nil_prefix⟩))
    intro l m hmem
    rw [history, List.mem_append] at hmem
    rcases hmem with hmem | hmem
    · exact hcall l m hmem
    · rcases (h.step call fun l m hm => (hcall l m hm).value).states with ⟨d₁, e₁, hd, he, h₁⟩ | ⟨-, he⟩
      · rw [he] at hmem
        refine ih h₁ (fun first hfirst d' hd' => ?_) l m hmem
        refine hf (call :: first) (List.cons_prefix_cons.mpr ⟨rfl, hfirst⟩) d' ?_
        rw [after, hd]
        exact hd'
      · rw [he] at hmem
        cases hmem

variable {calls : List Call} {capacity : Option Nat} {unsupported : List Dtype}

theorem settled_new : Settled { capacity := capacity, unsupported := unsupported } where
  queue := rfl
  failure := rfl
  ordered := Reached.ordered ⟨capacity, unsupported, .refl⟩

theorem history_subset {first : List Call} (h : first <+: calls) (e : Device) :
    history first e ⊆ history calls e := by
  induction first generalizing calls e with
  | nil => exact List.nil_subset _
  | cons call first ih =>
    obtain ⟨rest, rfl⟩ := h
    rw [List.cons_append, history, history]
    refine List.append_subset.mpr ⟨List.subset_append_left _ _, ?_⟩
    refine List.Subset.trans ?_ (List.subset_append_right _ _)
    cases (call.perform launchNow e).state? with
    | none => exact List.nil_subset _
    | some next => exact ih (List.prefix_append first rest) next

/-- What a launch was going to read in the history is what it is going to read. -/
theorem Awaits.staysInside (h : Awaits made d) (hmade : ∀ l m, (l, m) ∈ made → l.StaysInside m) :
    ∀ l ∈ d.queue, l.StaysInside d.memory := by
  obtain ⟨done, pending, rfl, hqueue, hfinds⟩ := h
  rw [← hqueue, List.forall_mem_map]
  rintro ⟨l, m₀⟩ hl i hi
  obtain ⟨k, hk⟩ := List.mem_iff_getElem?.mp hl
  obtain ⟨m, hrun, hfind⟩ := hfinds k l m₀ hk
  obtain ⟨bytes, hbytes, hbytes₀⟩ :=
    hfind i.address (List.mem_cons_of_mem _ (List.mem_map_of_mem hi))
  obtain ⟨old, hold, hinside⟩ := hmade l m₀ (List.mem_append_right _ hl) i hi
  rw [hbytes₀] at hold
  cases hold
  obtain ⟨now, hnow, hsize⟩ := (Memory.sameSizes_of_runAll hrun).symm.find? hbytes
  exact ⟨now, hnow, hsize ▸ hinside⟩

/-- The queue always runs to its end, inside the allocations, just when every launch would have
done so at once. -/
theorem faultless_iff : Faultless calls { capacity := capacity, unsupported := unsupported } ↔
    ∀ l m, (l, m) ∈ history calls { capacity := capacity, unsupported := unsupported } →
      l.Completes m := by
  constructor
  · intro hf
    exact (settled_new.lags []).completes_of_history hf
  · intro hok first hfirst d' hd'
    obtain ⟨e', h'⟩ := ((settled_new.lags []).run fun l m hm => (hok l m hm).value).2 first hfirst
      d' hd'
    exact ⟨⟨e'.memory, h'.settles⟩, h'.awaits.staysInside fun l m hm =>
      (hok l m (history_subset hfirst _ hm)).inside⟩

/-- Calls of a new device look the same as those of an eager one, unless the queue fails or reads
behind an allocation.  What is queued meanwhile is going to find at its operands what it would
have found at once. -/
theorem deferral_unobservable (capacity : Option Nat) (unsupported : List Dtype)
    (calls : List Call) (h : Faultless calls { capacity := capacity, unsupported := unsupported }) :
    trace launch calls { capacity := capacity, unsupported := unsupported } =
        trace launchNow calls { capacity := capacity, unsupported := unsupported } ∧
      ∀ first, first <+: calls → ∀ d,
        after launch first { capacity := capacity, unsupported := unsupported } = some d →
        Awaits (history first { capacity := capacity, unsupported := unsupported }) d := by
  obtain ⟨htrace, hafter⟩ :=
    (settled_new.lags []).run fun l m hm => (faultless_iff.mp h l m hm).value
  refine ⟨htrace, fun first hfirst d hd => ?_⟩
  obtain ⟨e', h'⟩ := hafter first hfirst d hd
  exact h'.awaits

def pair : Shape := ⟨.uint8, [⟨2, 1⟩]⟩

/-- A copy of one allocation to another, of which the source is overwritten and then freed. -/
def copyBehind : List Call :=
  [.alloc 2, .alloc 2, .copyin #[1, 2] 4096,
    .launch .contiguous ⟨4352, pair⟩ [⟨4096, pair⟩], .alloc 2, .copyin #[3, 4] 4096, .free 4096,
    .copyout 4352 2]

theorem deferral_unobservable_copyBehind : Faultless copyBehind {} ∧
    trace launch copyBehind {} = trace launchNow copyBehind {} := by
  have h : Faultless copyBehind {} := by
    refine faultless_iff.mpr fun l m hmem => ?_
    have hhistory : history copyBehind {} =
        [(⟨.contiguous, ⟨4352, pair⟩, [⟨4096, pair⟩]⟩, [(4352, #[0, 0]), (4096, #[1, 2])])] := rfl
    rw [hhistory, List.mem_singleton] at hmem
    cases hmem
    exact ⟨⟨_, rfl⟩, List.forall_mem_singleton.mpr ⟨#[1, 2], rfl, by decide⟩⟩
  exact ⟨h, (deferral_unobservable none [] copyBehind h).1⟩

end Device
end TensorGraph
