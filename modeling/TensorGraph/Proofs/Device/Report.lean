/-
What becomes of launches that fail.

Beside a sequence of calls stands a `Ledger`: the launches that were accepted since the queue
last ran, and the failures since a call last reported one.  It is kept from the calls alone and
does not look at the queue or at the failure that a device remembers.  What every call gives its
caller and leaves in memory can be told from it: `failures_reported_once`.  A failure is reported
by one call, the first that may, and takes with it only the launches behind it in the same run.
-/
import TensorGraph.Proofs.Device.Eager

namespace TensorGraph

structure Fault where
  launch : Launch
  cause : Error

def Fault.report (f : Fault) : Error := .launchFailed f.launch.op.text f.cause

/-- Whether an error reports a launch that failed in the queue. -/
def Error.IsLaunchFailure (e : Error) : Prop := ∃ f : Fault, e = f.report

theorem Error.not_isLaunchFailure_device (call : DeviceCall) (why : DeviceFault) :
    ¬(Error.device call why).IsLaunchFailure := fun ⟨_, h⟩ => nomatch h

section Refuses

variable {α β σ : Type} {P : Error → Prop}

def Turn.Refuses (P : Error → Prop) : Turn σ α → Prop
  | .value _ _ => True
  | .refused e _ => P e
  | .halted => True

theorem Action.refuses_bind {x : Action σ α} {f : α → Action σ β} {s : σ}
    (h : (x s).Refuses P) (hf : ∀ a t, (f a t).Refuses P) : ((x >>= f) s).Refuses P := by
  rw [bind_apply]
  cases hx : x s with
  | value a t => exact hf a t
  | refused e t =>
    rw [hx] at h
    exact h
  | halted => exact trivial

theorem Action.refuses_ofOption {x : Option α} {s : σ} :
    ((liftM (Outcome.ofOption x) : Action σ α) s).Refuses P := by
  cases x <;> exact trivial

theorem Action.refuses_forEach {f : α → Action σ Unit} (h : ∀ a s, (f a s).Refuses P)
    (as : List α) (s : σ) : (forEach f as s).Refuses P := by
  induction as generalizing s with
  | nil => exact trivial
  | cons a as ih => exact refuses_bind (h a s) fun _ t => ih t

end Refuses

namespace Memory

variable {m m' : Memory} {launch : Launch} {launches done dropped : List Launch}
  {failed : Option Fault}

/-- How launches in a row run: `done` one after the other and then, if there is one that fails,
no other. -/
structure Ran (m : Memory) (launches done : List Launch) (failed : Option Fault)
    (dropped : List Launch) (m' : Memory) : Prop where
  parts : launches = done ++ (failed.map Fault.launch).toList ++ dropped
  runs : done.foldlM execute m = .value m'
  fails : ∀ f, failed = some f → m'.execute f.launch = .refused f.cause
  drops : failed = none → dropped = []

def fault (m : Memory) (launches : List Launch) : Option Fault :=
  match m.runAll launches with
  | some (_, some stop) => some ⟨stop.launch, stop.cause⟩
  | _ => none

theorem fault_nil (m : Memory) : m.fault [] = none := rfl

theorem fault_of_runAll {stop : Option Stop} (h : m.runAll launches = some (m', stop)) :
    m.fault launches = stop.map fun s => ⟨s.launch, s.cause⟩ := by
  unfold fault
  rw [h]
  cases stop <;> rfl

theorem fault_cons_of_value (h : m.execute launch = .value m') (rest : List Launch) :
    m.fault (launch :: rest) = m'.fault rest := by
  unfold fault
  rw [runAll_cons, h]

theorem ran_nil (m : Memory) : m.Ran [] [] none [] m where
  parts := rfl
  runs := rfl
  fails _ hf := nomatch hf
  drops _ := rfl

theorem Ran.cons {next : Memory} (h : next.Ran launches done failed dropped m')
    (hrun : m.execute launch = .value next) :
    m.Ran (launch :: launches) (launch :: done) failed dropped m' where
  parts := by
    rw [h.parts]
    rfl
  runs := by
    rw [List.foldlM_cons, hrun]
    exact h.runs
  fails := h.fails
  drops := h.drops

theorem ran_of_refused {e : Error} (h : m.execute launch = .refused e) (rest : List Launch) :
    m.Ran (launch :: rest) [] (some ⟨launch, e⟩) rest m where
  parts := rfl
  runs := rfl
  fails f hf := by
    cases hf
    exact h
  drops hf := nomatch hf

/-- What a run of the queue leaves is what the launches in front of the one that fails make. -/
theorem exists_ran {stop : Option Stop} (h : m.runAll launches = some (m', stop)) :
    ∃ done dropped, m.Ran launches done (m.fault launches) dropped m' := by
  induction launches generalizing m with
  | nil =>
    cases h
    exact ⟨[], [], ran_nil m'⟩
  | cons launch rest ih =>
    rw [runAll_cons] at h
    cases he : m.execute launch with
    | value next =>
      rw [he] at h
      obtain ⟨done, dropped, hran⟩ := ih h
      rw [fault_cons_of_value he]
      exact ⟨launch :: done, dropped, hran.cons he⟩
    | refused e =>
      rw [he] at h
      cases h
      have hfault : m'.fault (launch :: rest) = some ⟨launch, e⟩ := by
        unfold fault
        rw [runAll_cons, he]
      rw [hfault]
      exact ⟨[], rest, ran_of_refused he rest⟩
    | halted =>
      rw [he] at h
      cases h

end Memory

namespace Device

variable {d d' : Device} {m : Memory} {faults : List Fault} {next : Nat}

/-! ## The ledger -/

def Call.runsQueue : Call → Bool
  | alloc _ => false
  | free _ => true
  | copyin _ _ => true
  | copyout _ _ => true
  | launch _ _ _ => false
  | synchronize => true

def Call.reports : Call → Bool
  | alloc _ => false
  | free _ => false
  | copyin _ _ => true
  | copyout _ _ => true
  | launch _ _ _ => false
  | synchronize => true

/-- The launches that were accepted since the queue last ran, and the failures since a call last
could report one, the earliest first. -/
structure Ledger where
  waiting : List Launch := []
  faults : List Fault := []

def Ledger.due (l : Ledger) (call : Call) : List Launch := if call.runsQueue then l.waiting else []

/-- The failures since a call last could report one, with what a call runs into itself. -/
def Ledger.known (l : Ledger) (call : Call) (d : Device) : List Fault :=
  l.faults ++ (d.memory.fault (l.due call)).toList

def Ledger.enter (l : Ledger) (call : Call) (d : Device) : Ledger where
  waiting := (if call.runsQueue then [] else l.waiting) ++ (call.accepted d).map Prod.fst
  faults := if call.reports then [] else l.known call d

def ledger : List Call → Device → Ledger → Ledger
  | [], _, l => l
  | call :: rest, d, l =>
    match (call.perform launch d).state? with
    | some next => ledger rest next (l.enter call d)
    | none => l

/-- The memory that a call makes of `m` on its own account, where `next` is the next address. -/
def Call.write (next : Nat) (m : Memory) : Call → Memory
  | alloc bytes => (next, Bytes.zeros bytes) :: m
  | free address => m.remove address
  | copyin bytes address =>
    match m.find? address with
    | some old => m.replace address (Bytes.overwrite old bytes)
    | none => m
  | copyout _ _ => m
  | launch _ _ _ => m
  | synchronize => m

/-- Whether a call ends as the ledger has it, where `m` is what the launches that it runs leave
and `faults` are the failures that nobody has been told of. -/
structure Call.Answers (call : Call) (next : Nat) (m : Memory) (faults : List Fault)
    (turn : Turn Device Reply) : Prop where
  reported : call.reports = true →
    ((∃ e d', turn = .refused e d' ∧ e.IsLaunchFailure) ↔ faults ≠ [])
  earliest : ∀ e d', turn = .refused e d' → e.IsLaunchFailure →
    call.reports = true ∧ faults.head?.map Fault.report = some e
  written : ∀ reply d', turn = .value reply d' → d'.memory = call.write next m
  kept : ∀ e d', turn = .refused e d' → d'.memory = m
  freed : ∀ address, call = .free address →
    ((∃ e d', turn = .refused e d') ↔ m.find? address = none)

/-! ## How calls end -/

section Answers

variable {call : Call} {turn : Turn Device Reply}

/-- The earliest failure is reported. -/
theorem answers_of_reported {f : Fault} (hreports : call.reports = true)
    (hf : faults.head? = some f) (hmem : d'.memory = m) :
    call.Answers next m faults (.refused f.report d') where
  reported _ := by
    refine ⟨fun _ hnil => ?_, fun _ => ⟨_, _, rfl, f, rfl⟩⟩
    rw [hnil] at hf
    cases hf
  earliest e _ he _ := by
    cases he
    exact ⟨hreports, by rw [hf, Option.map_some]⟩
  written _ _ hv := nomatch hv
  kept _ _ he := by
    cases he
    exact hmem
  freed address hcall := by
    rw [hcall] at hreports
    cases hreports

theorem answers_of_refused {e : Error} (he : ¬e.IsLaunchFailure)
    (hfaults : call.reports = true → faults = []) (hmem : d'.memory = m)
    (hfreed : ∀ address, call = .free address → m.find? address = none) :
    call.Answers next m faults (.refused e d') where
  reported hreports := by
    refine ⟨?_, fun hne => absurd (hfaults hreports) hne⟩
    rintro ⟨_, _, heq, hlaunch⟩
    cases heq
    exact absurd hlaunch he
  earliest _ _ heq hlaunch := by
    cases heq
    exact absurd hlaunch he
  written _ _ hv := nomatch hv
  kept _ _ heq := by
    cases heq
    exact hmem
  freed address hcall := ⟨fun _ => hfreed address hcall, fun _ => ⟨_, _, rfl⟩⟩

theorem answers_of_value {reply : Reply} (hfaults : call.reports = true → faults = [])
    (hmem : d'.memory = call.write next m)
    (hfreed : ∀ address, call = .free address → m.find? address ≠ none) :
    call.Answers next m faults (.value reply d') where
  reported hreports := by
    refine ⟨?_, fun hne => absurd (hfaults hreports) hne⟩
    rintro ⟨_, _, heq, -⟩
    cases heq
  earliest _ _ he := nomatch he
  written _ _ hv := by
    cases hv
    exact hmem
  kept _ _ he := nomatch he
  freed address hcall := by
    refine ⟨?_, fun h => absurd h (hfreed address hcall)⟩
    rintro ⟨_, _, he⟩
    cases he

end Answers

/-! ## What a device remembers -/

/-- Whether a device remembers what the ledger says. -/
structure Ledger.Describes (l : Ledger) (d : Device) : Prop where
  queue : d.queue = l.waiting
  failure : d.failure = l.faults.head?.map Fault.report

variable {l : Ledger}

theorem Ledger.Describes.flush (h : l.Describes d) (hne : flush d ≠ .halted) :
    ∃ done dropped m d', d.memory.Ran l.waiting done (d.memory.fault l.waiting) dropped m ∧
      flush d = .value () d' ∧ d'.memory = m ∧ d'.queue = [] ∧
      d'.failure = (l.faults ++ (d.memory.fault l.waiting).toList).head?.map Fault.report := by
  unfold Device.flush at hne ⊢
  rw [h.queue] at hne ⊢
  rcases hrun : d.memory.runAll l.waiting with _ | ⟨m, stop⟩
  · rw [hrun] at hne
    exact absurd rfl hne
  · obtain ⟨done, dropped, hran⟩ := Memory.exists_ran hrun
    refine ⟨done, dropped, m, ?_⟩
    rw [Memory.fault_of_runAll hrun] at hran ⊢
    cases stop with
    | none =>
      refine ⟨_, hran, rfl, rfl, rfl, ?_⟩
      rw [Option.map_none, Option.toList_none, List.append_nil]
      exact h.failure
    | some stop =>
      refine ⟨_, hran, rfl, rfl, rfl, ?_⟩
      rw [Option.map_some, Option.toList_some, h.failure]
      cases l.faults <;> rfl

theorem Ledger.Describes.settle (h : l.Describes d) (hne : settle d ≠ .halted) :
    ∃ done dropped m d', d.memory.Ran l.waiting done (d.memory.fault l.waiting) dropped m ∧
      d'.memory = m ∧ Describes {} d' ∧
      (settle d = .value () d' ∧ l.faults ++ (d.memory.fault l.waiting).toList = [] ∨
        ∃ f, (l.faults ++ (d.memory.fault l.waiting).toList).head? = some f ∧
          settle d = .refused f.report d') := by
  have hne' : Device.flush d ≠ .halted := Action.bind_ne_halted hne
  obtain ⟨done, dropped, m, d₁, hran, hflush, hmem, hqueue, hfailure⟩ := h.flush hne'
  unfold Device.settle
  rw [Action.bind_of_value hflush, Action.bind_of_value Action.get_apply, hfailure]
  cases hknown : l.faults ++ (d.memory.fault l.waiting).toList with
  | nil =>
    rw [hknown] at hfailure
    exact ⟨done, dropped, m, d₁, hran, hmem, ⟨hqueue, hfailure⟩, Or.inl ⟨rfl, rfl⟩⟩
  | cons f rest =>
    exact ⟨done, dropped, m, { d₁ with failure := none }, hran, hmem, ⟨hqueue, rfl⟩,
      Or.inr ⟨f, rfl, rfl⟩⟩

/-! ## One call -/

def Ledger.Kept (l : Ledger) (call : Call) (d : Device) (turn : Turn Device Reply) : Prop :=
  ∃ done dropped m,
    d.memory.Ran (l.due call) done (d.memory.fault (l.due call)) dropped m ∧
      call.Answers d.next m (l.known call d) turn ∧
      ∀ d', turn.state? = some d' → (l.enter call d).Describes d'

section Kept

variable {call : Call} {turn : Turn Device Reply}

/-- A call that does not run the queue leaves the failures on record as they are. -/
theorem Ledger.Describes.kept_of_idle (h : l.Describes d) (hruns : call.runsQueue = false)
    (hanswers : call.Answers d.next d.memory l.faults turn)
    (hnext : ∀ d', turn.state? = some d' →
      d'.queue = d.queue ++ (call.accepted d).map Prod.fst ∧ d'.failure = d.failure) :
    l.Kept call d turn := by
  have hreports : call.reports = false := by
    cases call <;> first | rfl | cases hruns
  have hdue : l.due call = [] := by rw [due, hruns, if_neg Bool.false_ne_true]
  have hknown : l.known call d = l.faults := by
    rw [known, hdue, Memory.fault_nil, Option.toList_none, List.append_nil]
  refine ⟨[], [], d.memory, ?_, hknown.symm ▸ hanswers, fun d' hd' => ?_⟩
  · rw [hdue]
    exact Memory.ran_nil _
  obtain ⟨hqueue, hfailure⟩ := hnext d' hd'
  rw [enter, hruns, hreports, hknown, if_neg Bool.false_ne_true, if_neg Bool.false_ne_true]
  exact ⟨hqueue.trans (by rw [h.queue]), hfailure.trans h.failure⟩

/-- Behind a call that may report a failure there is nothing on record. -/
theorem Ledger.enter_of_reports (hreports : call.reports = true) : l.enter call d = {} := by
  cases call with
  | copyin bytes address => rfl
  | copyout address len => rfl
  | synchronize => rfl
  | _ => cases hreports

theorem Ledger.due_of_reports (hreports : call.reports = true) : l.due call = l.waiting := by
  cases call with
  | copyin bytes address => rfl
  | copyout address len => rfl
  | synchronize => rfl
  | _ => cases hreports

end Kept

theorem Ledger.Describes.alloc (h : l.Describes d) (bytes : Nat)
    (hne : (Call.alloc bytes).perform Device.launch d ≠ .halted) :
    l.Kept (.alloc bytes) d ((Call.alloc bytes).perform Device.launch d) := by
  have haccepted : (Call.alloc bytes).accepted d = [] := rfl
  rw [Call.perform] at hne ⊢
  rcases alloc_cases d bytes with ⟨hvalue, -⟩ | ⟨_, -, -, hrefused⟩ | ⟨hhalt, -⟩
  · rw [Action.bind_of_value hvalue]
    refine h.kept_of_idle rfl (answers_of_value (fun hr => by cases hr) rfl fun _ heq => by cases heq)
      fun d' hd' => ?_
    cases hd'
    exact ⟨(List.append_nil _).symm, rfl⟩
  · rw [Action.bind_of_refused hrefused]
    refine h.kept_of_idle rfl (answers_of_refused (Error.not_isLaunchFailure_device _ _)
      (fun hr => by cases hr) rfl fun _ heq => by cases heq) fun d' hd' => ?_
    cases hd'
    exact ⟨(List.append_nil _).symm, rfl⟩
  · exact absurd (Action.bind_of_halted hhalt) hne

theorem launch_refuses (op : Operator) (output : Operand) (inputs : List Operand) (d : Device) :
    (launch op output inputs d).Refuses fun e => ¬e.IsLaunchFailure := by
  have hfits : ∀ operand d, (requireFits operand d).Refuses fun e => ¬e.IsLaunchFailure := by
    intro operand d
    refine Action.refuses_bind ?_ fun bytes d₁ => ?_
    · rcases Option.eq_none_or_eq_some (d.memory.find? operand.address) with hfind | ⟨_, hfind⟩
      · rw [allocation_of_none hfind]
        exact Error.not_isLaunchFailure_device _ _
      · rw [allocation_of_some hfind]
        exact trivial
    · refine Action.refuses_bind Action.refuses_ofOption fun n d₂ => ?_
      split
      · exact Error.not_isLaunchFailure_device _ _
      · exact trivial
  unfold launch
  rw [Action.bind_of_value Action.get_apply]
  dsimp only
  split
  · exact Error.not_isLaunchFailure_device _ _
  split
  · exact Error.not_isLaunchFailure_device _ _
  exact Action.refuses_bind (Action.refuses_forEach hfits _ _) fun _ _ => trivial

theorem Ledger.Describes.launch (h : l.Describes d) (op : Operator) (output : Operand)
    (inputs : List Operand)
    (hne : (Call.launch op output inputs).perform Device.launch d ≠ .halted) :
    l.Kept (.launch op output inputs) d
      ((Call.launch op output inputs).perform Device.launch d) := by
  have hrefuses := launch_refuses op output inputs d
  rw [Call.perform] at hne ⊢
  rcases launch_cases d op output inputs with ⟨hvalue, -⟩ | ⟨e, hrefused⟩ | hhalt
  · rw [Action.bind_of_value hvalue]
    refine h.kept_of_idle rfl (answers_of_value (fun hr => by cases hr) rfl fun _ heq => by cases heq)
      fun d' hd' => ?_
    cases hd'
    rw [Call.accepted_of_value hvalue]
    exact ⟨rfl, rfl⟩
  · rw [hrefused] at hrefuses
    rw [Action.bind_of_refused hrefused]
    refine h.kept_of_idle rfl (answers_of_refused hrefuses (fun hr => by cases hr) rfl
      fun _ heq => by cases heq) fun d' hd' => ?_
    cases hd'
    rw [Call.accepted_of_refused hrefused]
    exact ⟨(List.append_nil _).symm, rfl⟩
  · exact absurd (Action.bind_of_halted hhalt) hne

/-- A free runs the queue and keeps what fails in it for a call that may report it. -/
theorem Ledger.Describes.free (h : l.Describes d) (address : Nat)
    (hne : (Call.free address).perform Device.launch d ≠ .halted) :
    l.Kept (.free address) d ((Call.free address).perform Device.launch d) := by
  rw [Call.perform, Device.free] at hne ⊢
  obtain ⟨done, dropped, m, d₁, hran, hflush, rfl, hqueue, hfailure⟩ :=
    h.flush (Action.bind_ne_halted (Action.bind_ne_halted hne))
  have hnext : ∀ d', d'.queue = d₁.queue → d'.failure = d₁.failure →
      (l.enter (.free address) d).Describes d' := fun d' hq hf =>
    ⟨hq.trans hqueue, hf.trans hfailure⟩
  refine ⟨done, dropped, d₁.memory, hran, ?_⟩
  rw [bind_assoc, Action.bind_of_value hflush, bind_assoc, Action.bind_of_value Action.get_apply]
  cases hfind : d₁.memory.find? address with
  | none =>
    refine ⟨answers_of_refused (Error.not_isLaunchFailure_device .free (.notAllocated address))
      (fun hr => by cases hr) rfl fun other heq => ?_, fun d' hd' => ?_⟩
    · cases heq
      exact hfind
    · cases hd'
      exact hnext _ rfl rfl
  | some bytes =>
    refine ⟨answers_of_value (fun hr => by cases hr) rfl fun other heq => ?_, fun d' hd' => ?_⟩
    · cases heq
      rw [hfind]
      exact Option.some_ne_none _
    · cases hd'
      exact hnext _ rfl rfl

/-- What a call that may report a failure does: it reports one, or goes on from the memory that
the launches it has run leave. -/
theorem Ledger.Describes.kept_of_settle {call : Call} {f : Unit → Action Device Reply}
    (h : l.Describes d) (hreports : call.reports = true) (hne : (Device.settle >>= f) d ≠ .halted)
    (hnext : ∀ d₁, Describes {} d₁ → Device.settle d = .value () d₁ →
      call.Answers d.next d₁.memory [] (f () d₁) ∧
        ∀ d', (f () d₁).state? = some d' → Describes {} d') :
    l.Kept call d ((Device.settle >>= f) d) := by
  obtain ⟨done, dropped, _, d₁, hran, rfl, hd₁, hsettle⟩ := h.settle (Action.bind_ne_halted hne)
  rw [Kept, known, due_of_reports hreports, enter_of_reports hreports]
  refine ⟨done, dropped, d₁.memory, hran, ?_⟩
  rcases hsettle with ⟨hvalue, hknown⟩ | ⟨f, hf, hrefused⟩
  · rw [hknown, Action.bind_of_value hvalue]
    exact hnext d₁ hd₁ hvalue
  · rw [Action.bind_of_refused hrefused]
    refine ⟨answers_of_reported hreports hf rfl, fun d' hd' => ?_⟩
    cases hd'
    exact hd₁

/-- A call that has told of all failures and is refused then leaves none behind. -/
theorem Ledger.Describes.answers (hd : Describes {} d) {call : Call}
    (hfree : ∀ address, call ≠ .free address) (kind : DeviceCall) (why : DeviceFault) :
    call.Answers next d.memory [] (.refused (.device kind why) d) ∧
      ∀ d', (Turn.refused (.device kind why) d : Turn Device Reply).state? = some d' →
        Describes {} d' := by
  refine ⟨answers_of_refused (Error.not_isLaunchFailure_device _ _) (fun _ => rfl) rfl
    fun address heq => absurd heq (hfree address), fun d' hd' => ?_⟩
  cases hd'
  exact hd

theorem Ledger.Describes.copyin (h : l.Describes d) (bytes : Bytes) (address : Nat)
    (hne : (Call.copyin bytes address).perform Device.launch d ≠ .halted) :
    l.Kept (.copyin bytes address) d ((Call.copyin bytes address).perform Device.launch d) := by
  have hfree : ∀ other, Call.copyin bytes address ≠ .free other := fun _ heq => nomatch heq
  rw [Call.perform, Device.copyin, bind_assoc] at hne ⊢
  refine h.kept_of_settle rfl hne fun d₁ hd₁ _ => ?_
  rcases Option.eq_none_or_eq_some (d₁.memory.find? address) with hfind | ⟨old, hfind⟩
  · rw [bind_assoc, Action.bind_of_refused (allocation_of_none hfind _)]
    exact hd₁.answers hfree _ _
  · rw [bind_assoc, Action.bind_of_value (allocation_of_some hfind _)]
    by_cases hlong : bytes.size > old.size
    · rw [if_pos hlong]
      exact hd₁.answers hfree _ _
    · rw [if_neg hlong]
      refine ⟨answers_of_value (fun _ => rfl) ?_ (fun _ heq => by cases heq), fun d' hd' => ?_⟩
      · rw [Call.write, hfind]
      · cases hd'
        exact ⟨hd₁.queue, hd₁.failure⟩

theorem Ledger.Describes.copyout (h : l.Describes d) (address len : Nat)
    (hne : (Call.copyout address len).perform Device.launch d ≠ .halted) :
    l.Kept (.copyout address len) d ((Call.copyout address len).perform Device.launch d) := by
  have hfree : ∀ other, Call.copyout address len ≠ .free other := fun _ heq => nomatch heq
  rw [Call.perform, Device.copyout, bind_assoc] at hne ⊢
  refine h.kept_of_settle rfl hne fun d₁ hd₁ _ => ?_
  rcases Option.eq_none_or_eq_some (d₁.memory.find? address) with hfind | ⟨bytes, hfind⟩
  · rw [bind_assoc, Action.bind_of_refused (allocation_of_none hfind _)]
    exact hd₁.answers hfree _ _
  · rw [bind_assoc, Action.bind_of_value (allocation_of_some hfind _)]
    by_cases hlong : len > bytes.size
    · rw [if_pos hlong]
      exact hd₁.answers hfree _ _
    · rw [if_neg hlong]
      refine ⟨answers_of_value (fun _ => rfl) rfl (fun _ heq => by cases heq), fun d' hd' => ?_⟩
      cases hd'
      exact hd₁

theorem Ledger.Describes.synchronize (h : l.Describes d)
    (hne : Call.synchronize.perform Device.launch d ≠ .halted) :
    l.Kept .synchronize d (Call.synchronize.perform Device.launch d) := by
  have hsynced : l.Describes d.synced := ⟨h.queue, h.failure⟩
  show l.Kept .synchronize d.synced ((Device.settle >>= fun _ => pure .done) d.synced)
  refine hsynced.kept_of_settle rfl hne fun d₁ hd₁ _ => ?_
  refine ⟨answers_of_value (fun _ => rfl) rfl (fun _ heq => nomatch heq), fun d' hd' => ?_⟩
  cases hd'
  exact hd₁

theorem Ledger.Describes.step (h : l.Describes d) (call : Call)
    (hne : call.perform Device.launch d ≠ .halted) :
    l.Kept call d (call.perform Device.launch d) := by
  cases call with
  | alloc bytes => exact h.alloc bytes hne
  | free address => exact h.free address hne
  | copyin bytes address => exact h.copyin bytes address hne
  | copyout address len => exact h.copyout address len hne
  | launch op output inputs => exact h.launch op output inputs hne
  | synchronize => exact h.synchronize hne

/-! ## Calls in a row -/

theorem Ledger.Describes.run {calls : List Call} (h : l.Describes d)
    (hafter : after Device.launch calls d = some d') : (ledger calls d l).Describes d' := by
  induction calls generalizing d l with
  | nil =>
    cases hafter
    exact h
  | cons call rest ih =>
    rw [after] at hafter
    rw [ledger]
    cases hnext : (call.perform Device.launch d).state? with
    | none =>
      rw [hnext] at hafter
      cases hafter
    | some next =>
      rw [hnext] at hafter
      have hne : call.perform Device.launch d ≠ .halted := fun heq => by
        rw [heq] at hnext
        cases hnext
      obtain ⟨_, _, _, -, -, hkept⟩ := h.step call hne
      exact ih (hkept next hnext) hafter

/-- A failed launch is reported by one call and takes with it the launches behind it in the same
run, and no others. -/
theorem failures_reported_once (capacity : Option Nat) (unsupported : List Dtype)
    (made : List Call) (call : Call) (d : Device)
    (hmade : after launch made { capacity := capacity, unsupported := unsupported } = some d)
    (hne : call.perform launch d ≠ .halted) :
    let l := ledger made { capacity := capacity, unsupported := unsupported } {}
    ∃ done dropped m, d.memory.Ran (l.due call) done (d.memory.fault (l.due call)) dropped m ∧
      call.Answers d.next m (l.known call d) (call.perform launch d) := by
  have hnew : Ledger.Describes {} { capacity := capacity, unsupported := unsupported } := ⟨rfl, rfl⟩
  obtain ⟨done, dropped, m, hran, hanswers, -⟩ := (hnew.run hmade).step call hne
  exact ⟨done, dropped, m, hran, hanswers⟩

def triple : Shape := ⟨.uint8, [⟨3, 1⟩]⟩

/-- A copy of a vector to a longer one, which fails, with a copy behind it that is dropped.  Its
target is freed before anybody has been told. -/
def overrun : List Call :=
  [.alloc 2, .alloc 3, .alloc 2, .copyin #[1, 2] 4096,
    .launch .contiguous ⟨4352, triple⟩ [⟨4096, pair⟩],
    .launch .contiguous ⟨4608, pair⟩ [⟨4096, pair⟩], .free 4352]

def overrunCause : Error := .device .launch (.wrongExtents [2] triple)

theorem failures_reported_once_overrun : ∃ d, after launch overrun {} = some d ∧
    ((Call.copyout 4608 2).perform launch d).refusedWith
      (.launchFailed "contiguous" overrunCause) = true ∧
    let l := ledger overrun {} {}
    ∃ done dropped m, d.memory.Ran (l.due (.copyout 4608 2)) done
        (d.memory.fault (l.due (.copyout 4608 2))) dropped m ∧
      (Call.copyout 4608 2).Answers d.next m (l.known (.copyout 4608 2) d)
        ((Call.copyout 4608 2).perform launch d) := by
  refine ⟨_, rfl, by decide +kernel, failures_reported_once none [] overrun _ _ rfl ?_⟩
  exact fun h => nomatch h

end Device
end TensorGraph
