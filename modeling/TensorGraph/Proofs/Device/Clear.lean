/-
Calls of a device on which nothing fails.

`final?` is the memory that the queue leaves when it runs to its end, and a device is `Clear` if
no launch has failed there or is going to.  On such a device a call that runs the queue goes on
from what the queue leaves, and halts just when a queued launch does: `flush_cases` and the
like.  The calls that leave the queue alone change what it leaves in the way they change memory.
-/
import TensorGraph.Proofs.Device.Eager
import TensorGraph.Proofs.Device.Balance
import TensorGraph.Proofs.Device.Result

namespace TensorGraph

theorem Memory.runAll_append_of_runAll {m m' : Memory} {ls : List Launch}
    (h : m.runAll ls = some (m', none)) (ls' : List Launch) :
    m.runAll (ls ++ ls') = m'.runAll ls' := by
  induction ls generalizing m with
  | nil =>
    cases h
    rfl
  | cons l ls ih =>
    rw [runAll_cons] at h
    rw [List.cons_append, runAll_cons]
    cases he : m.execute l with
    | value next =>
      rw [he] at h
      exact ih h
    | refused e =>
      rw [he] at h
      cases h
    | halted =>
      rw [he] at h
      cases h

theorem Memory.runAll_append_of_none {m : Memory} {ls : List Launch} (h : m.runAll ls = none)
    (ls' : List Launch) : m.runAll (ls ++ ls') = none := by
  induction ls generalizing m with
  | nil => cases h
  | cons l ls ih =>
    rw [runAll_cons] at h
    rw [List.cons_append, runAll_cons]
    cases he : m.execute l with
    | value next =>
      rw [he] at h
      exact ih h
    | refused e =>
      rw [he] at h
      cases h
    | halted => rfl

namespace Device

variable {d d' : Device} {m m' : Memory} {address size : Nat} {old : Bytes}

/-! ## Devices on which nothing fails -/

def final? (d : Device) : Option Memory :=
  match d.memory.runAll d.queue with
  | some (m, none) => some m
  | _ => none

/-- What an address is going to hold once the queue has run to its end. -/
def read? (d : Device) (address : Nat) : Option Bytes := d.final?.bind (Memory.find? · address)

/-- Whether no launch has failed, and none is going to. -/
structure Clear (d : Device) : Prop where
  failure : d.failure = none
  queue : ∀ m stop, d.memory.runAll d.queue = some (m, stop) → stop = none

def ran (d : Device) (m : Memory) : Device := { d with memory := m, queue := [] }

def freed (d : Device) (m : Memory) (address size : Nat) : Device :=
  { d with
    memory := m.remove address
    queue := []
    stats := { d.stats with
      frees := d.stats.frees + 1
      live := d.stats.live - 1
      liveBytes := d.stats.liveBytes - size } }

theorem final?_eq_some : d.final? = some m ↔ d.memory.runAll d.queue = some (m, none) := by
  unfold final?
  rcases d.memory.runAll d.queue with _ | ⟨m', _ | stop⟩
  · exact ⟨(fun h => nomatch h), (fun h => nomatch h)⟩
  · exact ⟨fun h => by cases h; rfl, fun h => by cases h; rfl⟩
  · exact ⟨(fun h => nomatch h), (fun h => nomatch h)⟩

theorem read?_of_final? (h : d.final? = some m) (address : Nat) :
    d.read? address = m.find? address := by
  unfold read?
  rw [h]
  rfl

theorem read?_eq_some : d.read? address = some old ↔
    ∃ m, d.final? = some m ∧ m.find? address = some old := Option.bind_eq_some_iff

theorem sameSizes_of_final? (h : d.final? = some m) : d.memory.SameSizes m :=
  Memory.sameSizes_of_runAll (final?_eq_some.mp h)

theorem layout_of_final? (hnd : (d.memory.map Prod.fst).Nodup) (h : d.final? = some m) :
    m.layout = d.memory.layout := Memory.layout_of_runAll hnd (final?_eq_some.mp h)

/-- The launches that are queued move no allocation. -/
theorem find?_of_final? (h : d.final? = some m) (hfind : d.memory.find? address = some old) :
    ∃ bytes, m.find? address = some bytes ∧ bytes.size = old.size :=
  (sameSizes_of_final? h).find? hfind

theorem final?_of_queue_nil (h : d.queue = []) : d.final? = some d.memory := by
  rw [final?_eq_some, h, Memory.runAll_nil]

theorem final?_ran (d : Device) (m : Memory) : (d.ran m).final? = some m :=
  final?_of_queue_nil rfl

theorem final?_freed (d : Device) (m : Memory) (address size : Nat) :
    (d.freed m address size).final? = some (m.remove address) := final?_of_queue_nil rfl

theorem Clear.runAll_of_final?_eq_none (h : d.Clear) (hnone : d.final? = none) :
    d.memory.runAll d.queue = none := by
  rcases hrun : d.memory.runAll d.queue with _ | ⟨m, stop⟩
  · rfl
  · cases h.queue m stop hrun
    rw [final?_eq_some.mpr hrun] at hnone
    cases hnone

theorem clear_of_queue_nil (hqueue : d.queue = []) (hfailure : d.failure = none) : d.Clear where
  failure := hfailure
  queue m stop hrun := by
    rw [hqueue, Memory.runAll_nil] at hrun
    cases hrun
    rfl

/-! ## Calls that run the queue -/

theorem Clear.flush_of_none (h : d.Clear) (hfinal : d.final? = none) : flush d = .halted := by
  unfold flush
  rw [h.runAll_of_final?_eq_none hfinal]

theorem Clear.settle_of_none (h : d.Clear) (hfinal : d.final? = none) : settle d = .halted := by
  unfold settle
  exact Action.bind_of_halted (h.flush_of_none hfinal)

theorem Clear.settle_of_some (h : d.Clear) (hfinal : d.final? = some m) :
    settle d = .value () (d.ran m) :=
  settle_of_flush (flush_of_runAll (final?_eq_some.mp hfinal)) h.failure

theorem Clear.synced (h : d.Clear) : d.synced.Clear := ⟨h.failure, h.queue⟩

theorem Clear.synchronize_of_none (h : d.Clear) (hfinal : d.final? = none) :
    synchronize d = .halted := by
  rw [synchronize_eq]
  exact h.synced.settle_of_none hfinal

theorem Clear.synchronize_of_some (h : d.Clear) (hfinal : d.final? = some m) :
    synchronize d = .value () (d.synced.ran m) := by
  rw [synchronize_eq]
  exact h.synced.settle_of_some hfinal

theorem Clear.free_of_none (h : d.Clear) (hfinal : d.final? = none) :
    free address d = .halted := by
  unfold free
  exact Action.bind_of_halted (h.flush_of_none hfinal)

theorem free_of_some (hfinal : d.final? = some m) (hfind : d.memory.find? address = some old) :
    free address d = .value () (d.freed m address old.size) := by
  obtain ⟨bytes, hbytes, hsize⟩ := find?_of_final? hfinal hfind
  unfold free
  rw [Action.bind_of_value (flush_of_runAll (final?_eq_some.mp hfinal)),
    Action.bind_of_value Action.get_apply]
  dsimp only
  rw [hbytes, ← hsize]
  rfl

theorem Clear.copyin_of_none (h : d.Clear) (hfinal : d.final? = none) (bytes : Bytes) :
    copyin bytes address d = .halted := by
  unfold copyin
  exact Action.bind_of_halted (h.settle_of_none hfinal)

theorem Clear.copyin_of_some (h : d.Clear) (hfinal : d.final? = some m)
    (hfind : d.memory.find? address = some old) {bytes : Bytes} (hsize : bytes.size = old.size) :
    copyin bytes address d = .value () (d.ran (m.replace address bytes)) := by
  obtain ⟨old', hold, hsize'⟩ := find?_of_final? hfinal hfind
  have hsame : bytes.size = old'.size := hsize.trans hsize'.symm
  unfold copyin
  rw [Action.bind_of_value (h.settle_of_some hfinal),
    Action.bind_of_value (allocation_of_some (show (d.ran m).memory.find? address = _ from hold) _),
    if_neg (by omega), Bytes.overwrite_of_size_eq hsame]
  rfl

theorem Clear.copyout_of_none (h : d.Clear) (hfinal : d.final? = none) (address len : Nat) :
    copyout address len d = .halted := by
  unfold copyout
  exact Action.bind_of_halted (h.settle_of_none hfinal)

theorem Clear.copyout_of_some (h : d.Clear) (hfinal : d.final? = some m) (address len : Nat) :
    copyout address len d =
      match m.find? address with
      | none => .refused (.device .copyout (.notAllocated address)) (d.ran m)
      | some bytes =>
        if bytes.size < len then .refused (.device .copyout (.readTooLong len bytes.size)) (d.ran m)
        else .value (bytes.extract 0 len) (d.ran m) := by
  unfold copyout
  rw [Action.bind_of_value (h.settle_of_some hfinal)]
  rcases Option.eq_none_or_eq_some (m.find? address) with hfind | ⟨bytes, hfind⟩
  · have hran : (d.ran m).memory.find? address = none := hfind
    rw [Action.bind_of_refused (allocation_of_none hran _), hfind]
  · have hran : (d.ran m).memory.find? address = some bytes := hfind
    rw [Action.bind_of_value (allocation_of_some hran _), hfind]
    dsimp only
    split <;> rfl

/-! ## Calls that leave the queue -/

/-- A new allocation plays no part in the launches that are queued. -/
theorem runAll_granted (h : d.Ordered) (bytes : Nat) :
    (d.granted bytes).memory.runAll (d.granted bytes).queue =
      (d.memory.runAll d.queue).map fun r => ((d.next, Bytes.zeros bytes) :: r.1, r.2) :=
  Memory.runAll_cons_of_notMem fun l hl hmem => Nat.lt_irrefl _ (h.queue l hl _ hmem)

theorem final?_granted (h : d.Ordered) {bytes : Nat} : (d.granted bytes).final? = some m' ↔
    ∃ m, d.final? = some m ∧ m' = (d.next, Bytes.zeros bytes) :: m := by
  simp only [final?_eq_some]
  rw [runAll_granted h, Option.map_eq_some_iff]
  constructor
  · rintro ⟨⟨m, stop⟩, hrun, heq⟩
    cases heq
    exact ⟨m, hrun, rfl⟩
  · rintro ⟨m, hrun, rfl⟩
    exact ⟨_, hrun, rfl⟩

theorem Clear.granted (h : d.Clear) (ho : d.Ordered) (bytes : Nat) : (d.granted bytes).Clear where
  failure := h.failure
  queue m stop hrun := by
    rw [runAll_granted ho, Option.map_eq_some_iff] at hrun
    obtain ⟨⟨m', stop'⟩, hrun, heq⟩ := hrun
    cases heq
    exact h.queue _ _ hrun

theorem runAll_queued (h : d.final? = some m) (l : Launch) :
    (d.queued l).memory.runAll (d.queued l).queue = m.runAll [l] :=
  Memory.runAll_append_of_runAll (final?_eq_some.mp h) [l]

theorem Clear.final?_queued (h : d.Clear) {l : Launch} : (d.queued l).final? = some m' ↔
    ∃ m bytes, d.final? = some m ∧ m.result l = .value bytes ∧
      m' = m.replace l.output.address bytes := by
  rw [final?_eq_some]
  rcases Option.eq_none_or_eq_some d.final? with hnone | ⟨m, hfinal⟩
  · rw [hnone, show (d.queued l).memory.runAll (d.queued l).queue = none from
      Memory.runAll_append_of_none (h.runAll_of_final?_eq_none hnone) [l]]
    exact ⟨(fun heq => nomatch heq), (fun ⟨_, _, heq, _⟩ => nomatch heq)⟩
  · rw [runAll_queued hfinal, Memory.runAll_cons, Memory.execute_eq, hfinal]
    cases hresult : m.result l with
    | value bytes =>
      constructor
      · intro heq
        cases heq
        exact ⟨m, bytes, rfl, hresult, rfl⟩
      · rintro ⟨_, _, heq, hresult', rfl⟩
        cases heq
        rw [hresult] at hresult'
        cases hresult'
        rfl
    | refused e =>
      refine ⟨(fun heq => nomatch heq), fun ⟨_, _, heq, hresult', _⟩ => ?_⟩
      cases heq
      rw [hresult] at hresult'
      cases hresult'
    | halted =>
      refine ⟨(fun heq => nomatch heq), fun ⟨_, _, heq, hresult', _⟩ => ?_⟩
      cases heq
      rw [hresult] at hresult'
      cases hresult'

theorem Clear.queued (h : d.Clear) {l : Launch} (hl : l.Sure)
    (hfind : ∀ a ∈ l.addresses, d.memory.find? a ≠ none) : (d.queued l).Clear where
  failure := h.failure
  queue m stop hrun := by
    rcases Option.eq_none_or_eq_some d.final? with hnone | ⟨m', hfinal⟩
    · rw [show (d.queued l).memory.runAll (d.queued l).queue = none from
        Memory.runAll_append_of_none (h.runAll_of_final?_eq_none hnone) [l]] at hrun
      cases hrun
    · have hallocated : ∀ a ∈ l.addresses, m'.find? a ≠ none := by
        intro a ha
        obtain ⟨old, hold⟩ := Option.ne_none_iff_exists'.mp (hfind a ha)
        obtain ⟨bytes, hbytes, -⟩ := find?_of_final? hfinal hold
        rw [hbytes]
        exact Option.some_ne_none _
      rw [runAll_queued hfinal, Memory.runAll_cons] at hrun
      cases he : m'.execute l with
      | value next =>
        rw [he] at hrun
        cases hrun
        rfl
      | refused e => exact absurd he (hl m' hallocated e)
      | halted =>
        rw [he] at hrun
        cases hrun

end Device
end TensorGraph
