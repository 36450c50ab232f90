/-
The books of a device.

A device counts its allocations.  `Balanced` says that the counts are those of its memory:
as many allocations live as there are entries, with as many bytes, and every other one was
freed once.  Running launches and copying bytes moves nothing (`Unmoved`), an allocation adds an
entry, and freeing an address that is allocated takes one away.
-/
import TensorGraph.Proofs.Device.Reached

namespace TensorGraph
namespace Memory

variable {m m' : Memory} {launch : Launch} {launches : List Launch} {address size : Nat}

def layout (m : Memory) : List (Nat × Nat) := m.map fun e => (e.1, e.2.size)

theorem layout_cons (address : Nat) (bytes : Bytes) (m : Memory) :
    layout ((address, bytes) :: m) = (address, bytes.size) :: layout m := rfl

theorem map_fst_layout (m : Memory) : m.layout.map Prod.fst = m.map Prod.fst := by
  rw [layout, List.map_map]
  rfl

theorem find?_of_mem (hnd : (m.map Prod.fst).Nodup) {bytes : Bytes} (h : (address, bytes) ∈ m) :
    m.find? address = some bytes := by
  induction m with
  | nil => cases h
  | cons e m ih =>
    obtain ⟨a, b⟩ := e
    rw [List.map_cons, List.nodup_cons] at hnd
    rw [find?_cons]
    rcases List.mem_cons.mp h with heq | hmem
    · cases heq
      rw [if_pos rfl]
    · have hne : address ≠ a := fun heq => hnd.1 (List.mem_map.mpr ⟨_, hmem, heq⟩)
      rw [if_neg hne]
      exact ih hnd.2 hmem

theorem mem_layout_iff (hnd : (m.map Prod.fst).Nodup) :
    (address, size) ∈ m.layout ↔ ∃ bytes, m.find? address = some bytes ∧ bytes.size = size := by
  constructor
  · intro h
    obtain ⟨⟨a, bytes⟩, hmem, heq⟩ := List.mem_map.mp h
    cases heq
    exact ⟨bytes, find?_of_mem hnd hmem, rfl⟩
  · rintro ⟨bytes, hfind, rfl⟩
    induction m with
    | nil => cases hfind
    | cons e m ih =>
      obtain ⟨a, b⟩ := e
      rw [List.map_cons, List.nodup_cons] at hnd
      rw [find?_cons] at hfind
      rw [layout_cons, List.mem_cons]
      split at hfind
      · next heq =>
        cases hfind
        exact Or.inl (by rw [heq])
      · exact Or.inr (ih hnd.2 hfind)

theorem layout_replace (hnd : (m.map Prod.fst).Nodup) {old new : Bytes}
    (hold : m.find? address = some old) (hsize : new.size = old.size) :
    (m.replace address new).layout = m.layout := by
  rw [layout, replace, List.map_map]
  refine List.map_congr_left fun e he => ?_
  obtain ⟨a, b⟩ := e
  by_cases ha : a = address
  · subst ha
    rw [find?_of_mem hnd he] at hold
    cases hold
    simp [hsize]
  · simp [ha]

theorem layout_remove (m : Memory) (address : Nat) :
    (m.remove address).layout = m.layout.filter fun e => e.1 ≠ address := by
  rw [layout, remove, layout, List.filter_map]
  rfl

theorem layout_of_execute (hnd : (m.map Prod.fst).Nodup) (h : m.execute launch = .value m') :
    m'.layout = m.layout := by
  obtain ⟨old, new, hold, hsize, rfl⟩ := execute_eq_value h
  exact layout_replace hnd hold hsize

theorem layout_of_runAll {stop : Option Stop} (hnd : (m.map Prod.fst).Nodup)
    (h : m.runAll launches = some (m', stop)) : m'.layout = m.layout := by
  induction launches generalizing m with
  | nil =>
    cases h
    rfl
  | cons launch launches ih =>
    rw [runAll_cons] at h
    cases hexecute : m.execute launch with
    | value next =>
      rw [hexecute] at h
      have hlayout := layout_of_execute hnd hexecute
      have hnd' : (next.map Prod.fst).Nodup := by
        rw [← map_fst_layout, hlayout, map_fst_layout]
        exact hnd
      exact (ih hnd' h).trans hlayout
    | refused e =>
      rw [hexecute] at h
      cases h
      rfl
    | halted =>
      rw [hexecute] at h
      cases h

end Memory

def DeviceStats.ofMemory (s : DeviceStats) : DeviceStats := { s with launches := 0, syncs := 0 }

namespace Device

variable {d d' d'' : Device}

/-- Whether the counts of a device are those of its memory. -/
structure Balanced (d : Device) : Prop where
  nodup : (d.memory.map Prod.fst).Nodup
  fresh : ∀ e ∈ d.memory.layout, e.1 < d.next
  live : d.stats.live = d.memory.layout.length
  liveBytes : d.stats.liveBytes = (d.memory.layout.map Prod.snd).sum
  allocations : d.stats.allocations = d.stats.frees + d.stats.live
  invalidFrees : d.stats.invalidFrees = 0

theorem balanced_new (capacity : Option Nat) (unsupported : List Dtype) :
    Balanced { capacity := capacity, unsupported := unsupported } where
  nodup := .nil
  fresh _ he := nomatch he
  live := rfl
  liveBytes := rfl
  allocations := rfl
  invalidFrees := rfl

/-- Whether the same is allocated on a device as before, and nothing was freed in between. -/
structure Unmoved (d d' : Device) : Prop where
  layout : d'.memory.layout = d.memory.layout
  next : d'.next = d.next
  stats : d'.stats.ofMemory = d.stats.ofMemory

theorem unmoved_refl (d : Device) : Unmoved d d := ⟨rfl, rfl, rfl⟩

theorem Unmoved.trans (h : Unmoved d d') (h' : Unmoved d' d'') : Unmoved d d'' :=
  ⟨h'.layout.trans h.layout, h'.next.trans h.next, h'.stats.trans h.stats⟩

theorem Unmoved.nodup (h : Unmoved d d') (hnd : (d.memory.map Prod.fst).Nodup) :
    (d'.memory.map Prod.fst).Nodup := by
  rw [← Memory.map_fst_layout, h.layout, Memory.map_fst_layout]
  exact hnd

theorem Balanced.unmoved (h : d.Balanced) (hd : Unmoved d d') : d'.Balanced := by
  have hlive := congrArg DeviceStats.live hd.stats
  have hbytes := congrArg DeviceStats.liveBytes hd.stats
  have hallocations := congrArg DeviceStats.allocations hd.stats
  have hfrees := congrArg DeviceStats.frees hd.stats
  have hinvalid := congrArg DeviceStats.invalidFrees hd.stats
  dsimp only [DeviceStats.ofMemory] at hlive hbytes hallocations hfrees hinvalid
  constructor
  · exact hd.nodup h.nodup
  · rw [hd.layout, hd.next]
    exact h.fresh
  · rw [hlive, hd.layout, h.live]
  · rw [hbytes, hd.layout, h.liveBytes]
  · rw [hallocations, hfrees, hlive, h.allocations]
  · rw [hinvalid, h.invalidFrees]

/-! ## Calls that move nothing -/

theorem unmoved_flush (hnd : (d.memory.map Prod.fst).Nodup) :
    (flush d).Always (Unmoved d) := by
  unfold Device.flush
  rcases hrun : d.memory.runAll d.queue with _ | ⟨m, _ | stop⟩
  · exact trivial
  · exact ⟨Memory.layout_of_runAll hnd hrun, rfl, rfl⟩
  · exact ⟨Memory.layout_of_runAll hnd hrun, rfl, rfl⟩

theorem unmoved_settle (hnd : (d.memory.map Prod.fst).Nodup) :
    (settle d).Always (Unmoved d) :=
  always_settle (unmoved_flush hnd) fun _ h₁ => ⟨h₁.layout, h₁.next, h₁.stats⟩

theorem unmoved_copyin (hnd : (d.memory.map Prod.fst).Nodup) (bytes : Bytes) (address : Nat) :
    (copyin bytes address d).Always (Unmoved d) := by
  refine always_copyin (unmoved_settle hnd) bytes address fun d₁ old h₁ hfind hsize => ?_
  exact ⟨(Memory.layout_replace (h₁.nodup hnd) hfind hsize).trans h₁.layout, h₁.next, h₁.stats⟩

theorem unmoved_copyout (hnd : (d.memory.map Prod.fst).Nodup) (address len : Nat) :
    (copyout address len d).Always (Unmoved d) := always_copyout (unmoved_settle hnd) address len

theorem unmoved_synchronize (hnd : (d.memory.map Prod.fst).Nodup) :
    (synchronize d).Always (Unmoved d) := by
  have hsynced : Unmoved d { d with stats := { d.stats with syncs := d.stats.syncs + 1 } } :=
    ⟨rfl, rfl, rfl⟩
  exact (unmoved_settle (hsynced.nodup hnd)).mono fun _ => hsynced.trans

theorem Balanced.copyin (h : d.Balanced) (bytes : Bytes) (address : Nat) :
    (copyin bytes address d).Always (Unmoved d) := unmoved_copyin h.nodup bytes address

theorem Balanced.copyout (h : d.Balanced) (address len : Nat) :
    (copyout address len d).Always (Unmoved d) := unmoved_copyout h.nodup address len

theorem Balanced.synchronize (h : d.Balanced) : (synchronize d).Always (Unmoved d) :=
  unmoved_synchronize h.nodup

theorem unmoved_launch (d : Device) (op : Operator) (output : Operand) (inputs : List Operand) :
    (launch op output inputs d).Always (Unmoved d) :=
  always_launch (unmoved_refl d) op output inputs fun _ => ⟨rfl, rfl, rfl⟩

/-! ## Allocating and freeing -/

theorem layout_granted (d : Device) (bytes : Nat) :
    (d.granted bytes).memory.layout = (d.next, bytes) :: d.memory.layout := by
  show Memory.layout ((d.next, Bytes.zeros bytes) :: d.memory) = _
  rw [Memory.layout_cons, Bytes.size_zeros]

theorem Balanced.granted (h : d.Balanced) (bytes : Nat) : (d.granted bytes).Balanced where
  nodup := by
    show ((d.next, Bytes.zeros bytes) :: d.memory).map Prod.fst |>.Nodup
    rw [List.map_cons, List.nodup_cons, ← Memory.map_fst_layout]
    refine ⟨fun hmem => ?_, by rw [Memory.map_fst_layout]; exact h.nodup⟩
    obtain ⟨e, he, heq⟩ := List.mem_map.mp hmem
    exact Nat.lt_irrefl _ (heq ▸ h.fresh e he)
  fresh := by
    have hpos := footprint_pos bytes
    have hnext : (d.granted bytes).next = d.next + footprint bytes := rfl
    rw [layout_granted, hnext, List.forall_mem_cons]
    exact ⟨Nat.lt_add_of_pos_right hpos, fun e he => Nat.lt_add_right _ (h.fresh e he)⟩
  live := by
    have hlive : (d.granted bytes).stats.live = d.stats.live + 1 := rfl
    rw [layout_granted, List.length_cons, hlive, h.live]
  liveBytes := by
    have hbytes : (d.granted bytes).stats.liveBytes = d.stats.liveBytes + bytes := rfl
    rw [layout_granted, List.map_cons, List.sum_cons, hbytes, h.liveBytes, Nat.add_comm]
  allocations := by
    have hallocations : (d.granted bytes).stats.allocations = d.stats.allocations + 1 := rfl
    have hlive : (d.granted bytes).stats.live = d.stats.live + 1 := rfl
    have hfrees : (d.granted bytes).stats.frees = d.stats.frees := rfl
    rw [hallocations, hlive, hfrees, h.allocations, Nat.add_assoc]
  invalidFrees := h.invalidFrees

theorem perm_filter_layout {l : List (Nat × Nat)} (hnd : (l.map Prod.fst).Nodup) {address size : Nat}
    (h : (address, size) ∈ l) :
    l.Perm ((address, size) :: l.filter fun e => e.1 ≠ address) := by
  induction l with
  | nil => cases h
  | cons e l ih =>
    rw [List.map_cons, List.nodup_cons] at hnd
    rcases List.mem_cons.mp h with rfl | hmem
    · have hrest : (l.filter fun e => decide (e.1 ≠ address)) = l := by
        refine List.filter_eq_self.mpr fun e he => decide_eq_true fun heq => hnd.1 ?_
        exact List.mem_map.mpr ⟨e, he, heq⟩
      rw [List.filter_cons_of_neg (by simp), hrest]
    · have hne : decide (e.1 ≠ address) = true := decide_eq_true fun heq =>
        hnd.1 (List.mem_map.mpr ⟨_, hmem, heq.symm⟩)
      rw [List.filter_cons, if_pos hne]
      exact ((ih hnd.2 hmem).cons e).trans (.swap ..)

theorem free_of_mem_layout (hnd : (d.memory.map Prod.fst).Nodup) {address size : Nat}
    (hmem : (address, size) ∈ d.memory.layout) :
    free address d = .halted ∨ ∃ d₁, flush d = .value () d₁ ∧ Unmoved d d₁ ∧
      (address, size) ∈ d₁.memory.layout ∧ free address d = .value () { d₁ with
        memory := d₁.memory.remove address
        stats := { d₁.stats with
          frees := d₁.stats.frees + 1
          live := d₁.stats.live - 1
          liveBytes := d₁.stats.liveBytes - size } } := by
  have hunmoved := unmoved_flush hnd
  unfold free
  cases hrun : flush d with
  | halted => exact Or.inl (Action.bind_of_halted hrun)
  | refused e d₁ =>
    unfold flush at hrun
    split at hrun <;> cases hrun
  | value _ d₁ =>
    rw [hrun] at hunmoved
    rw [← hunmoved.layout] at hmem
    obtain ⟨bytes, hfind, rfl⟩ := (Memory.mem_layout_iff (hunmoved.nodup hnd)).mp hmem
    rw [Action.bind_of_value hrun, Action.bind_of_value Action.get_apply, hfind]
    exact Or.inr ⟨d₁, rfl, hunmoved, hmem, rfl⟩

/-- What is allocated is freed, unless a queued launch halts. -/
theorem Balanced.free_cases (h : d.Balanced) {address size : Nat}
    (hmem : (address, size) ∈ d.memory.layout) :
    Device.free address d = .halted ∨ ∃ d', Device.free address d = .value () d' ∧ d'.Balanced ∧
      d'.memory.layout = d.memory.layout.filter fun e => e.1 ≠ address := by
  obtain hhalt | ⟨d₁, -, hunmoved, hmem₁, hfree⟩ := free_of_mem_layout h.nodup hmem
  · exact Or.inl hhalt
  have h₁ := h.unmoved hunmoved
  have hperm := perm_filter_layout (by rw [Memory.map_fst_layout]; exact h₁.nodup) hmem₁
  have hlayout := Memory.layout_remove d₁.memory address
  have hlen := hperm.length_eq
  have hsum := (hperm.map Prod.snd).sum_eq
  rw [List.length_cons] at hlen
  rw [List.map_cons, List.sum_cons] at hsum
  rw [← hunmoved.layout]
  refine Or.inr ⟨_, hfree, ⟨?_, ?_, ?_, ?_, ?_, h₁.invalidFrees⟩, hlayout⟩
  · exact (List.filter_sublist.map Prod.fst).nodup h₁.nodup
  · show ∀ e ∈ (d₁.memory.remove address).layout, e.1 < d₁.next
    rw [hlayout]
    exact fun e he => h₁.fresh e (List.mem_of_mem_filter he)
  · show d₁.stats.live - 1 = (d₁.memory.remove address).layout.length
    rw [hlayout, h₁.live, hlen, Nat.add_sub_cancel]
  · show d₁.stats.liveBytes - size = ((d₁.memory.remove address).layout.map Prod.snd).sum
    rw [hlayout, h₁.liveBytes, hsum, Nat.add_sub_cancel_left]
  · show d₁.stats.allocations = d₁.stats.frees + 1 + (d₁.stats.live - 1)
    rw [h₁.allocations, h₁.live, hlen]
    omega

end Device
end TensorGraph
