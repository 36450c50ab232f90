/-
The memory discipline of a device.

A device hands out ranges of addresses one behind the other, so no two ranges that it has ever
handed out overlap, and what is live was handed out once.  `Recorded` is the invariant: it relates
a device to the list of all allocations that were made on it.  Every call preserves it, whether it
is carried out or refused, and `disciplined_after` reads it off behind any calls of a new device.
-/
import TensorGraph.Proofs.Device.Grown

namespace TensorGraph

/-- Whether the allocations that a launch names are live and large enough for the shapes it names
them by, and its output is none of its inputs. -/
structure Launch.Backed (layout : List (Nat × Nat)) (l : Launch) : Prop where
  fits : ∀ operand ∈ l.inputs ++ [l.output], ∃ size n,
    (operand.address, size) ∈ layout ∧ operand.shape.storageBytes = some n ∧ n ≤ size
  distinct : ∀ input ∈ l.inputs, input.address ≠ l.output.address

theorem Launch.Backed.mono {layout layout' : List (Nat × Nat)} {l : Launch}
    (h : l.Backed layout) (hsubset : layout ⊆ layout') : l.Backed layout' where
  fits operand hmem := by
    obtain ⟨size, n, hlive, hn⟩ := h.fits operand hmem
    exact ⟨size, n, hsubset hlive, hn⟩
  distinct := h.distinct

def DeviceStats.ofAllocations (s : DeviceStats) : DeviceStats :=
  { s with launches := 0, syncs := 0, invalidFrees := 0 }

namespace Device

variable {d d' : Device} {past : List (Nat × Nat)} {bytes : Nat}

/-! ## Launches that are accepted -/

theorem requireFits_eq_value {operand : Operand} {u : Unit}
    (h : requireFits operand d = .value u d') :
    d' = d ∧ ∃ bytes n, d.memory.find? operand.address = some bytes ∧
      operand.shape.storageBytes = some n ∧ n ≤ bytes.size := by
  unfold requireFits at h
  rcases Option.eq_none_or_eq_some (d.memory.find? operand.address) with hfind | ⟨bytes, hfind⟩
  · rw [Action.bind_of_refused (allocation_of_none hfind _)] at h
    cases h
  · rw [Action.bind_of_value (allocation_of_some hfind _)] at h
    rcases Option.eq_none_or_eq_some operand.shape.storageBytes with hn | ⟨n, hn⟩
    · rw [Action.bind_lift_of_none hn] at h
      cases h
    · rw [Action.bind_lift_of_some hn] at h
      by_cases hlt : bytes.size < n
      · rw [if_pos hlt] at h
        cases h
      · rw [if_neg hlt] at h
        cases h
        exact ⟨rfl, bytes, n, hfind, hn, Nat.not_lt.mp hlt⟩

theorem forEach_requireFits_eq_value {operands : List Operand} {u : Unit}
    (h : Action.forEach requireFits operands d = .value u d') :
    d' = d ∧ ∀ operand ∈ operands, ∃ bytes n, d.memory.find? operand.address = some bytes ∧
      operand.shape.storageBytes = some n ∧ n ≤ bytes.size := by
  induction operands with
  | nil =>
    cases h
    exact ⟨rfl, fun _ hmem => nomatch hmem⟩
  | cons operand operands ih =>
    rw [Action.forEach_cons, Action.bind_eq_value] at h
    obtain ⟨_, d₁, hfirst, hrest⟩ := h
    obtain ⟨rfl, hfit⟩ := requireFits_eq_value hfirst
    obtain ⟨rfl, hfits⟩ := ih hrest
    exact ⟨rfl, List.forall_mem_cons.mpr ⟨hfit, hfits⟩⟩

/-- What a device has checked when it accepts a launch. -/
theorem backed_of_launch {op : Operator} {output : Operand} {inputs : List Operand} {u : Unit}
    (hnd : (d.memory.map Prod.fst).Nodup) (h : launch op output inputs d = .value u d') :
    Launch.Backed d.memory.layout ⟨op, output, inputs⟩ := by
  by_cases hsupports : d.supports op output.shape.dtype = true
  · by_cases halias : (inputs.any fun i => i.address = output.address) = true
    · unfold launch at h
      rw [Action.bind_of_value Action.get_apply, hsupports, halias] at h
      cases h
    · have hdistinct : ∀ i ∈ inputs, i.address ≠ output.address := fun i hi heq =>
        halias (List.any_eq_true.mpr ⟨i, hi, decide_eq_true heq⟩)
      rw [launch_of_supports hsupports hdistinct, Action.bind_eq_value] at h
      obtain ⟨_, d₁, hfits, -⟩ := h
      refine ⟨fun operand hmem => ?_, hdistinct⟩
      obtain ⟨bytes, n, hfind, hn, hle⟩ := (forEach_requireFits_eq_value hfits).2 operand hmem
      exact ⟨bytes.size, n, (Memory.mem_layout_iff hnd).mpr ⟨bytes, hfind, rfl⟩, hn, hle⟩
  · rw [Bool.not_eq_true] at hsupports
    unfold launch at h
    rw [Action.bind_of_value Action.get_apply, hsupports] at h
    cases h

/-! ## Allocations that were made -/

def Apart (e f : Nat × Nat) : Prop := e.1 + footprint e.2 ≤ f.1 ∨ f.1 + footprint f.2 ≤ e.1

theorem Apart.address_ne {e f : Nat × Nat} (h : Apart e f) : e.1 ≠ f.1 := by
  have he := footprint_pos e.2
  have hf := footprint_pos f.2
  unfold Apart at h
  omega

theorem alignment_dvd_footprint (bytes : Nat) : alignment ∣ footprint bytes :=
  Nat.dvd_mul_left alignment _

/-- Whether a device is one on which the allocations `past` were made: they follow
one another in the addresses, and what is live or named by a queued launch is among them. -/
structure Recorded (past : List (Nat × Nat)) (d : Device) : Prop extends d.Booked where
  capacity : ∀ capacity, d.capacity = some capacity → d.stats.liveBytes ≤ capacity
  allocations : d.stats.allocations = d.stats.frees + d.stats.live
  next : alignment ∣ d.next
  aligned : ∀ e ∈ past, alignment ∣ e.1
  below : ∀ e ∈ past, e.1 + footprint e.2 ≤ d.next
  apart : past.Pairwise Apart
  subset : d.memory.layout ⊆ past
  queue : ∀ l ∈ d.queue, l.Backed d.memory.layout

theorem recorded_new (capacity : Option Nat) (unsupported : List Dtype) :
    Recorded [] { capacity := capacity, unsupported := unsupported } where
  nodup := .nil
  live := rfl
  liveBytes := rfl
  capacity _ _ := Nat.zero_le _
  allocations := rfl
  next := ⟨16, rfl⟩
  aligned _ he := nomatch he
  below _ he := nomatch he
  apart := .nil
  subset _ he := nomatch he
  queue _ hl := nomatch hl

theorem Recorded.congr (h : d.Recorded past) (hlayout : d'.memory.layout = d.memory.layout)
    (hqueue : d'.queue ⊆ d.queue) (hnext : d'.next = d.next) (hcapacity : d'.capacity = d.capacity)
    (hstats : d'.stats.ofAllocations = d.stats.ofAllocations) : d'.Recorded past := by
  obtain ⟨hallocations, hfrees, hlive, hbytes, -⟩ := DeviceStats.mk.inj hstats
  refine ⟨h.toBooked.congr hlayout hlive hbytes, ?_, ?_, ?_, h.aligned, ?_, h.apart, ?_, ?_⟩
  · rw [hcapacity, hbytes]
    exact h.capacity
  · rw [hallocations, hfrees, hlive, h.allocations]
  · rw [hnext]
    exact h.next
  · rw [hnext]
    exact h.below
  · rw [hlayout]
    exact h.subset
  · rw [hlayout]
    exact fun l hl => h.queue l (hqueue hl)

/-! ## Calls -/

theorem Recorded.flush (h : d.Recorded past) :
    (flush d).Always fun d' => d'.Recorded past ∧ d'.queue = [] := by
  unfold Device.flush
  rcases hrun : d.memory.runAll d.queue with _ | ⟨m, stop⟩
  · exact trivial
  · have hlayout := Memory.layout_of_runAll h.nodup hrun
    cases stop with
    | none => exact ⟨h.congr hlayout (List.nil_subset _) rfl rfl rfl, rfl⟩
    | some stop => exact ⟨h.congr hlayout (List.nil_subset _) rfl rfl rfl, rfl⟩

theorem Recorded.settle (h : d.Recorded past) : (settle d).Always (Recorded past) :=
  always_settle (h.flush.mono fun _ => And.left) fun _ h₁ =>
    h₁.congr rfl (List.Subset.refl _) rfl rfl rfl

theorem Recorded.granted (h : d.Recorded past) (ho : d.Ordered) (hroom : d.Room bytes)
    (hexceeds : ¬d.Exceeds bytes) : (d.granted bytes).Recorded (past ++ [(d.next, bytes)]) := by
  have hlayout := layout_granted d bytes
  have hlast := List.mem_append_right past (List.mem_singleton_self (d.next, bytes))
  refine ⟨h.toBooked.granted ho bytes, ?_, ?_, ?_, ?_, ?_, ?_, ?_, ?_⟩
  · intro capacity hcapacity
    show d.stats.liveBytes + bytes ≤ capacity
    exact Nat.not_lt.mp fun hlt => hexceeds ⟨capacity, hcapacity, hroom.2.2, hlt⟩
  · show d.stats.allocations + 1 = d.stats.frees + (d.stats.live + 1)
    have hbooks := h.allocations
    omega
  · exact Nat.dvd_add h.next (alignment_dvd_footprint bytes)
  · rw [List.forall_mem_append, List.forall_mem_singleton]
    exact ⟨h.aligned, h.next⟩
  · show ∀ e ∈ past ++ [(d.next, bytes)], e.1 + footprint e.2 ≤ d.next + footprint bytes
    rw [List.forall_mem_append, List.forall_mem_singleton]
    exact ⟨fun e he => Nat.le_add_right_of_le (h.below e he), Nat.le_refl _⟩
  · rw [List.pairwise_append]
    refine ⟨h.apart, List.pairwise_singleton _ _, fun e he f hf => ?_⟩
    rw [List.mem_singleton.mp hf]
    exact Or.inl (h.below e he)
  · rw [hlayout]
    exact List.cons_subset.mpr ⟨hlast, List.subset_append_of_subset_left _ h.subset⟩
  · rw [hlayout]
    exact fun l hl => (h.queue l hl).mono (List.subset_cons_self _ _)

theorem Recorded.freed (h : d.Recorded past) {address size : Nat}
    (hmem : (address, size) ∈ d.memory.layout) : (d.freed d.memory address size).Recorded past := by
  have hlive : 0 < d.stats.live := by
    rw [h.live]
    exact List.length_pos_of_mem hmem
  refine ⟨h.toBooked.freed rfl hmem, ?_, ?_, h.next, h.aligned, h.below, h.apart, ?_, ?_⟩
  · exact fun capacity hcapacity => (Nat.sub_le _ _).trans (h.capacity capacity hcapacity)
  · show d.stats.allocations = d.stats.frees + 1 + (d.stats.live - 1)
    have hbooks := h.allocations
    omega
  · show (d.memory.remove address).layout ⊆ past
    rw [Memory.layout_remove]
    exact fun e he => h.subset (List.mem_of_mem_filter he)
  · exact fun _ hl => nomatch hl

theorem Recorded.free (h : d.Recorded past) (address : Nat) :
    (free address d).Always (Recorded past) := by
  -- nothing is queued when the block goes, so no launch is left without an operand
  have hkept : (Device.free address d).Always fun d' => d'.Recorded past ∧ d'.queue = [] := by
    refine always_free h.flush address ?_ ?_
    · exact fun _ h₁ => ⟨h₁.1.congr rfl (List.Subset.refl _) rfl rfl rfl, h₁.2⟩
    · intro d₁ bytes h₁ hfind
      have hmem := (Memory.mem_layout_iff h₁.1.nodup).mpr ⟨bytes, hfind, rfl⟩
      exact ⟨(h₁.1.freed hmem).congr rfl (List.subset_nil.mpr h₁.2) rfl rfl rfl, h₁.2⟩
  exact hkept.mono fun _ => And.left

theorem Recorded.copyin (h : d.Recorded past) (bytes : Bytes) (address : Nat) :
    (copyin bytes address d).Always (Recorded past) :=
  always_copyin h.settle bytes address fun _ _ h₁ hfind hsize =>
    h₁.congr (Memory.layout_replace h₁.nodup hfind hsize) (List.Subset.refl _) rfl rfl rfl

theorem Recorded.copyout (h : d.Recorded past) (address len : Nat) :
    (copyout address len d).Always (Recorded past) := always_copyout h.settle address len

theorem Recorded.launch (h : d.Recorded past) (op : Operator) (output : Operand)
    (inputs : List Operand) : (launch op output inputs d).Always (Recorded past) := by
  rcases launch_cases d op output inputs with ⟨hvalue, -⟩ | ⟨e, hrefused⟩ | hhalt
  · have hbacked := backed_of_launch h.nodup hvalue
    rw [hvalue]
    refine ⟨h.toBooked.congr rfl rfl rfl, h.capacity, h.allocations, h.next, h.aligned, h.below,
      h.apart, h.subset, ?_⟩
    show ∀ l ∈ d.queue ++ [⟨op, output, inputs⟩], l.Backed d.memory.layout
    rw [List.forall_mem_append, List.forall_mem_singleton]
    exact ⟨h.queue, hbacked⟩
  · rw [hrefused]
    exact h
  · rw [hhalt]
    exact trivial

theorem Recorded.synchronize (h : d.Recorded past) : (synchronize d).Always (Recorded past) := by
  rw [synchronize_eq]
  exact Recorded.settle (h.congr rfl (List.Subset.refl _) rfl rfl rfl)

/-! ## Calls in a row -/

/-- The allocation that a call makes: the address that it gives, and the bytes asked for. -/
def Call.made : Call → Device → List (Nat × Nat)
  | alloc bytes, d =>
    match Device.alloc bytes d with
    | .value address _ => [(address, bytes)]
    | _ => []
  | _, _ => []

def made : List Call → Device → List (Nat × Nat)
  | [], _ => []
  | call :: rest, d =>
    call.made d ++
      match (call.perform launch d).state? with
      | some next => made rest next
      | none => []

theorem Ordered.perform (h : d.Ordered) (call : Call) :
    (call.perform Device.launch d).Always Ordered := by
  cases call with
  | alloc bytes => exact Action.always_bind (h.alloc bytes) fun _ _ h' => h'
  | free address => exact Action.always_bind (h.free address) fun _ _ h' => h'
  | copyin bytes address => exact Action.always_bind (h.copyin bytes address) fun _ _ h' => h'
  | copyout address len => exact Action.always_bind (h.copyout address len) fun _ _ h' => h'
  | launch op output inputs =>
    exact Action.always_bind (h.launch op output inputs) fun _ _ h' => h'
  | synchronize => exact Action.always_bind h.synchronize fun _ _ h' => h'

theorem Ordered.run {calls : List Call} (h : d.Ordered)
    (hafter : after Device.launch calls d = some d') : d'.Ordered :=
  always_after (fun _ call hd => hd.perform call) h hafter

theorem Recorded.alloc (h : d.Recorded past) (ho : d.Ordered) (bytes : Nat) :
    (alloc bytes d).Always (Recorded (past ++ (Call.alloc bytes).made d)) := by
  rcases alloc_cases d bytes with ⟨hvalue, hroom, hexceeds⟩ | ⟨c, -, -, hrefused⟩ | ⟨hhalt, -⟩
  · have hmade : (Call.alloc bytes).made d = [(d.next, bytes)] := by simp only [Call.made, hvalue]
    rw [hvalue, hmade]
    exact h.granted ho hroom hexceeds
  · have hmade : (Call.alloc bytes).made d = [] := by simp only [Call.made, hrefused]
    rw [hrefused, hmade, List.append_nil]
    exact h
  · rw [hhalt]
    exact trivial

/-- One call adds to the record what it allocates. -/
theorem Recorded.perform (h : d.Recorded past) (ho : d.Ordered) (call : Call) :
    (call.perform Device.launch d).Always (Recorded (past ++ call.made d)) := by
  have hnone : d.Recorded (past ++ []) := by
    rw [List.append_nil]
    exact h
  cases call with
  | alloc bytes => exact Action.always_bind (h.alloc ho bytes) fun _ _ h' => h'
  | free address => exact Action.always_bind (hnone.free address) fun _ _ h' => h'
  | copyin bytes address => exact Action.always_bind (hnone.copyin bytes address) fun _ _ h' => h'
  | copyout address len => exact Action.always_bind (hnone.copyout address len) fun _ _ h' => h'
  | launch op output inputs =>
    exact Action.always_bind (hnone.launch op output inputs) fun _ _ h' => h'
  | synchronize => exact Action.always_bind hnone.synchronize fun _ _ h' => h'

theorem Recorded.run {calls : List Call} (h : d.Recorded past) (ho : d.Ordered)
    (hafter : after Device.launch calls d = some d') : d'.Recorded (past ++ made calls d) := by
  induction calls generalizing past d with
  | nil =>
    cases hafter
    rw [made, List.append_nil]
    exact h
  | cons call rest ih =>
    have hrecorded := h.perform ho call
    have hordered := ho.perform call
    rw [after] at hafter
    rw [made]
    cases hturn : call.perform Device.launch d with
    | value reply next =>
      rw [hturn] at hafter hrecorded hordered
      rw [← List.append_assoc]
      exact ih hrecorded hordered hafter
    | refused e next =>
      rw [hturn] at hafter hrecorded hordered
      rw [← List.append_assoc]
      exact ih hrecorded hordered hafter
    | halted =>
      rw [hturn] at hafter
      cases hafter

/-! ## Devices behind calls -/

/-- Whether a device keeps order in its memory, where `past` are the allocations that were ever
made on it. -/
structure Disciplined (past : List (Nat × Nat)) (d : Device) : Prop where
  live : d.stats.live = d.memory.layout.length
  liveBytes : d.stats.liveBytes = (d.memory.layout.map Prod.snd).sum
  capacity : ∀ capacity, d.capacity = some capacity → d.stats.liveBytes ≤ capacity
  allocations : d.stats.allocations = d.stats.frees + d.stats.live
  placed : ∀ e ∈ d.memory.layout, alignment ∣ e.1 ∧ e.1 < d.next
  issued : ∀ e ∈ d.memory.layout, e ∈ past ∧ (past.map Prod.fst).count e.1 = 1
  apart : d.memory.layout.Pairwise Apart
  once : (past.map Prod.fst).Nodup
  queue : ∀ l ∈ d.queue, l.Backed d.memory.layout

/-- No address is recorded twice. -/
theorem Recorded.once (h : d.Recorded past) : (past.map Prod.fst).Nodup :=
  List.pairwise_map.mpr (h.apart.imp Apart.address_ne)

theorem Recorded.layout_apart (h : d.Recorded past) : d.memory.layout.Pairwise Apart := by
  have hnd : (d.memory.layout.map Prod.fst).Nodup := by
    rw [Memory.map_fst_layout]
    exact h.nodup
  refine (List.pairwise_map.mp hnd).imp_of_mem fun he hf hne => ?_
  have hsymm : Std.Symm Apart := ⟨fun _ _ => Or.symm⟩
  exact h.apart.forall (h.subset he) (h.subset hf) fun heq => hne (heq ▸ rfl)

theorem Recorded.disciplined (h : d.Recorded past) : d.Disciplined past where
  live := h.live
  liveBytes := h.liveBytes
  capacity := h.capacity
  allocations := h.allocations
  placed e he := by
    have hbelow := h.below e (h.subset he)
    have hpos := footprint_pos e.2
    exact ⟨h.aligned e (h.subset he), by omega⟩
  issued e he := by
    refine ⟨h.subset he, List.count_eq_one_of_mem h.once ?_⟩
    exact List.mem_map_of_mem (h.subset he)
  apart := h.layout_apart
  once := h.once
  queue := h.queue

/-- Calls of a new device, carried out or refused, leave its memory in order. -/
theorem disciplined_after (capacity : Option Nat) (unsupported : List Dtype) (calls : List Call)
    (h : after launch calls { capacity := capacity, unsupported := unsupported } = some d) :
    d.Disciplined (made calls { capacity := capacity, unsupported := unsupported }) := by
  have hordered := Reached.ordered ⟨capacity, unsupported, .refl⟩
  exact ((recorded_new capacity unsupported).run hordered h).disciplined

/-- Calls of a device with room for eight bytes.  The third allocation and the second free are
refused, and a launch is queued in the end. -/
def rationed : List Call :=
  [.alloc 2, .alloc 3, .alloc 4, .free 4096, .free 4096, .alloc 2,
    .launch .contiguous ⟨4608, pair⟩ [⟨4352, pair⟩]]

theorem disciplined_after_rationed : ∃ d, after launch rationed { capacity := some 8 } = some d ∧
    d.stats = ⟨3, 1, 2, 5, 1, 0, 1⟩ ∧ d.queue.length = 1 ∧
    d.Disciplined (made rationed { capacity := some 8 }) := by
  have hends : (after launch rationed { capacity := some 8 }).map
      (fun d => (d.stats, d.queue.length)) = some (⟨3, 1, 2, 5, 1, 0, 1⟩, 1) := by decide +kernel
  obtain ⟨d, hd, heq⟩ := Option.map_eq_some_iff.mp hends
  obtain ⟨hstats, hqueue⟩ := Prod.mk.inj heq
  exact ⟨d, hd, hstats, hqueue, disciplined_after (some 8) [] rationed hd⟩

end Device
end TensorGraph
