/-
Devices with some allocations more.

A device hands out no address twice, so what was allocated before a point can be told from what
came after it.  `Grown` says that a device is an earlier one with allocations that came later:
whoever held something before finds it there, of the same size and with the same bytes.  It is
preserved by every call that writes to later allocations only, and when the last of those is
gone, the earlier device is back in all that can be told by calls (`Grown.restored`).
-/
import TensorGraph.Proofs.Device.Clear

namespace TensorGraph

namespace Device

variable {d d' d₀ : Device} {m : Memory} {address size : Nat} {old : Bytes} {l : Launch}

/-! ## Books -/

structure Booked (d : Device) : Prop where
  nodup : (d.memory.map Prod.fst).Nodup
  live : d.stats.live = d.memory.layout.length
  liveBytes : d.stats.liveBytes = (d.memory.layout.map Prod.snd).sum

theorem Booked.congr (h : d.Booked) (hlayout : d'.memory.layout = d.memory.layout)
    (hlive : d'.stats.live = d.stats.live) (hbytes : d'.stats.liveBytes = d.stats.liveBytes) :
    d'.Booked where
  nodup := by
    rw [← Memory.map_fst_layout, hlayout, Memory.map_fst_layout]
    exact h.nodup
  live := by rw [hlive, hlayout, h.live]
  liveBytes := by rw [hbytes, hlayout, h.liveBytes]

theorem Booked.flush (h : d.Booked) : (flush d).Always Booked := by
  unfold Device.flush
  rcases hrun : d.memory.runAll d.queue with _ | ⟨m, _ | stop⟩
  · exact trivial
  · exact h.congr (Memory.layout_of_runAll h.nodup hrun) rfl rfl
  · exact h.congr (Memory.layout_of_runAll h.nodup hrun) rfl rfl

theorem Booked.settle (h : d.Booked) : (settle d).Always Booked :=
  always_settle h.flush fun _ h₁ => h₁.congr rfl rfl rfl

theorem Booked.granted (h : d.Booked) (ho : d.Ordered) (bytes : Nat) :
    (d.granted bytes).Booked where
  nodup := by
    show ((d.next, Bytes.zeros bytes) :: d.memory).map Prod.fst |>.Nodup
    rw [List.map_cons, List.nodup_cons]
    refine ⟨fun hmem => ?_, h.nodup⟩
    obtain ⟨⟨a, b⟩, he, heq⟩ := List.mem_map.mp hmem
    cases heq
    exact Nat.lt_irrefl _ (ho.memory _ _ (Memory.find?_of_mem h.nodup he))
  live := by
    rw [layout_granted, List.length_cons, ← h.live]
    rfl
  liveBytes := by
    rw [layout_granted, List.map_cons, List.sum_cons, ← h.liveBytes, Nat.add_comm]
    rfl

theorem Booked.freed (h : d.Booked) (hlayout : m.layout = d.memory.layout)
    (hmem : (address, size) ∈ d.memory.layout) : (d.freed m address size).Booked := by
  have hnd : (m.layout.map Prod.fst).Nodup := by
    rw [hlayout, Memory.map_fst_layout]
    exact h.nodup
  have hperm := perm_filter_layout hnd (hlayout ▸ hmem)
  rw [← Memory.layout_remove] at hperm
  have hlen := hperm.length_eq
  have hsum := (hperm.map Prod.snd).sum_eq
  rw [List.length_cons, hlayout, ← h.live] at hlen
  rw [List.map_cons, List.sum_cons, hlayout, ← h.liveBytes] at hsum
  refine ⟨?_, ?_, ?_⟩
  · show ((m.remove address).map Prod.fst).Nodup
    rw [Memory.map_fst_layout] at hnd
    exact (List.filter_sublist.map Prod.fst).nodup hnd
  · show d.stats.live - 1 = (m.remove address).layout.length
    rw [hlen, Nat.add_sub_cancel]
  · show d.stats.liveBytes - size = ((m.remove address).layout.map Prod.snd).sum
    rw [hsum, Nat.add_sub_cancel_left]

theorem Booked.free (h : d.Booked) (address : Nat) : (free address d).Always Booked := by
  refine always_free h.flush address (fun _ h₁ => h₁.congr rfl rfl rfl) fun _ bytes h₁ hfind => ?_
  have hmem := (Memory.mem_layout_iff h₁.nodup).mpr ⟨bytes, hfind, rfl⟩
  exact (h₁.freed rfl hmem).congr rfl rfl rfl

theorem Booked.copyin (h : d.Booked) (bytes : Bytes) (address : Nat) :
    (copyin bytes address d).Always Booked :=
  always_copyin h.settle bytes address fun _ _ h₁ hfind hsize =>
    h₁.congr (Memory.layout_replace h₁.nodup hfind hsize) rfl rfl

theorem Booked.copyout (h : d.Booked) (address len : Nat) :
    (copyout address len d).Always Booked := always_copyout h.settle address len

theorem Booked.step (h : d.Booked) (ho : d.Ordered) (hstep : Step d d') : d'.Booked := by
  cases hstep with
  | @alloc _ bytes hleaves =>
    exact (always_alloc h bytes fun _ _ => h.granted ho bytes).of_leaves hleaves
  | free hleaves => exact (h.free _).of_leaves hleaves
  | copyin hleaves => exact (h.copyin _ _).of_leaves hleaves
  | copyout hleaves => exact (h.copyout _ _).of_leaves hleaves
  | @launch _ op output inputs hleaves =>
    exact (always_launch h op output inputs fun _ => h.congr rfl rfl rfl).of_leaves hleaves
  | synchronize hleaves =>
    have hsynced : Booked { d with stats := { d.stats with syncs := d.stats.syncs + 1 } } :=
      h.congr rfl rfl rfl
    exact hsynced.settle.of_leaves hleaves
  | collect => exact h.congr rfl rfl rfl

theorem Reached.booked (h : d.Reached) : d.Booked := by
  obtain ⟨capacity, unsupported, hpath⟩ := h
  induction hpath with
  | refl => exact ⟨.nil, rfl, rfl⟩
  | tail hpath hstep ih => exact ih.step (Reached.ordered ⟨_, _, hpath⟩) hstep

/-! ## Devices on which nothing fails -/

/-- Whether addresses and counts of a device are right, and nothing fails there. -/
structure Firm (d : Device) : Prop extends d.Booked where
  clear : d.Clear
  ordered : d.Ordered

theorem Firm.lt_next (h : d.Firm) (hmem : (address, size) ∈ d.memory.layout) :
    address < d.next := by
  obtain ⟨bytes, hfind, -⟩ := (Memory.mem_layout_iff h.nodup).mp hmem
  exact h.ordered.memory _ _ hfind

theorem Firm.mem_layout (h : d.Firm) (hfind : d.memory.find? address = some old) :
    (address, old.size) ∈ d.memory.layout := (Memory.mem_layout_iff h.nodup).mpr ⟨old, hfind, rfl⟩

/-- An address is allocated with one size only. -/
theorem Firm.size_unique (h : d.Firm) {size' : Nat} (hmem : (address, size) ∈ d.memory.layout)
    (hmem' : (address, size') ∈ d.memory.layout) : size = size' := by
  obtain ⟨bytes, hfind, hsize⟩ := (Memory.mem_layout_iff h.nodup).mp hmem
  obtain ⟨bytes', hfind', hsize'⟩ := (Memory.mem_layout_iff h.nodup).mp hmem'
  rw [hfind] at hfind'
  cases hfind'
  rw [← hsize, hsize']

theorem Firm.find?_of_final? (h : d.Firm) (hfinal : d.final? = some m)
    (hmem : (address, size) ∈ d.memory.layout) :
    ∃ bytes, m.find? address = some bytes ∧ bytes.size = size := by
  obtain ⟨old, hold, rfl⟩ := (Memory.mem_layout_iff h.nodup).mp hmem
  exact Device.find?_of_final? hfinal hold

theorem Firm.lt_next_of_read? (h : d.Firm) (hread : d.read? address = some old) :
    address < d.next := by
  obtain ⟨m, hfinal, hfind⟩ := read?_eq_some.mp hread
  have hmem := Memory.mem_layout_iff (m := m) (by
    rw [← Memory.map_fst_layout, layout_of_final? h.nodup hfinal, Memory.map_fst_layout]
    exact h.nodup) |>.mpr ⟨old, hfind, rfl⟩
  rw [layout_of_final? h.nodup hfinal] at hmem
  exact h.lt_next hmem

theorem Firm.ran (h : d.Firm) (hfinal : d.final? = some m) : (d.ran m).Firm where
  toBooked := h.toBooked.congr (layout_of_final? h.nodup hfinal) rfl rfl
  clear := clear_of_queue_nil rfl h.clear.failure
  ordered := h.ordered.rewritten (sameSizes_of_final? hfinal) rfl (List.nil_subset _) rfl rfl

theorem Firm.granted (h : d.Firm) (hroom : d.Room size) : (d.granted size).Firm where
  toBooked := h.toBooked.granted h.ordered size
  clear := h.clear.granted h.ordered size
  ordered := h.ordered.granted hroom

theorem Firm.replaced (h : d.Firm) (hfinal : d.final? = some m)
    (hfind : d.memory.find? address = some old) {bytes : Bytes} (hsize : bytes.size = old.size) :
    (d.ran (m.replace address bytes)).Firm := by
  obtain ⟨old', hold, hsize'⟩ := Device.find?_of_final? hfinal hfind
  have hsame : bytes.size = old'.size := hsize.trans hsize'.symm
  have hran := h.ran hfinal
  refine ⟨hran.toBooked.congr (Memory.layout_replace hran.nodup hold hsame) rfl rfl,
    clear_of_queue_nil rfl h.clear.failure, ?_⟩
  exact hran.ordered.rewritten (Memory.sameSizes_replace hold hsame) rfl (List.nil_subset _) rfl rfl

theorem Firm.queued (h : d.Firm) {op : Operator} {output : Operand} {inputs : List Operand}
    (hsure : Launch.Sure ⟨op, output, inputs⟩)
    (hfind : ∀ operand ∈ inputs ++ [output], ∃ bytes,
      d.memory.find? operand.address = some bytes) : (d.queued ⟨op, output, inputs⟩).Firm where
  toBooked := h.toBooked.congr rfl rfl rfl
  ordered := h.ordered.queued hfind
  clear := by
    refine h.clear.queued hsure ?_
    unfold Launch.addresses
    rw [List.forall_mem_cons, List.forall_mem_map]
    refine ⟨?_, fun operand hmem => ?_⟩
    · obtain ⟨bytes, hbytes⟩ := hfind output (List.mem_append_right _ List.mem_cons_self)
      exact Option.ne_none_iff_exists'.mpr ⟨bytes, hbytes⟩
    · obtain ⟨bytes, hbytes⟩ := hfind operand (List.mem_append_left _ hmem)
      exact Option.ne_none_iff_exists'.mpr ⟨bytes, hbytes⟩

theorem Firm.freed (h : d.Firm) (hfinal : d.final? = some m)
    (hmem : (address, size) ∈ d.memory.layout) : (d.freed m address size).Firm where
  toBooked := h.toBooked.freed (layout_of_final? h.nodup hfinal) hmem
  clear := clear_of_queue_nil rfl h.clear.failure
  ordered := (h.ran hfinal).ordered.remove rfl rfl rfl (Nat.sub_le _ _)

/-! ## The same device behind a call -/

/-- Whether a device is another one of which nothing was allocated, freed or written. -/
structure Quiet (d d' : Device) : Prop where
  firm : d'.Firm
  next : d'.next = d.next
  capacity : d'.capacity = d.capacity
  unsupported : d'.unsupported = d.unsupported
  layout : d'.memory.layout = d.memory.layout
  final? : d'.final? = d.final?

theorem quiet_refl (h : d.Firm) : d.Quiet d := ⟨h, rfl, rfl, rfl, rfl, rfl⟩

theorem Quiet.trans {d'' : Device} (h : d.Quiet d') (h' : d'.Quiet d'') : d.Quiet d'' :=
  ⟨h'.firm, h'.next.trans h.next, h'.capacity.trans h.capacity,
    h'.unsupported.trans h.unsupported, h'.layout.trans h.layout, h'.final?.trans h.final?⟩

theorem Quiet.read? (h : d.Quiet d') (address : Nat) : d'.read? address = d.read? address := by
  unfold Device.read?
  rw [h.final?]

theorem Quiet.liveBytes (h : d.Quiet d') (hd : d.Firm) :
    d'.stats.liveBytes = d.stats.liveBytes := by
  rw [h.firm.liveBytes, h.layout, hd.liveBytes]

theorem quiet_ran (h : d.Firm) (hfinal : d.final? = some m) : d.Quiet (d.ran m) :=
  ⟨h.ran hfinal, rfl, rfl, rfl, layout_of_final? h.nodup hfinal, by rw [hfinal, final?_ran]⟩

theorem quiet_synced (h : d.Firm) : d.Quiet d.synced :=
  ⟨⟨h.toBooked.congr rfl rfl rfl, h.clear.synced,
    ⟨h.ordered.memory, h.ordered.holdable, h.ordered.queue, h.ordered.liveBytes⟩⟩,
    rfl, rfl, rfl, rfl, rfl⟩

theorem quiet_collect (h : d.Firm) : d.Quiet { d with notices := [] } :=
  ⟨⟨h.toBooked.congr rfl rfl rfl, ⟨h.clear.failure, h.clear.queue⟩,
    ⟨h.ordered.memory, h.ordered.holdable, h.ordered.queue, h.ordered.liveBytes⟩⟩,
    rfl, rfl, rfl, rfl, rfl⟩

/-! ## Later allocations -/

/-- Whether a device is an earlier one with allocations that came later. -/
structure Grown (d₀ d : Device) : Prop where
  firm : d.Firm
  next : d₀.next ≤ d.next
  capacity : d.capacity = d₀.capacity
  unsupported : d.unsupported = d₀.unsupported
  layout : (d.memory.layout.filter fun e => e.1 < d₀.next) = d₀.memory.layout
  behind : ∀ m, d.final? = some m →
    ∃ m₀, d₀.final? = some m₀ ∧ ∀ a < d₀.next, m.find? a = m₀.find? a
  revives : (∀ e ∈ d.memory.layout, e.1 < d₀.next) → ∀ m₀, d₀.final? = some m₀ →
    ∃ m, d.final? = some m

theorem grown_refl (h : d.Firm) : d.Grown d where
  firm := h
  next := le_rfl
  capacity := rfl
  unsupported := rfl
  layout := List.filter_eq_self.mpr fun e he =>
    decide_eq_true (h.lt_next (show (e.1, e.2) ∈ _ from he))
  behind m hm := ⟨m, hm, fun _ _ => rfl⟩
  revives _ m hm := ⟨m, hm⟩

theorem Grown.mem_layout_iff (h : d₀.Grown d) (hlt : address < d₀.next) :
    (address, size) ∈ d.memory.layout ↔ (address, size) ∈ d₀.memory.layout := by
  rw [← h.layout, List.mem_filter, decide_eq_true_iff]
  exact (and_iff_left hlt).symm

theorem Grown.quiet (h : d₀.Grown d) (hq : d.Quiet d') : d₀.Grown d' where
  firm := hq.firm
  next := hq.next ▸ h.next
  capacity := hq.capacity.trans h.capacity
  unsupported := hq.unsupported.trans h.unsupported
  layout := hq.layout ▸ h.layout
  behind := hq.final? ▸ h.behind
  revives := hq.layout ▸ hq.final? ▸ h.revives

theorem Grown.granted (h : d₀.Grown d) (hroom : d.Room size) : d₀.Grown (d.granted size) where
  firm := h.firm.granted hroom
  next := h.next.trans (Nat.le_add_right _ _)
  capacity := h.capacity
  unsupported := h.unsupported
  layout := by
    rw [layout_granted, List.filter_cons_of_neg, h.layout]
    rw [decide_eq_true_iff]
    exact Nat.not_lt.mpr h.next
  behind m' hm' := by
    obtain ⟨m, hm, rfl⟩ := (final?_granted h.firm.ordered).mp hm'
    obtain ⟨m₀, hm₀, hagree⟩ := h.behind m hm
    refine ⟨m₀, hm₀, fun a ha => ?_⟩
    rw [Memory.find?_cons, if_neg (Nat.ne_of_lt (ha.trans_le h.next))]
    exact hagree a ha
  revives hold := by
    rw [layout_granted, List.forall_mem_cons] at hold
    exact absurd hold.1 (Nat.not_lt.mpr h.next)

theorem Grown.replaced (h : d₀.Grown d) (hfinal : d.final? = some m)
    (hfind : d.memory.find? address = some old) {bytes : Bytes} (hsize : bytes.size = old.size)
    (hlater : d₀.next ≤ address) : d₀.Grown (d.ran (m.replace address bytes)) := by
  have hlayout : (d.ran (m.replace address bytes)).memory.layout = d.memory.layout := by
    obtain ⟨old', hold, hsize'⟩ := Device.find?_of_final? hfinal hfind
    exact (Memory.layout_replace (h.firm.ran hfinal).nodup hold (hsize.trans hsize'.symm)).trans
      (layout_of_final? h.firm.nodup hfinal)
  refine ⟨h.firm.replaced hfinal hfind hsize, h.next, h.capacity, h.unsupported, ?_, ?_, ?_⟩
  · rw [hlayout]
    exact h.layout
  · intro m' hm'
    rw [final?_ran] at hm'
    cases hm'
    obtain ⟨m₀, hm₀, hagree⟩ := h.behind m hfinal
    refine ⟨m₀, hm₀, fun a ha => ?_⟩
    rw [Memory.find?_replace, if_neg (Nat.ne_of_lt (ha.trans_le hlater))]
    exact hagree a ha
  · exact fun _ _ _ => ⟨_, final?_ran _ _⟩

theorem Grown.queued (h : d₀.Grown d) {op : Operator} {output : Operand} {inputs : List Operand}
    (hsure : Launch.Sure ⟨op, output, inputs⟩)
    (hfind : ∀ operand ∈ inputs ++ [output], ∃ bytes, d.memory.find? operand.address = some bytes)
    (hlater : d₀.next ≤ output.address) : d₀.Grown (d.queued ⟨op, output, inputs⟩) where
  firm := h.firm.queued hsure hfind
  next := h.next
  capacity := h.capacity
  unsupported := h.unsupported
  layout := h.layout
  behind m' hm' := by
    obtain ⟨m, bytes, hm, -, rfl⟩ := h.firm.clear.final?_queued.mp hm'
    obtain ⟨m₀, hm₀, hagree⟩ := h.behind m hm
    refine ⟨m₀, hm₀, fun a ha => ?_⟩
    rw [Memory.find?_replace, if_neg (Nat.ne_of_lt (ha.trans_le hlater))]
    exact hagree a ha
  revives hold := by
    obtain ⟨bytes, hbytes⟩ := hfind output (List.mem_append_right _ List.mem_cons_self)
    exact absurd (hold _ (h.firm.mem_layout hbytes)) (Nat.not_lt.mpr hlater)

theorem Grown.freed (h : d₀.Grown d) (hfinal : d.final? = some m)
    (hmem : (address, size) ∈ d.memory.layout) (hlater : d₀.next ≤ address) :
    d₀.Grown (d.freed m address size) where
  firm := h.firm.freed hfinal hmem
  next := h.next
  capacity := h.capacity
  unsupported := h.unsupported
  layout := by
    show ((m.remove address).layout.filter _) = _
    rw [Memory.layout_remove, layout_of_final? h.firm.nodup hfinal, List.filter_filter, ← h.layout]
    refine List.filter_congr fun e _ => ?_
    rw [Bool.and_eq_left_iff_imp]
    intro hlt
    exact decide_eq_true (Nat.ne_of_lt ((of_decide_eq_true hlt).trans_le hlater))
  behind m' hm' := by
    rw [final?_freed] at hm'
    cases hm'
    obtain ⟨m₀, hm₀, hagree⟩ := h.behind m hfinal
    refine ⟨m₀, hm₀, fun a ha => ?_⟩
    rw [Memory.find?_remove, if_neg (Nat.ne_of_lt (ha.trans_le hlater))]
    exact hagree a ha
  revives _ _ _ := ⟨_, final?_freed _ _ _ _⟩

/-! ## The earlier device again -/

theorem Grown.read? (h : d₀.Grown d) (hlt : address < d₀.next)
    (hread : d.read? address = some old) : d₀.read? address = some old := by
  obtain ⟨m, hm, hfind⟩ := read?_eq_some.mp hread
  obtain ⟨m₀, hm₀, hagree⟩ := h.behind m hm
  rw [read?_of_final? hm₀, ← hagree address hlt, hfind]

/-- Whether a device cannot be told from an earlier one, but for its next address and what it
counts besides allocations. -/
structure Restored (d₀ d : Device) : Prop where
  firm : d.Firm
  next : d₀.next ≤ d.next
  capacity : d.capacity = d₀.capacity
  unsupported : d.unsupported = d₀.unsupported
  layout : d.memory.layout = d₀.memory.layout
  live : d.stats.live = d₀.stats.live
  liveBytes : d.stats.liveBytes = d₀.stats.liveBytes
  final? : d.final?.isSome = d₀.final?.isSome
  read? : ∀ address, d.read? address = d₀.read? address

theorem Grown.restored (h : d₀.Grown d) (hd₀ : d₀.Firm)
    (hnone : ∀ e ∈ d.memory.layout, e.1 < d₀.next) : d₀.Restored d := by
  have hlayout : d.memory.layout = d₀.memory.layout := by
    rw [← h.layout]
    exact (List.filter_eq_self.mpr fun e he => decide_eq_true (hnone e he)).symm
  refine ⟨h.firm, h.next, h.capacity, h.unsupported, hlayout, ?_, ?_, ?_, fun address => ?_⟩
  · rw [h.firm.live, hlayout, hd₀.live]
  · rw [h.firm.liveBytes, hlayout, hd₀.liveBytes]
  · rw [Bool.eq_iff_iff, Option.isSome_iff_exists, Option.isSome_iff_exists]
    constructor
    · rintro ⟨m, hm⟩
      obtain ⟨m₀, hm₀, -⟩ := h.behind m hm
      exact ⟨m₀, hm₀⟩
    · rintro ⟨m₀, hm₀⟩
      exact h.revives hnone m₀ hm₀
  · ext bytes
    constructor
    · intro hread
      obtain ⟨m, hm, hfind⟩ := read?_eq_some.mp hread
      have hmem := Memory.mem_layout_iff (h.firm.ran hm).nodup |>.mpr ⟨bytes, hfind, rfl⟩
      rw [show (d.ran m).memory.layout = _ from layout_of_final? h.firm.nodup hm] at hmem
      exact h.read? (hnone _ hmem) hread
    · intro hread
      obtain ⟨m₀, hm₀, hfind⟩ := read?_eq_some.mp hread
      obtain ⟨m, hm⟩ := h.revives hnone m₀ hm₀
      obtain ⟨m₀', hm₀', hagree⟩ := h.behind m hm
      rw [hm₀] at hm₀'
      cases hm₀'
      rw [read?_of_final? hm, hagree address (hd₀.lt_next_of_read? hread), hfind]

end Device
end TensorGraph
