/-
What a device is made to do.

A device counts allocations, launches, synchronizations and frees.  `Worked d₀ k late d` says that
`d` is `d₀` after the work `k`, on which `late` is allocated besides what was there before; so all
other allocations of `k` have been freed.  In a world, `Ledger` says besides that just what is in
`late` is held by those who have come to hold something.  Each operation that gives a value is
specified by the work that it adds, and by what its value holds.
-/
import TensorGraph.Proofs.Device.Grown
import TensorGraph.Proofs.Ownership.Holders

namespace TensorGraph

@[ext] structure Work where
  allocations : Nat := 0
  launches : Nat := 0
  syncs : Nat := 0
  deriving DecidableEq, Repr

namespace Work

instance : Add Work :=
  ⟨fun a b => ⟨a.allocations + b.allocations, a.launches + b.launches, a.syncs + b.syncs⟩⟩

instance : Zero Work := ⟨{}⟩

instance : AddMonoid Work where
  add_assoc _ _ _ := Work.ext (Nat.add_assoc ..) (Nat.add_assoc ..) (Nat.add_assoc ..)
  zero_add _ := Work.ext (Nat.zero_add _) (Nat.zero_add _) (Nat.zero_add _)
  add_zero _ := rfl
  nsmul := nsmulRec

@[simp] theorem mk_zero : (⟨0, 0, 0⟩ : Work) = 0 := rfl

end Work

namespace Device

variable {d₀ d d' : Device} {k : Work} {late : List (Nat × Nat)} {address size : Nat}

/-! ## Addresses -/

structure Numbered (d : Device) : Prop where
  nodup : (d.memory.layout.map Prod.fst).Nodup
  fresh : ∀ e ∈ d.memory.layout, e.1 < d.next

theorem Balanced.numbered (h : d.Balanced) : d.Numbered :=
  ⟨by rw [Memory.map_fst_layout]; exact h.nodup, h.fresh⟩

theorem Numbered.keys (h : d.Numbered) : (d.memory.map Prod.fst).Nodup := by
  rw [← Memory.map_fst_layout]
  exact h.nodup

theorem Numbered.unmoved (h : d.Numbered) (hd : Unmoved d d') : d'.Numbered :=
  ⟨by rw [hd.layout]; exact h.nodup, by rw [hd.layout, hd.next]; exact h.fresh⟩

theorem Numbered.granted (h : d.Numbered) (bytes : Nat) : (d.granted bytes).Numbered where
  nodup := by
    rw [layout_granted, List.map_cons, List.nodup_cons]
    refine ⟨fun hmem => ?_, h.nodup⟩
    obtain ⟨e, he, heq⟩ := List.mem_map.mp hmem
    exact Nat.lt_irrefl _ (heq ▸ h.fresh e he)
  fresh := by
    have hnext : (d.granted bytes).next = d.next + footprint bytes := rfl
    rw [layout_granted, hnext, List.forall_mem_cons]
    exact ⟨Nat.lt_add_of_pos_right (footprint_pos bytes),
      fun e he => Nat.lt_add_right _ (h.fresh e he)⟩

/-! ## Counts -/

theorem counts_flush (d : Device) :
    (flush d).Always fun d' => d'.stats = d.stats ∧ d'.next = d.next := by
  unfold Device.flush
  rcases d.memory.runAll d.queue with _ | ⟨m, _ | stop⟩
  · exact trivial
  · exact ⟨rfl, rfl⟩
  · exact ⟨rfl, rfl⟩

theorem counts_settle (d : Device) :
    (settle d).Always fun d' => d'.stats = d.stats ∧ d'.next = d.next :=
  always_settle (counts_flush d) fun _ h₁ => h₁

theorem counts_copyin (d : Device) (bytes : Bytes) (address : Nat) :
    (copyin bytes address d).Always fun d' => d'.stats = d.stats ∧ d'.next = d.next :=
  always_copyin (counts_settle d) bytes address fun _ _ h₁ _ _ => h₁

theorem counts_copyout (d : Device) (address len : Nat) :
    (copyout address len d).Always fun d' => d'.stats = d.stats ∧ d'.next = d.next :=
  always_copyout (counts_settle d) address len

theorem counts_synchronize (d : Device) : (synchronize d).Always fun d' =>
    d'.stats = { d.stats with syncs := d.stats.syncs + 1 } ∧ d'.next = d.next :=
  counts_settle { d with stats := { d.stats with syncs := d.stats.syncs + 1 } }

/-- What is allocated is freed and counted, unless a queued launch halts. -/
theorem Numbered.free_cases (h : d.Numbered) (hmem : (address, size) ∈ d.memory.layout) :
    free address d = .halted ∨ ∃ d', free address d = .value () d' ∧ d'.Numbered ∧
      d'.next = d.next ∧ (d'.memory.layout = d.memory.layout.filter fun e => e.1 ≠ address) ∧
      d'.stats = { d.stats with
        frees := d.stats.frees + 1
        live := d.stats.live - 1
        liveBytes := d.stats.liveBytes - size } := by
  obtain hhalt | ⟨d₁, hflush, hunmoved, -, hfree⟩ := free_of_mem_layout h.keys hmem
  · exact Or.inl hhalt
  have hcounts := counts_flush d
  rw [hflush] at hcounts
  have h₁ := h.unmoved hunmoved
  have hlayout := Memory.layout_remove d₁.memory address
  rw [← hunmoved.layout, ← show d₁.stats = d.stats from hcounts.1]
  refine Or.inr ⟨_, hfree, ⟨?_, ?_⟩, hunmoved.next, hlayout, rfl⟩
  · show ((d₁.memory.remove address).layout.map Prod.fst).Nodup
    rw [hlayout]
    exact (List.filter_sublist.map Prod.fst).nodup h₁.nodup
  · show ∀ e ∈ (d₁.memory.remove address).layout, e.1 < d₁.next
    rw [hlayout]
    exact fun e he => h₁.fresh e (List.mem_of_mem_filter he)

/-! ## Work -/

/-- Whether a device is an earlier one after some work, with the given allocations left of those
that the work made.  Every other one was freed, and nothing that was there before. -/
structure Worked (d₀ : Device) (k : Work) (late : List (Nat × Nat)) (d : Device) : Prop where
  allocations : d.stats.allocations = d₀.stats.allocations + k.allocations
  launches : d.stats.launches = d₀.stats.launches + k.launches
  syncs : d.stats.syncs = d₀.stats.syncs + k.syncs
  frees : d.stats.frees + late.length = d₀.stats.frees + k.allocations
  invalidFrees : d.stats.invalidFrees = d₀.stats.invalidFrees
  layout : d.memory.layout = late ++ d₀.memory.layout
  later : ∀ e ∈ late, d₀.next ≤ e.1
  next : d₀.next ≤ d.next

theorem worked_refl (d : Device) : Worked d 0 [] d where
  allocations := rfl
  launches := rfl
  syncs := rfl
  frees := rfl
  invalidFrees := rfl
  layout := rfl
  later _ he := nomatch he
  next := le_rfl

theorem Worked.unmoved (h : Worked d₀ k late d) (hd : Unmoved d d') {m n : Nat}
    (hl : d'.stats.launches = d.stats.launches + m)
    (hs : d'.stats.syncs = d.stats.syncs + n) :
    Worked d₀ (k + ⟨0, m, n⟩) late d' where
  allocations := (congrArg DeviceStats.allocations hd.stats).trans h.allocations
  launches := by rw [hl, h.launches]; exact Nat.add_assoc ..
  syncs := by rw [hs, h.syncs]; exact Nat.add_assoc ..
  frees := by
    have hfrees := congrArg DeviceStats.frees hd.stats
    dsimp only [DeviceStats.ofMemory] at hfrees
    rw [hfrees]
    exact h.frees
  invalidFrees := (congrArg DeviceStats.invalidFrees hd.stats).trans h.invalidFrees
  layout := hd.layout.trans h.layout
  later := h.later
  next := hd.next ▸ h.next

theorem Worked.granted (h : Worked d₀ k late d) (bytes : Nat) :
    Worked d₀ (k + ⟨1, 0, 0⟩) ((d.next, bytes) :: late) (d.granted bytes) where
  allocations := congrArg (· + 1) h.allocations
  launches := h.launches
  syncs := h.syncs
  frees := congrArg (· + 1) h.frees
  invalidFrees := h.invalidFrees
  layout := by rw [layout_granted, h.layout, List.cons_append]
  later := List.forall_mem_cons.mpr ⟨h.next, h.later⟩
  next := h.next.trans (Nat.le_add_right _ _)

theorem Worked.freed (h : Worked d₀ k late d) (hn : d.Numbered) (hmem : (address, size) ∈ late)
    (hnext : d'.next = d.next)
    (hlayout : d'.memory.layout = d.memory.layout.filter fun e => e.1 ≠ address)
    (hstats : d'.stats = { d.stats with
        frees := d.stats.frees + 1
        live := d.stats.live - 1
        liveBytes := d.stats.liveBytes - size }) :
    Worked d₀ k (late.filter fun e => e.1 ≠ address) d' := by
  have hkeys := hn.nodup
  rw [h.layout, List.map_append, List.nodup_append] at hkeys
  obtain ⟨hlate, -, hapart⟩ := hkeys
  have hlen := (perm_filter_layout hlate hmem).length_eq
  rw [List.length_cons] at hlen
  have hold : (d₀.memory.layout.filter fun e => decide (e.1 ≠ address)) = d₀.memory.layout :=
    List.filter_eq_self.mpr fun e he => decide_eq_true fun heq =>
      hapart address (List.mem_map.mpr ⟨_, hmem, rfl⟩) e.1 (List.mem_map_of_mem he) heq.symm
  refine ⟨?_, ?_, ?_, ?_, ?_, ?_, fun e he => h.later e (List.mem_of_mem_filter he),
    hnext ▸ h.next⟩
  · rw [hstats]
    exact h.allocations
  · rw [hstats]
    exact h.launches
  · rw [hstats]
    exact h.syncs
  · have hfrees := h.frees
    rw [hlen] at hfrees
    rw [hstats]
    show d.stats.frees + 1 + _ = _
    omega
  · rw [hstats]
    exact h.invalidFrees
  · rw [hlayout, h.layout, List.filter_append, hold]

end Device

namespace World

variable {v w w' : World} {id : DeviceId} {d₀ d d' : Device} {k : Work} {α : Type}
variable {bs bs' : List DeviceBuffer} {a a' : Argument} {b : DeviceBuffer}

/-- Whether a device is not going to hand out an address again that is allocated there or that
somebody holds. -/
structure Issued (v : World) (id : DeviceId) (d₀ : Device) : Prop where
  device : v.devices[id]? = some d₀
  numbered : d₀.Numbered
  held : ∀ b ∈ v.held, b.device = id → b.address < d₀.next

/-- Where the books are in order, that holds of every device. -/
theorem Accounted.issued (h : v.Accounted) (hd : v.devices[id]? = some d₀) : v.Issued id d₀ where
  device := hd
  numbered := (h.balanced d₀ (List.mem_of_getElem? hd)).numbered
  held b hb hid := by
    have hmem := (h.mem_layout hd hid).mp hb
    exact (h.balanced d₀ (List.mem_of_getElem? hd)).fresh _ hmem

/-- Whether a device has done the given work since a world `v`, and the holders that have come are
those of the given buffers.  What is left of the allocations that the work made is what they hold
and nobody held in `v`. -/
structure Ledger (v : World) (id : DeviceId) (d₀ : Device) (k : Work) (bs : List DeviceBuffer)
    (w : World) : Prop where
  perm : w.held.Perm (bs ++ v.held)
  origin : ∀ b ∈ bs, b ∈ v.held ∨ b.device = id ∧ d₀.next ≤ b.address
  account : ∃ d late, w.devices[id]? = some d ∧ d.Numbered ∧ d₀.Worked k late d ∧
    ∀ e, d₀.next ≤ e.1 → (⟨id, e.1, e.2⟩ ∈ bs ↔ e ∈ late)

theorem Issued.ledger (hv : v.Issued id d₀) : Ledger v id d₀ 0 [] v where
  perm := .refl _
  origin _ hb := nomatch hb
  account := ⟨d₀, [], hv.device, hv.numbered, Device.worked_refl d₀, fun _ _ =>
    ⟨(fun h => nomatch h), fun h => nomatch h⟩⟩

/-- What was held before is not among what was allocated later. -/
theorem Issued.not_mem_held (hv : v.Issued id d₀) (hid : b.device = id)
    (hlater : d₀.next ≤ b.address) : b ∉ v.held :=
  fun hb => Nat.not_le.mpr (hv.held b hb hid) hlater

theorem Ledger.congr (h : Ledger v id d₀ k bs w) (hdevices : w'.devices = w.devices)
    (hheld : w'.held = w.held) : Ledger v id d₀ k bs w' where
  perm := hheld ▸ h.perm
  origin := h.origin
  account := by
    rw [hdevices]
    exact h.account

theorem Ledger.trans (h : Ledger v id d₀ k bs w) (hp : bs.Perm bs') : Ledger v id d₀ k bs' w where
  perm := h.perm.trans (hp.append_right _)
  origin b hb := h.origin b (hp.mem_iff.mpr hb)
  account := by
    obtain ⟨d, late, hd, hn, hworked, hiff⟩ := h.account
    exact ⟨d, late, hd, hn, hworked, fun e he => hp.mem_iff.symm.trans (hiff e he)⟩

/-! ## Calls of a device -/

/-- A device goes back into its place without the records of the call. -/
theorem exists_account {late : List (Nat × Nat)} (hd : w.devices[id]? = some d)
    (hn : d'.Numbered) (hworked : d₀.Worked k late d')
    (hiff : ∀ e, d₀.next ≤ e.1 → (⟨id, e.1, e.2⟩ ∈ bs ↔ e ∈ late)) :
    ∃ d late, (w.setDevice id d').devices[id]? = some d ∧ d.Numbered ∧ d₀.Worked k late d ∧
      ∀ e, d₀.next ≤ e.1 → (⟨id, e.1, e.2⟩ ∈ bs ↔ e ∈ late) :=
  have hunmoved : Device.Unmoved d' { d' with notices := [] } := ⟨rfl, rfl, rfl⟩
  ⟨_, late, List.getElem?_set_self (List.getElem?_eq_some_iff.mp hd).1, hn.unmoved hunmoved,
    hworked.unmoved hunmoved (m := 0) (n := 0) rfl rfl, hiff⟩

theorem Ledger.setDevice (h : Ledger v id d₀ k bs w) (hd : w.devices[id]? = some d)
    (hmoved : d.Numbered → Device.Unmoved d d') {m n : Nat}
    (hl : d'.stats.launches = d.stats.launches + m)
    (hs : d'.stats.syncs = d.stats.syncs + n) :
    Ledger v id d₀ (k + ⟨0, m, n⟩) bs (w.setDevice id d') where
  perm := h.perm
  origin := h.origin
  account := by
    obtain ⟨d₁, late, hd₁, hn, hworked, hiff⟩ := h.account
    rw [hd] at hd₁
    cases hd₁
    exact exists_account hd (hn.unmoved (hmoved hn)) (hworked.unmoved (hmoved hn) hl hs) hiff

theorem Ledger.copyin (h : Ledger v id d₀ k bs w) {bytes : Bytes} {address : Nat} {u : Unit}
    (hrun : onDevice id (Device.copyin bytes address) w = .value u w') :
    Ledger v id d₀ k bs w' := by
  obtain ⟨d, d', hd, hcall, rfl⟩ := onDevice_eq_value hrun
  have hcounts := Device.counts_copyin d bytes address
  rw [hcall] at hcounts
  refine h.setDevice hd (fun hn => ?_) (m := 0) (n := 0)
    (congrArg DeviceStats.launches hcounts.1) (congrArg DeviceStats.syncs hcounts.1)
  have hmoved := Device.unmoved_copyin hn.keys bytes address
  rwa [hcall] at hmoved

theorem Ledger.copyout (h : Ledger v id d₀ k bs w) {address len : Nat} {bytes : Bytes}
    (hrun : onDevice id (Device.copyout address len) w = .value bytes w') :
    Ledger v id d₀ k bs w' := by
  obtain ⟨d, d', hd, hcall, rfl⟩ := onDevice_eq_value hrun
  have hcounts := Device.counts_copyout d address len
  rw [hcall] at hcounts
  refine h.setDevice hd (fun hn => ?_) (m := 0) (n := 0)
    (congrArg DeviceStats.launches hcounts.1) (congrArg DeviceStats.syncs hcounts.1)
  have hmoved := Device.unmoved_copyout hn.keys address len
  rwa [hcall] at hmoved

theorem Ledger.synchronize (h : Ledger v id d₀ k bs w) {u : Unit}
    (hrun : onDevice id Device.synchronize w = .value u w') :
    Ledger v id d₀ (k + ⟨0, 0, 1⟩) bs w' := by
  obtain ⟨d, d', hd, hcall, rfl⟩ := onDevice_eq_value hrun
  have hstats : d'.stats = { d.stats with syncs := d.stats.syncs + 1 } := by
    have hcounts := Device.counts_synchronize d
    rw [hcall] at hcounts
    exact hcounts.1
  refine h.setDevice hd (fun hn => ?_) (by rw [hstats]; rfl) (by rw [hstats])
  have hmoved := Device.unmoved_synchronize hn.keys
  rwa [hcall] at hmoved

theorem Ledger.launch (h : Ledger v id d₀ k bs w) {op : Operator} {output : Operand}
    {inputs : List Operand} {u : Unit}
    (hrun : onDevice id (Device.launch op output inputs) w = .value u w') :
    Ledger v id d₀ (k + ⟨0, 1, 0⟩) bs w' := by
  obtain ⟨d, d', hd, hcall, rfl⟩ := onDevice_eq_value hrun
  rcases Device.launch_cases d op output inputs with ⟨hvalue, -⟩ | ⟨e, hrefused⟩ | hhalt
  · rw [hvalue] at hcall
    cases hcall
    have hmoved : Device.Unmoved d (d.queued ⟨op, output, inputs⟩) := ⟨rfl, rfl, rfl⟩
    exact h.setDevice hd (fun _ => hmoved) rfl rfl
  · rw [hrefused] at hcall
    cases hcall
  · rw [hhalt] at hcall
    cases hcall

theorem Ledger.allocate (h : Ledger v id d₀ k bs w) {bytes : Nat}
    (hrun : allocate id bytes w = .value b w') :
    Ledger v id d₀ (k + ⟨1, 0, 0⟩) (b :: bs) w' := by
  obtain ⟨d, hd, -, rfl, rfl⟩ := allocate_eq_value hrun
  obtain ⟨d₁, late, hd₁, hn, hworked, hiff⟩ := h.account
  rw [hd] at hd₁
  cases hd₁
  refine ⟨h.perm.cons _, List.forall_mem_cons.mpr ⟨Or.inr ⟨rfl, hworked.next⟩, h.origin⟩,
    exists_account hd (hn.granted bytes) (hworked.granted bytes) fun e he => ?_⟩
  rw [List.mem_cons, List.mem_cons, hiff e he]
  refine or_congr_left ?_
  obtain ⟨address, size⟩ := e
  simp

/-! ## Holders -/

theorem Issued.mem_cons_iff (hv : v.Issued id d₀) (hmem : b ∈ bs ++ v.held) {e : Nat × Nat}
    (he : d₀.next ≤ e.1) : ⟨id, e.1, e.2⟩ ∈ b :: bs ↔ ⟨id, e.1, e.2⟩ ∈ bs := by
  refine List.mem_cons.trans (or_iff_right_of_imp ?_)
  rintro rfl
  exact (List.mem_append.mp hmem).resolve_right (hv.not_mem_held rfl he)

theorem Ledger.retain (hv : v.Issued id d₀) (h : Ledger v id d₀ k bs w)
    (ha : a.holds ⊆ bs ++ v.held) {u : Unit} (hrun : retain a w = .value u w') :
    Ledger v id d₀ k (a.holds ++ bs) w' := by
  unfold World.retain at hrun
  unfold Argument.holds at ha ⊢
  cases hb : a.deviceBuffer? with
  | none =>
    rw [hb] at hrun
    cases hrun
    exact h
  | some b =>
    rw [hb] at ha hrun
    cases hrun
    have hmem : b ∈ bs ++ v.held := ha List.mem_cons_self
    refine ⟨h.perm.cons b, List.forall_mem_cons.mpr ⟨?_, h.origin⟩, ?_⟩
    · exact (List.mem_append.mp hmem).elim (h.origin b) Or.inl
    · obtain ⟨d, late, hd, hn, hworked, hiff⟩ := h.account
      exact ⟨d, late, hd, hn, hworked, fun e he => (hv.mem_cons_iff hmem he).trans (hiff e he)⟩

theorem onDevice_free {late : List (Nat × Nat)} {address size : Nat}
    (hd : w.devices[id]? = some d) (hn : d.Numbered) (hworked : d₀.Worked k late d)
    (hmem : (address, size) ∈ late) :
    onDevice id (Device.free address) w = .halted ∨ ∃ d',
      onDevice id (Device.free address) w = .value () (w.setDevice id d') ∧ d'.Numbered ∧
        d₀.Worked k (late.filter fun e => e.1 ≠ address) d' := by
  have hlayout : (address, size) ∈ d.memory.layout := hworked.layout ▸ List.mem_append_left _ hmem
  rcases hn.free_cases hlayout with hhalt | ⟨d', hvalue, hn', hnext, hlayout', hstats⟩
  · exact Or.inl (onDevice_of_halted hd hhalt)
  · exact Or.inr ⟨d', onDevice_of_value hd hvalue, hn',
      hworked.freed hn hmem hnext hlayout' hstats⟩

/-- Without its last holder an allocation is not held any more, and all others still are: an
address is allocated with one size only. -/
theorem mem_iff_of_last {late : List (Nat × Nat)} {address size : Nat} {e : Nat × Nat}
    (hn : d.Numbered) (hworked : d₀.Worked k late d)
    (hiff : ∀ e, d₀.next ≤ e.1 → (⟨id, e.1, e.2⟩ ∈ ⟨id, address, size⟩ :: bs ↔ e ∈ late))
    (hlater : d₀.next ≤ address) (hlast : ⟨id, address, size⟩ ∉ bs) (he : d₀.next ≤ e.1) :
    ⟨id, e.1, e.2⟩ ∈ bs ↔ e ∈ late.filter fun e => e.1 ≠ address := by
  have hmem : (address, size) ∈ late := (hiff (address, size) hlater).mp List.mem_cons_self
  rw [List.mem_filter, ← hiff e he, List.mem_cons, decide_eq_true_iff]
  obtain ⟨address', size'⟩ := e
  constructor
  · intro hmem'
    refine ⟨Or.inr hmem', fun heq => hlast ?_⟩
    obtain rfl : address' = address := heq
    have hlate := (hiff (address', size') he).mp (List.mem_cons_of_mem _ hmem')
    have hkeys := hn.nodup
    rw [hworked.layout, List.map_append, List.nodup_append] at hkeys
    have hsame := List.inj_on_of_nodup_map hkeys.1 hmem hlate rfl
    cases hsame
    exact hmem'
  · rintro ⟨heq | hmem', hne⟩
    · cases heq
      exact absurd rfl hne
    · exact hmem'

/-- The last holder of a buffer that the work allocated frees it; whatever was there before is
held by somebody else. -/
theorem Ledger.releaseBuffer (hv : v.Issued id d₀) (h : Ledger v id d₀ k (b :: bs) w) {u : Unit}
    (hrun : releaseBuffer b w = .value u w') : Ledger v id d₀ k bs w' := by
  have hperm : (w.held.erase b).Perm (bs ++ v.held) := by
    have herase := h.perm.erase b
    rwa [List.cons_append, List.erase_cons_head] at herase
  obtain ⟨hb, horigin⟩ := List.forall_mem_cons.mp h.origin
  obtain ⟨d, late, hd, hn, hworked, hiff⟩ := h.account
  unfold World.releaseBuffer at hrun
  rw [Action.bind_of_value (Action.modify_apply _), Action.bind_of_value Action.get_apply] at hrun
  by_cases hmore : b ∈ w.held.erase b
  · rw [if_neg (not_not.mpr hmore)] at hrun
    cases hrun
    exact ⟨hperm, horigin, d, late, hd, hn, hworked, fun e he =>
      (hv.mem_cons_iff (hperm.mem_iff.mp hmore) he).symm.trans (hiff e he)⟩
  · rw [if_pos hmore] at hrun
    have hlast : b ∉ bs ∧ b ∉ v.held := by
      rwa [hperm.mem_iff, List.mem_append, not_or] at hmore
    obtain ⟨hid, hlater⟩ := hb.resolve_left hlast.2
    obtain ⟨device, address, size⟩ := b
    obtain rfl : device = id := hid
    have hmem : (address, size) ∈ late := (hiff (address, size) hlater).mp List.mem_cons_self
    obtain ⟨r, w₁, hattempt, hrun⟩ := Action.bind_eq_value.mp hrun
    unfold Action.attempt at hattempt
    rcases onDevice_free (w := { w with held := w.held.erase ⟨device, address, size⟩ })
      hd hn hworked hmem with hhalt | ⟨d', hvalue, hn', hworked'⟩
    · rw [hhalt] at hattempt
      cases hattempt
    · rw [hvalue] at hattempt
      cases hattempt
      cases hrun
      exact ⟨hperm, horigin, exists_account hd hn' hworked' fun e he =>
        mem_iff_of_last hn hworked hiff hlater hlast.1 he⟩

theorem Ledger.release (hv : v.Issued id d₀) (h : Ledger v id d₀ k (a.holds ++ bs) w) {u : Unit}
    (hrun : release a w = .value u w') : Ledger v id d₀ k bs w' := by
  unfold World.release at hrun
  unfold Argument.holds at h
  cases hb : a.deviceBuffer? with
  | none =>
    rw [hb] at h hrun
    cases hrun
    exact h
  | some b =>
    rw [hb] at h hrun
    exact h.releaseBuffer hv hrun

/-! ## Transfers -/

theorem Ledger.upload (h : Ledger v id d₀ k bs w) {bytes : Bytes}
    (hrun : upload id bytes w = .value b w') : Ledger v id d₀ (k + ⟨1, 0, 0⟩) (b :: bs) w' := by
  unfold World.upload at hrun
  obtain ⟨b', w₁, hallocate, hrun⟩ := Action.bind_eq_value.mp hrun
  obtain ⟨_, w₂, hcopy, hrun⟩ := Action.bind_eq_value.mp hrun
  cases hrun
  exact (h.allocate hallocate).copyin (Action.onRefusal_eq_value.mp hcopy)

theorem Ledger.toDevice (h : Ledger v id d₀ k bs w) (ha : a.location ≠ some .device)
    (hrun : toDevice id a w = .value a' w') :
    Ledger v id d₀ (k + ⟨1, 0, 0⟩) (a'.holds ++ bs) w' := by
  unfold World.toDevice at hrun
  rw [if_neg ha] at hrun
  obtain ⟨bytes, w₁, hbytes, hsend⟩ := Action.bind_eq_value.mp hrun
  obtain ⟨-, rfl⟩ := Action.ofOutcome_eq_value.mp hbytes
  obtain ⟨b, w₂, hupload, hplace⟩ := Action.bind_eq_value.mp hsend
  obtain ⟨hmake, rfl⟩ := Action.ofOutcome_eq_value.mp (Action.onRefusal_eq_value.mp hplace)
  rw [holds_of_make_device hmake]
  exact h.upload hupload

theorem Ledger.toHost (h : Ledger v id d₀ k bs w) (ha : a.storage = some (.device b))
    (hb : b.device = id) (hrun : toHost a w = .value a' w') :
    Ledger v id d₀ (k + ⟨0, 0, 1⟩) (a'.holds ++ bs) w' := by
  rw [holds_of_toHost hrun]
  unfold World.toHost at hrun
  obtain ⟨storage, w₁, hbuffer, hrun⟩ := Action.bind_eq_value.mp hrun
  obtain ⟨hbuffer, rfl⟩ := Action.ofOutcome_eq_value.mp hbuffer
  unfold Argument.buffer at hbuffer
  rw [ha] at hbuffer
  cases hbuffer
  obtain ⟨host, w₂, hdownload, hrun⟩ := Action.bind_eq_value.mp hrun
  obtain ⟨-, rfl⟩ := Action.ofOutcome_eq_value.mp hrun
  unfold World.download at hdownload
  rw [hb] at hdownload
  obtain ⟨_, w₃, hsync, hdownload⟩ := Action.bind_eq_value.mp hdownload
  obtain ⟨key, w₄, hkey, hdownload⟩ := Action.bind_eq_value.mp hdownload
  cases hkey
  obtain ⟨zeroed, w₅, hzeroed, hdownload⟩ := Action.bind_eq_value.mp hdownload
  obtain ⟨-, rfl⟩ := Action.ofOutcome_eq_value.mp hzeroed
  obtain ⟨bytes, w₆, hcopy, hdownload⟩ := Action.bind_eq_value.mp hdownload
  cases hdownload
  have h₄ : Ledger v id d₀ (k + ⟨0, 0, 1⟩) bs { w₃ with nextKey := w₃.nextKey + 1 } :=
    (h.synchronize hsync).congr rfl rfl
  exact h₄.copyout hcopy

end World
end TensorGraph
