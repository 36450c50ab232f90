/-
Buffers in two worlds.

Every operation on buffers ends in the second of two linked worlds as it does in the first, and
leaves them linked, with the pair that it made or without the one that it gave back.
-/
import TensorGraph.Proofs.Isolation.Linked

namespace TensorGraph

/-! ## One world -/

namespace World

variable {w w' : World} {b : DeviceBuffer} {d d' : Device} {m : Memory} {bytes : Bytes}

theorem releaseBuffer_of_held (h : b ∈ w.held.erase b) :
    releaseBuffer b w = .value () { w with held := w.held.erase b } := by
  unfold releaseBuffer
  rw [Action.bind_of_value (Action.modify_apply _), Action.bind_of_value Action.get_apply,
    if_neg (not_not.mpr h)]
  rfl

theorem releaseBuffer_of_last (h : b ∉ w.held.erase b) (hd : w.devices[b.device]? = some d)
    (hfree : Device.free b.address d = .value () d') :
    releaseBuffer b w =
      .value () ({ w with held := w.held.erase b }.setDevice b.device d') := by
  have hcall : Action.attempt (onDevice b.device (Device.free b.address))
      { w with held := w.held.erase b } =
        .value (.ok ()) ({ w with held := w.held.erase b }.setDevice b.device d') := by
    have hd' : (World.devices { w with held := w.held.erase b })[b.device]? = some d := hd
    unfold Action.attempt
    rw [onDevice_of_value hd' hfree]
  unfold releaseBuffer
  rw [Action.bind_of_value (Action.modify_apply _), Action.bind_of_value Action.get_apply,
    if_pos h, Action.bind_of_value hcall]
  rfl

theorem releaseBuffer_of_halted (h : b ∉ w.held.erase b) (hd : w.devices[b.device]? = some d)
    (hfree : Device.free b.address d = .halted) : releaseBuffer b w = .halted := by
  have hcall : Action.attempt (onDevice b.device (Device.free b.address))
      { w with held := w.held.erase b } = .halted := by
    have hd' : (World.devices { w with held := w.held.erase b })[b.device]? = some d := hd
    unfold Action.attempt
    rw [onDevice_of_halted hd' hfree]
  unfold releaseBuffer
  rw [Action.bind_of_value (Action.modify_apply _), Action.bind_of_value Action.get_apply,
    if_pos h, Action.bind_of_halted hcall]

/-- A download halts, or it gives what the buffer holds and changes nothing. -/
theorem download_cases (hfirm : ∀ d ∈ w.devices, d.Firm) (hd : w.devices[b.device]? = some d)
    (hmem : (b.address, b.size) ∈ d.memory.layout) :
    (∃ m bytes w', d.final? = some m ∧ m.find? b.address = some bytes ∧
      (b.size + 7) / 8 * 8 ≤ Word.maxSigned ∧
        download b w = .value (.ofBytes w.nextKey bytes) w' ∧ w.Quiet w') ∨
    (d.final? = none ∨ ¬(b.size + 7) / 8 * 8 ≤ Word.maxSigned) ∧ download b w = .halted := by
  have hdfirm := hfirm d (List.mem_of_getElem? hd)
  unfold download
  rcases Option.eq_none_or_eq_some d.final? with hnone | ⟨m, hm⟩
  · exact Or.inr ⟨Or.inl hnone, Action.bind_of_halted
      (onDevice_of_halted hd (hdfirm.clear.synchronize_of_none hnone))⟩
  · have hsynced := (Device.quiet_synced hdfirm).firm
    have hquiet₁ : d.Quiet (d.synced.ran m) :=
      (Device.quiet_synced hdfirm).trans (Device.quiet_ran hsynced hm)
    have hworld₁ := quiet_setDevice hfirm hd hquiet₁
    rw [Action.bind_of_value (onDevice_of_value hd (hdfirm.clear.synchronize_of_some hm)),
      Action.bind_of_value (show freshKey (w.setDevice b.device _) = .value w.nextKey _ from rfl)]
    by_cases hfit : (b.size + 7) / 8 * 8 ≤ Word.maxSigned
    · rw [Action.bind_lift_of_some
        (show HostBuffer.zeroed w.nextKey b.size = some _ from if_pos hfit)]
      -- the device is the synchronized one, whose queue has nothing left to run
      have hd₁ := getElem?_setDevice hd (d.synced.ran m)
      have hquiet₂ := Device.quiet_collect hquiet₁.firm
      obtain ⟨bytes, hfind, hsize⟩ := hdfirm.find?_of_final? hm hmem
      have hcopy := hquiet₂.firm.clear.copyout_of_some
        (hquiet₂.final?.trans (Device.final?_ran _ m)) b.address b.size
      rw [hfind] at hcopy
      dsimp only at hcopy
      rw [if_neg (by omega), ← hsize, Array.extract_size, hsize] at hcopy
      have hworld₂ : w.Quiet { w.setDevice b.device (d.synced.ran m) with
          nextKey := w.nextKey + 1 } := hworld₁.trans (quiet_congr (fun e he => by
        obtain ⟨i, hi⟩ := List.mem_iff_getElem?.mp he
        obtain ⟨_, -, hq⟩ := hworld₁.devices i e hi
        exact hq.firm) rfl rfl rfl)
      have hfirm₂ : ∀ e ∈ (w.setDevice b.device (d.synced.ran m)).devices, e.Firm := fun e he => by
        obtain ⟨i, hi⟩ := List.mem_iff_getElem?.mp he
        obtain ⟨_, -, hq⟩ := hworld₁.devices i e hi
        exact hq.firm
      refine Or.inl ⟨m, bytes, _, hm, hfind, hfit,
        Action.bind_of_value (onDevice_of_value hd₁ hcopy), hworld₂.trans ?_⟩
      exact quiet_setDevice (w := { w.setDevice b.device (d.synced.ran m) with
        nextKey := w.nextKey + 1 }) hfirm₂ hd₁ (Device.quiet_ran hquiet₂.firm
          (hquiet₂.final?.trans (Device.final?_ran _ m)))
    · exact Or.inr ⟨Or.inr hfit, Action.bind_lift_of_none (if_neg hfit)⟩

end World

/-! ## Two worlds -/

variable {c : Comparison} {ps : List Pair} {p : Pair} {w₁ w₂ : World}
variable {d₁ d₂ : Device} {m₁ m₂ : Memory} {short : Prop} {bytes : Bytes}

namespace Comparison

theorem Kin.granted (h : c.Kin d₁ d₂) (h₁ : d₁.Ordered) (h₂ : d₂.Ordered) (size : Nat) :
    c.Kin (d₁.granted size) (d₂.granted size) where
  final? m₁' hm₁' := by
    obtain ⟨m₁, hm₁, -⟩ := (Device.final?_granted h₁).mp hm₁'
    obtain ⟨m₂, hm₂⟩ := h.final? m₁ hm₁
    exact ⟨_, (Device.final?_granted h₂).mpr ⟨m₂, hm₂, rfl⟩⟩
  next := Nat.add_le_add_right h.next _
  unsupported := h.unsupported
  memory := h.memory.imp_left fun ⟨hcapacity, hbytes⟩ =>
    ⟨hcapacity, congrArg (· + size) hbytes⟩

theorem Kin.ran (h : c.Kin d₁ d₂) (m₁ m₂ : Memory) : c.Kin (d₁.ran m₁) (d₂.ran m₂) where
  final? _ _ := ⟨m₂, Device.final?_ran _ _⟩
  next := h.next
  unsupported := h.unsupported
  memory := h.memory

theorem Kin.freed (h : c.Kin d₁ d₂) (m₁ m₂ : Memory) (address₁ address₂ size : Nat) :
    c.Kin (d₁.freed m₁ address₁ size) (d₂.freed m₂ address₂ size) where
  final? _ _ := ⟨_, Device.final?_freed _ _ _ _⟩
  next := h.next
  unsupported := h.unsupported
  memory := h.memory.imp_left fun ⟨hcapacity, hbytes⟩ =>
    ⟨hcapacity, congrArg (· - size) hbytes⟩

/-- An allocation that one device grants is granted by the other, and refused for the same
reason if it is refused. -/
theorem Kin.alloc (h : c.Kin d₁ d₂) (h₂ : d₂.Ordered) (size : Nat) :
    (Device.alloc size d₁ = .value d₁.next (d₁.granted size) ∧ d₁.Room size ∧
        Device.alloc size d₂ = .value d₂.next (d₂.granted size) ∧ d₂.Room size) ∨
      (∃ e, Device.alloc size d₁ = .refused e d₁ ∧
        (Device.alloc size d₂ = .refused e d₂ ∨ c.short ∧ e.OutOfMemory)) ∨
      Device.alloc size d₁ = .halted := by
  rcases Device.alloc_cases d₁ size with ⟨hvalue, hroom, hexceeds⟩ |
    ⟨capacity, hcapacity, hexceeds, hrefused⟩ | ⟨hhalt, -⟩
  · -- the second device has handed out no more addresses than the first
    have hroom₂ : d₂.Room size := by
      have hnext := h.next
      have hlive := h₂.liveBytes
      have hle := Device.le_footprint size
      obtain ⟨h₁, hholdable, -⟩ := hroom
      exact ⟨by omega, hholdable, by omega⟩
    refine Or.inl ⟨hvalue, hroom, ?_, hroom₂⟩
    rcases Device.alloc_cases d₂ size with ⟨hvalue₂, -⟩ | ⟨capacity, hcapacity, hexceeds₂, -⟩ |
      ⟨-, hnot, -⟩
    · exact hvalue₂
    · obtain ⟨_, hcapacity', hfits, hlt⟩ := hexceeds₂
      rcases h.memory with ⟨hsame, hbytes⟩ | ⟨-, hnone⟩
      · refine absurd ⟨_, hsame ▸ hcapacity', ?_, ?_⟩ hexceeds
        · rwa [← hbytes]
        · rwa [← hbytes]
      · rw [hnone] at hcapacity
        cases hcapacity
    · exact absurd hroom₂ hnot
  · refine Or.inr (Or.inl ⟨_, hrefused, ?_⟩)
    rcases h.memory with ⟨hsame, hbytes⟩ | ⟨hshort, -⟩
    · left
      have hexceeds₂ : d₂.Exceeds size := by
        obtain ⟨capacity', hcapacity', hfits, hlt⟩ := hexceeds
        exact ⟨capacity', hsame.trans hcapacity', hbytes ▸ hfits, hbytes ▸ hlt⟩
      rcases Device.alloc_cases d₂ size with ⟨-, -, hnot⟩ | ⟨capacity₂, hcapacity₂, -, hrefused₂⟩ |
        ⟨-, -, hnot⟩
      · exact absurd hexceeds₂ hnot
      · rw [hsame, hcapacity] at hcapacity₂
        cases hcapacity₂
        rw [hrefused₂, hbytes]
      · exact absurd hexceeds₂ hnot
    · exact Or.inr ⟨hshort, _, _, _, rfl⟩
  · exact Or.inr (Or.inr hhalt)

end Comparison

namespace Linked

/-! ## Giving back -/

/-- A pair that others hold as well, without one holder of each. -/
theorem drop (h : Linked c (p :: ps) w₁ w₂) (hp : p ∈ ps ++ c.shared) :
    Linked c ps { w₁ with held := w₁.held.erase p.1 } { w₂ with held := w₂.held.erase p.2 } where
  fair := h.fair
  left := by
    refine h.left.unretain ?_
    rcases List.mem_append.mp hp with hp | hp
    · exact List.mem_append_left _ (List.mem_map_of_mem hp)
    · exact List.mem_append_right _ (h.fair.held p hp).1
  right := by
    refine h.right.unretain ?_
    rcases List.mem_append.mp hp with hp | hp
    · exact List.mem_append_left _ (List.mem_map_of_mem hp)
    · exact List.mem_append_right _ (h.fair.held p hp).2
  pairs q hq := h.pairs q (List.mem_cons_of_mem _ hq)
  one q hq hfresh r hr :=
    h.one q (List.mem_cons_of_mem _ hq) hfresh r (List.mem_cons_of_mem _ hr)
  reads q hq := h.reads q (List.mem_cons_of_mem _ hq)
  devices := h.devices

/-- Both buffers of a pair have other holders or neither has. -/
theorem held_iff (h : Linked c (p :: ps) w₁ w₂) :
    (p.1 ∈ w₁.held.erase p.1 ↔ p ∈ ps ++ c.shared) ∧
      (p.2 ∈ w₂.held.erase p.2 ↔ p ∈ ps ++ c.shared) := by
  have hp : p ∈ (p :: ps) ++ c.shared := List.mem_cons_self
  have hleft := h.left.held.erase p.1
  have hright := h.right.held.erase p.2
  rw [List.map_cons, List.cons_append, List.erase_cons_head] at hleft hright
  rw [hleft.mem_iff, hright.mem_iff]
  by_cases hmem : p ∈ ps ++ c.shared
  · obtain ⟨h₁, h₂⟩ : p.1 ∈ ps.map Prod.fst ++ c.left.held ∧
        p.2 ∈ ps.map Prod.snd ++ c.right.held := by
        rcases List.mem_append.mp hmem with hmem | hmem
        · exact ⟨List.mem_append_left _ (List.mem_map_of_mem hmem),
            List.mem_append_left _ (List.mem_map_of_mem hmem)⟩
        · exact (h.fair.held p hmem).imp (List.mem_append_right _) (List.mem_append_right _)
    exact ⟨iff_of_true h₁ hmem, iff_of_true h₂ hmem⟩
  · have hfresh := (h.shared_or_fresh hp).resolve_left fun hshared =>
      hmem (List.mem_append_right _ hshared)
    have hother : ∀ q ∈ ps, ¬p.1 = q.1 ∧ ¬p.2 = q.2 := by
      intro q hq
      have hiff := h.one p List.mem_cons_self hfresh q (List.mem_cons_of_mem _ hq)
      have hne : ¬(p.1 = q.1 ∧ p.2 = q.2) := fun ⟨h₁, h₂⟩ =>
        hmem (List.mem_append_left _ ((Prod.ext h₁ h₂ : p = q) ▸ hq))
      exact ⟨fun heq => hne ⟨heq, hiff.mp heq⟩, fun heq => hne ⟨hiff.mpr heq, heq⟩⟩
    refine ⟨iff_of_false (fun hheld => ?_) hmem, iff_of_false (fun hheld => ?_) hmem⟩
    · rcases List.mem_append.mp hheld with hheld | hheld
      · obtain ⟨q, hq, heq⟩ := List.mem_map.mp hheld
        exact (hother q hq).1 heq.symm
      · exact hfresh.left hheld
    · rcases List.mem_append.mp hheld with hheld | hheld
      · obtain ⟨q, hq, heq⟩ := List.mem_map.mp hheld
        exact (hother q hq).2 heq.symm
      · exact hfresh.right hheld

/-- The devices of a pair that was allocated in the course of the comparison, with its buffers. -/
structure Buffers (c : Comparison) (p : Pair) (w₁ w₂ : World) (d₁ d₂ : Device)
    (old₁ old₂ : Bytes) : Prop where
  kin : c.Kin d₁ d₂
  left : w₁.devices[p.1.device]? = some d₁
  right : w₂.devices[p.2.device]? = some d₂
  here : w₁.devices[c.here]? = some d₁
  there : w₂.devices[c.there]? = some d₂
  findLeft : d₁.memory.find? p.1.address = some old₁
  findRight : d₂.memory.find? p.2.address = some old₂
  sizeLeft : old₁.size = p.1.size
  sizeRight : old₂.size = p.1.size

theorem exists_buffers (h : Linked c ps w₁ w₂) (hp : p ∈ ps ++ c.shared) (hfresh : c.Fresh p) :
    ∃ d₁ d₂ old₁ old₂, Buffers c p w₁ w₂ d₁ d₂ old₁ old₂ := by
  obtain ⟨d₁, hd₁, hmem₁⟩ := h.left.allocated (h.mem_left hp)
  obtain ⟨d₂, hd₂, hmem₂⟩ := h.right.allocated (h.mem_right hp)
  obtain ⟨old₁, hold₁, hsize₁⟩ :=
    (Memory.mem_layout_iff (h.left.device_firm hd₁).nodup).mp hmem₁
  obtain ⟨old₂, hold₂, hsize₂⟩ :=
    (Memory.mem_layout_iff (h.right.device_firm hd₂).nodup).mp hmem₂
  have hhere : w₁.devices[c.here]? = some d₁ := hfresh.here ▸ hd₁
  have hthere : w₂.devices[c.there]? = some d₂ := hfresh.there ▸ hd₂
  obtain ⟨e₂, he₂, hkin, -⟩ := h.exists_devices hhere
  rw [hthere] at he₂
  cases he₂
  exact ⟨d₁, d₂, old₁, old₂, hkin, hd₁, hd₂, hhere, hthere, hold₁, hold₂, hsize₁,
    hsize₂.trans hfresh.size⟩

theorem freed {d₁ d₂ : Device} {m₁ m₂ : Memory} {old₁ old₂ : Bytes}
    (h : Linked c (p :: ps) w₁ w₂) (hmore : p ∉ ps ++ c.shared) (hfresh : c.Fresh p)
    (hb : Buffers c p w₁ w₂ d₁ d₂ old₁ old₂) (hm₁ : d₁.final? = some m₁)
    (hm₂ : d₂.final? = some m₂) :
    Linked c ps
      ({ w₁ with held := w₁.held.erase p.1 }.setDevice p.1.device
        (d₁.freed m₁ p.1.address p.1.size))
      ({ w₂ with held := w₂.held.erase p.2 }.setDevice p.2.device
        (d₂.freed m₂ p.2.address p.1.size)) := by
  have hp : p ∈ (p :: ps) ++ c.shared := List.mem_cons_self
  obtain ⟨hheld₁, hheld₂⟩ := h.held_iff
  have hlast₁ : p.1 ∉ ps.map Prod.fst ++ c.left.held := by
    have herase := h.left.held.erase p.1
    rw [List.map_cons, List.cons_append, List.erase_cons_head] at herase
    rw [← herase.mem_iff, hheld₁]
    exact hmore
  have hlast₂ : p.2 ∉ ps.map Prod.snd ++ c.right.held := by
    have herase := h.right.held.erase p.2
    rw [List.map_cons, List.cons_append, List.erase_cons_head] at herase
    rw [← herase.mem_iff, hheld₂]
    exact hmore
  have hright := h.right.freed hlast₂ hb.right hm₂
  rw [hfresh.size] at hright
  refine h.update hb.here hb.there (by rw [← hfresh.here]; rfl) (by rw [← hfresh.there]; rfl)
    (h.left.freed hlast₁ hb.left hm₁) hright (fun q hq => h.pairs q (List.mem_cons_of_mem _ hq))
    (fun q hq hfresh r hr =>
      h.one q (List.mem_cons_of_mem _ hq) hfresh r (List.mem_cons_of_mem _ hr))
    (Device.changes_freed hm₁ p.1.address p.1.size)
    (Device.changes_freed hm₂ p.2.address p.1.size) (hb.kin.freed m₁ m₂ _ _ _) fun q hq => ?_
  have hq' : q ∈ (p :: ps) ++ c.shared := List.mem_cons_of_mem _ hq
  refine Or.inr ⟨hq', fun hdevice haddress => hmore ?_, fun hdevice haddress => hmore ?_⟩
  · rw [← h.eq_of_left hp hfresh hq' hdevice haddress]
    exact hq
  · rw [← h.eq_of_right hp hfresh hq' hdevice haddress]
    exact hq

theorem releaseBuffer (h : Linked c (p :: ps) w₁ w₂) :
    (World.releaseBuffer p.1 w₁).Foretells short (fun _ w₁ _ w₂ => Linked c ps w₁ w₂)
      (fun _ _ => False) (World.releaseBuffer p.2 w₂) := by
  have hp : p ∈ (p :: ps) ++ c.shared := List.mem_cons_self
  obtain ⟨hheld₁, hheld₂⟩ := h.held_iff
  by_cases hmore : p ∈ ps ++ c.shared
  · rw [World.releaseBuffer_of_held (hheld₁.mpr hmore), World.releaseBuffer_of_held
      (hheld₂.mpr hmore)]
    exact ⟨(), _, rfl, h.drop hmore⟩
  · have hfresh := (h.shared_or_fresh hp).resolve_left fun hshared =>
      hmore (List.mem_append_right _ hshared)
    obtain ⟨d₁, d₂, old₁, old₂, hb⟩ := h.exists_buffers hp hfresh
    rcases Option.eq_none_or_eq_some d₁.final? with hnone | ⟨m₁, hm₁⟩
    · rw [World.releaseBuffer_of_halted (mt hheld₁.mp hmore) hb.left
        ((h.left.device_firm hb.left).clear.free_of_none hnone)]
      exact trivial
    · obtain ⟨m₂, hm₂⟩ := hb.kin.final? m₁ hm₁
      have hfree₁ := Device.free_of_some hm₁ hb.findLeft
      have hfree₂ := Device.free_of_some hm₂ hb.findRight
      rw [hb.sizeLeft] at hfree₁
      rw [hb.sizeRight] at hfree₂
      rw [World.releaseBuffer_of_last (mt hheld₁.mp hmore) hb.left hfree₁,
        World.releaseBuffer_of_last (mt hheld₂.mp hmore) hb.right hfree₂]
      exact ⟨(), _, rfl, h.freed hmore hfresh hb hm₁ hm₂⟩

/-! ## Fresh buffers -/

theorem granted {d₁ d₂ : Device} {size : Nat} (h : Linked c ps w₁ w₂)
    (hd₁ : w₁.devices[c.here]? = some d₁) (hd₂ : w₂.devices[c.there]? = some d₂)
    (hroom₁ : d₁.Room size) (hroom₂ : d₂.Room size) :
    let p : Pair := (⟨c.here, d₁.next, size⟩, ⟨c.there, d₂.next, size⟩)
    c.Fresh p ∧ p ∉ ps ++ c.shared ∧
      Linked c (p :: ps) (w₁.granted c.here d₁ size) (w₂.granted c.there d₂ size) := by
  intro p
  obtain ⟨e₂, he₂, hkin, hfirm₁, hfirm₂⟩ := h.exists_devices hd₁
  rw [hd₂] at he₂
  cases he₂
  have hnew₁ : ∀ b ∈ ps.map Prod.fst ++ c.left.held, b.device = c.here → b.address ≠ d₁.next :=
    fun b hb hdevice => Nat.ne_of_lt (h.left.address_lt_next (hdevice ▸ hd₁) hb)
  have hnew₂ : ∀ b ∈ ps.map Prod.snd ++ c.right.held, b.device = c.there → b.address ≠ d₂.next :=
    fun b hb hdevice => Nat.ne_of_lt (h.right.address_lt_next (hdevice ▸ hd₂) hb)
  have hfresh : c.Fresh p := ⟨rfl, rfl, rfl,
    fun hheld => hnew₁ _ (List.mem_append_right _ hheld) rfl rfl,
    fun hheld => hnew₂ _ (List.mem_append_right _ hheld) rfl rfl⟩
  have hone : ∀ q ∈ ps, ¬p.1 = q.1 ∧ ¬p.2 = q.2 := fun q hq =>
    ⟨fun heq => hnew₁ q.1 (List.mem_append_left _ (List.mem_map_of_mem hq))
        (congrArg DeviceBuffer.device heq).symm (congrArg DeviceBuffer.address heq).symm,
      fun heq => hnew₂ q.2 (List.mem_append_left _ (List.mem_map_of_mem hq))
        (congrArg DeviceBuffer.device heq).symm (congrArg DeviceBuffer.address heq).symm⟩
  refine ⟨hfresh, fun hmem => hnew₁ _ (h.mem_left hmem) rfl rfl, ?_⟩
  refine h.update hd₁ hd₂ rfl rfl (h.left.granted hd₁ hroom₁) (h.right.granted hd₂ hroom₂) ?_ ?_
    (Device.changes_granted hfirm₁.ordered size) (Device.changes_granted hfirm₂.ordered size)
    (hkin.granted hfirm₁.ordered hfirm₂.ordered size) ?_
  · exact List.forall_mem_cons.mpr ⟨Or.inr hfresh, h.pairs⟩
  · intro q hq hfresh' r hr
    rcases List.mem_cons.mp hq with rfl | hq <;> rcases List.mem_cons.mp hr with rfl | hr
    · exact iff_of_true rfl rfl
    · exact iff_of_false (hone r hr).1 (hone r hr).2
    · exact iff_of_false (Ne.symm (hone q hq).1) (Ne.symm (hone q hq).2)
    · exact h.one q hq hfresh' r hr
  · intro q hq
    rcases List.mem_cons.mp hq with rfl | hq
    · refine Or.inl ⟨rfl, rfl, fun bytes hread => ?_⟩
      obtain ⟨m₁', hm₁', hfind⟩ := Device.read?_eq_some.mp hread
      obtain ⟨m₁, hm₁, rfl⟩ := (Device.final?_granted hfirm₁.ordered).mp hm₁'
      obtain ⟨m₂, hm₂⟩ := hkin.final? m₁ hm₁
      rw [Memory.find?_cons, if_pos rfl] at hfind
      cases hfind
      refine Device.read?_eq_some.mpr ⟨_, (Device.final?_granted hfirm₂.ordered).mpr
        ⟨m₂, hm₂, rfl⟩, ?_⟩
      rw [Memory.find?_cons, if_pos rfl]
    · exact Or.inr ⟨hq, hnew₁ q.1 (h.mem_left hq), hnew₂ q.2 (h.mem_right hq)⟩

theorem allocate (h : Linked c ps w₁ w₂) (size : Nat) :
    (World.allocate c.here size w₁).Foretells c.short
      (fun b₁ w₁ b₂ w₂ => c.Fresh (b₁, b₂) ∧ b₁.size = size ∧ (b₁, b₂) ∉ ps ++ c.shared ∧
        Linked c ((b₁, b₂) :: ps) w₁ w₂)
      (Linked c ps) (World.allocate c.there size w₂) := by
  unfold World.allocate
  rw [Action.bind_apply, Action.bind_apply]
  rcases Option.eq_none_or_eq_some w₁.devices[c.here]? with hnone | ⟨d₁, hd₁⟩
  · rw [World.onDevice_of_none hnone]
    exact trivial
  obtain ⟨d₂, hd₂, hkin, hfirm₁, hfirm₂⟩ := h.exists_devices hd₁
  rcases hkin.alloc hfirm₂.ordered size with ⟨hvalue₁, hroom₁, hvalue₂, hroom₂⟩ |
    ⟨e, hrefused₁, hsecond⟩ | hhalt
  · rw [World.onDevice_of_value hd₁ hvalue₁, World.onDevice_of_value hd₂ hvalue₂]
    obtain ⟨hfresh, hnew, hlinked⟩ := h.granted hd₁ hd₂ hroom₁ hroom₂
    exact ⟨_, _, rfl, hfresh, rfl, hnew, hlinked⟩
  · rw [World.onDevice_of_refused hd₁ hrefused₁]
    refine hsecond.imp_left fun hrefused₂ => ?_
    rw [World.onDevice_of_refused hd₂ hrefused₂]
    exact ⟨_, rfl, h.quiet
      (World.quiet_setDevice h.left.devices_firm hd₁ (Device.quiet_refl hfirm₁))
      (World.quiet_setDevice h.right.devices_firm hd₂ (Device.quiet_refl hfirm₂))⟩
  · rw [World.onDevice_of_halted hd₁ hhalt]
    exact trivial

theorem copyin (h : Linked c ps w₁ w₂) (hp : p ∈ ps) (hfresh : c.Fresh p)
    (hsize : bytes.size = p.1.size) :
    (World.onDevice c.here (Device.copyin bytes p.1.address) w₁).Foretells short
      (fun _ w₁ _ w₂ => Linked c ps w₁ w₂ ∧ w₁.read? p.1 = some bytes) (fun _ _ => False)
      (World.onDevice c.there (Device.copyin bytes p.2.address) w₂) := by
  have hmem : p ∈ ps ++ c.shared := List.mem_append_left _ hp
  obtain ⟨d₁, d₂, old₁, old₂, hb⟩ := h.exists_buffers hmem hfresh
  have hclear₁ := (h.left.device_firm hb.left).clear
  have hclear₂ := (h.right.device_firm hb.right).clear
  rcases Option.eq_none_or_eq_some d₁.final? with hnone | ⟨m₁, hm₁⟩
  · rw [World.onDevice_of_halted hb.here (hclear₁.copyin_of_none hnone bytes)]
    exact trivial
  obtain ⟨e₂, m₂, _, he₂, hm₂, hfind₁, hfind₂, -⟩ := h.exists_final? hmem hb.left hm₁
  rw [hb.right] at he₂
  cases he₂
  rw [World.onDevice_of_value hb.here (hclear₁.copyin_of_some hm₁ hb.findLeft
      (hsize.trans hb.sizeLeft.symm)),
    World.onDevice_of_value hb.there (hclear₂.copyin_of_some hm₂ hb.findRight
      (hsize.trans hb.sizeRight.symm))]
  have hread₁ : (d₁.ran (m₁.replace p.1.address bytes)).read? p.1.address = some bytes := by
    rw [Device.read?_of_final? (Device.final?_ran _ _), Memory.find?_replace, if_pos rfl, hfind₁]
    rfl
  have hread₂ : (d₂.ran (m₂.replace p.2.address bytes)).read? p.2.address = some bytes := by
    rw [Device.read?_of_final? (Device.final?_ran _ _), Memory.find?_replace, if_pos rfl, hfind₂]
    rfl
  have hlater₁ := (h.left.own p.1 (List.mem_map_of_mem hp)).resolve_left hfresh.left
  have hlater₂ := (h.right.own p.2 (List.mem_map_of_mem hp)).resolve_left hfresh.right
  refine ⟨(), _, rfl, h.update hb.here hb.there rfl rfl ?_ ?_ h.pairs h.one
    (Device.changes_replaced hm₁ p.1.address bytes) (Device.changes_replaced hm₂ p.2.address bytes)
    (hb.kin.ran _ _) fun q hq => ?_, ?_⟩
  · exact hfresh.here ▸ h.left.replaced hlater₁ hb.left hm₁ hb.findLeft
      (hsize.trans hb.sizeLeft.symm)
  · exact hfresh.there ▸ h.right.replaced hlater₂ hb.right hm₂ hb.findRight
      (hsize.trans hb.sizeRight.symm)
  · by_cases heq : q = p
    · subst heq
      refine Or.inl ⟨hfresh.here, hfresh.there, fun x hx => ?_⟩
      rw [hread₁] at hx
      rw [hread₂, hx]
    · exact Or.inr ⟨hq,
        fun hdevice haddress => heq (h.eq_of_left hmem hfresh hq hdevice haddress),
        fun hdevice haddress => heq (h.eq_of_right hmem hfresh hq hdevice haddress)⟩
  · rw [← hfresh.here, World.read?_setDevice hb.left, hread₁]

theorem upload (h : Linked c ps w₁ w₂) (bytes : Bytes) :
    (World.upload c.here bytes w₁).Foretells c.short
      (fun b₁ w₁ b₂ w₂ => c.Fresh (b₁, b₂) ∧ Linked c ((b₁, b₂) :: ps) w₁ w₂ ∧
        w₁.read? b₁ = some bytes)
      (Linked c ps) (World.upload c.there bytes w₂) := by
  unfold World.upload
  refine Action.foretells_bind (h.allocate bytes.size) ?_
  rintro b₁ w₁' b₂ w₂' ⟨hfresh, hsize, -, h'⟩
  refine Action.foretells_bind (Action.foretells_onRefusal
    (h'.copyin List.mem_cons_self hfresh hsize.symm) fun _ _ => False.elim) ?_
  rintro _ w₁'' _ w₂'' ⟨h'', hread⟩
  exact ⟨b₂, w₂'', rfl, hfresh, h'', hread⟩

/-! ## Downloads -/

theorem download (h : Linked c ps w₁ w₂) (hp : p ∈ ps ++ c.shared) :
    (World.download p.1 w₁).Foretells short
      (fun host₁ w₁' host₂ w₂' => Linked c ps w₁' w₂' ∧ ∃ key₁ key₂ bytes,
        host₁ = .ofBytes key₁ bytes ∧ host₂ = .ofBytes key₂ bytes ∧ w₁.read? p.1 = some bytes)
      (fun _ _ => False) (World.download p.2 w₂) := by
  obtain ⟨d₁, hd₁, hmem₁⟩ := h.left.allocated (h.mem_left hp)
  obtain ⟨d₂, hd₂, hmem₂⟩ := h.right.allocated (h.mem_right hp)
  rcases World.download_cases h.left.devices_firm hd₁ hmem₁ with
    ⟨m₁, bytes, w₁', hm₁, hfind₁, hfit, hvalue₁, hquiet₁⟩ | ⟨-, hhalt⟩
  · obtain ⟨e₂, m₂, bytes', he₂, hm₂, hfind₁', hfind₂, -⟩ := h.exists_final? hp hd₁ hm₁
    rw [hd₂] at he₂
    cases he₂
    rw [hfind₁] at hfind₁'
    cases hfind₁'
    rcases World.download_cases h.right.devices_firm hd₂ hmem₂ with
      ⟨m₂', bytes₂, w₂', hm₂', hfind₂', -, hvalue₂, hquiet₂⟩ | ⟨hnone | hnofit, -⟩
    · rw [hm₂] at hm₂'
      cases hm₂'
      rw [hfind₂] at hfind₂'
      cases hfind₂'
      rw [hvalue₁]
      refine ⟨_, _, hvalue₂, h.quiet hquiet₁ hquiet₂, _, _, bytes, rfl, rfl, ?_⟩
      rw [World.read?_of_device hd₁, Device.read?_of_final? hm₁, hfind₁]
    · rw [hm₂] at hnone
      cases hnone
    · rw [h.size_eq hp] at hnofit
      exact absurd hfit hnofit
  · rw [hhalt]
    exact trivial

end Linked
end TensorGraph
