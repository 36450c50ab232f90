/-
Two worlds side by side.

A `Comparison` names two worlds to start from, a device in each on which new buffers are going to
be allocated, and pairs of buffers that both held at the start and that hold the same.  `Linked`
says how far two computations have come in them: each world has grown by the buffers of the pairs
that the computations hold now, and whatever can be read in the first of a pair can be read in
the second.  Addresses need not agree, and neither need what else is in the worlds.  Every
operation on buffers carries it on.
-/
import TensorGraph.Proofs.Isolation.Foretells
import TensorGraph.Proofs.Isolation.World

namespace TensorGraph

/-- A buffer in each of two worlds. -/
abbrev Pair := DeviceBuffer × DeviceBuffer

/-- Two worlds to start from, with the devices for new buffers and the pairs of buffers that are
held from the start.  `short` says whether only the first may run short of memory. -/
structure Comparison where
  left : World
  right : World
  here : DeviceId
  there : DeviceId
  shared : List Pair
  short : Prop

namespace Comparison

structure Fair (c : Comparison) : Prop where
  settings : c.right.settings = c.left.settings
  held : ∀ p ∈ c.shared, p.1 ∈ c.left.held ∧ p.2 ∈ c.right.held
  size : ∀ p ∈ c.shared, p.2.size = p.1.size
  apart : ∀ p ∈ c.shared, p.2.device = c.there → p.1.device = c.here

structure Fresh (c : Comparison) (p : Pair) : Prop where
  here : p.1.device = c.here
  there : p.2.device = c.there
  size : p.2.size = p.1.size
  left : p.1 ∉ c.left.held
  right : p.2 ∉ c.right.held

structure Kin (c : Comparison) (d₁ d₂ : Device) : Prop where
  final? : ∀ m₁, d₁.final? = some m₁ → ∃ m₂, d₂.final? = some m₂
  next : d₂.next ≤ d₁.next
  unsupported : d₂.unsupported = d₁.unsupported
  memory : d₂.capacity = d₁.capacity ∧ d₂.stats.liveBytes = d₁.stats.liveBytes ∨
    c.short ∧ d₂.capacity = none

end Comparison

def Device.Changes (address : Nat) (d d' : Device) : Prop :=
  ∀ m', d'.final? = some m' →
    ∃ m, d.final? = some m ∧ ∀ a ≠ address, m'.find? a = m.find? a

/-- Whether computations in two worlds have come equally far, holding the buffers of `ps`. -/
structure Linked (c : Comparison) (ps : List Pair) (w₁ w₂ : World) : Prop where
  fair : c.Fair
  left : c.left.Grown (ps.map Prod.fst) w₁
  right : c.right.Grown (ps.map Prod.snd) w₂
  pairs : ∀ p ∈ ps, p ∈ c.shared ∨ c.Fresh p
  one : ∀ p ∈ ps, c.Fresh p → ∀ q ∈ ps, p.1 = q.1 ↔ p.2 = q.2
  reads : ∀ p ∈ ps ++ c.shared, ∀ bytes, w₁.read? p.1 = some bytes → w₂.read? p.2 = some bytes
  devices : ∀ d₁, w₁.devices[c.here]? = some d₁ →
    ∃ d₂, w₂.devices[c.there]? = some d₂ ∧ c.Kin d₁ d₂

variable {c : Comparison} {ps qs : List Pair} {p q : Pair} {w₁ w₂ w₁' w₂' : World}
variable {d d₁ d₂ d₁' d₂' : Device} {m m₁ m₂ : Memory} {address size : Nat} {short : Prop}

/-! ## Changes of a device -/

namespace Device

theorem changes_granted (h : d.Ordered) (size : Nat) : d.Changes d.next (d.granted size) := by
  intro m' hm'
  obtain ⟨m, hm, rfl⟩ := (final?_granted h).mp hm'
  exact ⟨m, hm, fun a ha => by rw [Memory.find?_cons, if_neg ha]⟩

theorem changes_replaced (hm : d.final? = some m) (address : Nat) (bytes : Bytes) :
    d.Changes address (d.ran (m.replace address bytes)) := by
  intro m' hm'
  rw [final?_ran] at hm'
  cases hm'
  exact ⟨m, hm, fun a ha => by rw [Memory.find?_replace, if_neg ha]⟩

theorem changes_freed (hm : d.final? = some m) (address size : Nat) :
    d.Changes address (d.freed m address size) := by
  intro m' hm'
  rw [final?_freed] at hm'
  cases hm'
  exact ⟨m, hm, fun a ha => by rw [Memory.find?_remove, if_neg ha]⟩

theorem Clear.changes_queued (h : d.Clear) (l : Launch) :
    d.Changes l.output.address (d.queued l) := by
  intro m' hm'
  obtain ⟨m, bytes, hm, -, rfl⟩ := h.final?_queued.mp hm'
  exact ⟨m, hm, fun a ha => by rw [Memory.find?_replace, if_neg ha]⟩

theorem Changes.read? (h : d.Changes address d₁) {a : Nat} (ha : a ≠ address) {bytes : Bytes}
    (hread : d₁.read? a = some bytes) : d.read? a = some bytes := by
  obtain ⟨m', hm', hfind⟩ := read?_eq_some.mp hread
  obtain ⟨m, hm, hagree⟩ := h m' hm'
  rw [read?_of_final? hm, ← hagree a ha, hfind]

/-- Where the queue still runs to its end, what was not changed is still read. -/
theorem Changes.read?_of_final? (h : d.Changes address d₁) (hm : d₁.final? = some m) {a : Nat}
    (ha : a ≠ address) {bytes : Bytes} (hread : d.read? a = some bytes) :
    d₁.read? a = some bytes := by
  obtain ⟨m', hm', hagree⟩ := h m hm
  rw [Device.read?_of_final? hm'] at hread
  rw [Device.read?_of_final? hm, hagree a ha, hread]

end Device

/-! ## Pairs -/

namespace Linked

theorem perm (h : Linked c ps w₁ w₂) (hp : ps.Perm qs) : Linked c qs w₁ w₂ where
  fair := h.fair
  left := h.left.perm (hp.map _)
  right := h.right.perm (hp.map _)
  pairs p hmem := h.pairs p (hp.symm.subset hmem)
  one p hmem hfresh q hmem' := h.one p (hp.symm.subset hmem) hfresh q (hp.symm.subset hmem')
  reads p hmem := h.reads p ((hp.append_right _).symm.subset hmem)
  devices := h.devices

theorem mem_left (h : Linked c ps w₁ w₂) (hp : p ∈ ps ++ c.shared) :
    p.1 ∈ ps.map Prod.fst ++ c.left.held := by
  rcases List.mem_append.mp hp with hp | hp
  · exact List.mem_append_left _ (List.mem_map_of_mem hp)
  · exact List.mem_append_right _ (h.fair.held p hp).1

theorem mem_right (h : Linked c ps w₁ w₂) (hp : p ∈ ps ++ c.shared) :
    p.2 ∈ ps.map Prod.snd ++ c.right.held := by
  rcases List.mem_append.mp hp with hp | hp
  · exact List.mem_append_left _ (List.mem_map_of_mem hp)
  · exact List.mem_append_right _ (h.fair.held p hp).2

theorem shared_or_fresh (h : Linked c ps w₁ w₂) (hp : p ∈ ps ++ c.shared) :
    p ∈ c.shared ∨ c.Fresh p :=
  (List.mem_append.mp hp).elim (h.pairs p) Or.inl

/-- A buffer that was allocated in the course of a comparison is in one pair only. -/
theorem one_of_mem (h : Linked c ps w₁ w₂) (hp : p ∈ ps ++ c.shared) (hfresh : c.Fresh p)
    (hq : q ∈ ps ++ c.shared) : p.1 = q.1 ↔ p.2 = q.2 := by
  have hmem : p ∈ ps := (List.mem_append.mp hp).resolve_right fun hshared =>
    hfresh.left (h.fair.held p hshared).1
  rcases List.mem_append.mp hq with hq | hq
  · exact h.one p hmem hfresh q hq
  · obtain ⟨hleft, hright⟩ := h.fair.held q hq
    exact iff_of_false (fun heq => hfresh.left (heq ▸ hleft)) fun heq => hfresh.right (heq ▸ hright)

theorem size_eq (h : Linked c ps w₁ w₂) (hp : p ∈ ps ++ c.shared) : p.2.size = p.1.size :=
  (h.shared_or_fresh hp).elim (h.fair.size p) fun hfresh => hfresh.size

theorem device_eq_here (h : Linked c ps w₁ w₂) (hp : p ∈ ps ++ c.shared)
    (hdevice : p.2.device = c.there) : p.1.device = c.here :=
  (h.shared_or_fresh hp).elim (fun hp => h.fair.apart p hp hdevice) fun hfresh => hfresh.here

/-- What is at the place of a pair that was allocated in the course of a comparison is that
pair. -/
theorem eq_of_left (h : Linked c ps w₁ w₂) (hp : p ∈ ps ++ c.shared) (hfresh : c.Fresh p)
    (hq : q ∈ ps ++ c.shared) (hdevice : q.1.device = c.here)
    (haddress : q.1.address = p.1.address) : q = p := by
  have hfst := h.left.eq_of_address (h.mem_left hp) (h.mem_left hq)
    (hfresh.here.trans hdevice.symm) haddress.symm
  exact (Prod.ext hfst ((h.one_of_mem hp hfresh hq).mp hfst)).symm

theorem eq_of_right (h : Linked c ps w₁ w₂) (hp : p ∈ ps ++ c.shared) (hfresh : c.Fresh p)
    (hq : q ∈ ps ++ c.shared) (hdevice : q.2.device = c.there)
    (haddress : q.2.address = p.2.address) : q = p := by
  have hsnd := h.right.eq_of_address (h.mem_right hp) (h.mem_right hq)
    (hfresh.there.trans hdevice.symm) haddress.symm
  exact (Prod.ext ((h.one_of_mem hp hfresh hq).mpr hsnd) hsnd).symm

theorem settings (h : Linked c ps w₁ w₂) : w₂.settings = w₁.settings := by
  rw [h.right.settings, h.left.settings, h.fair.settings]

theorem exists_devices (h : Linked c ps w₁ w₂) (hd₁ : w₁.devices[c.here]? = some d₁) :
    ∃ d₂, w₂.devices[c.there]? = some d₂ ∧ c.Kin d₁ d₂ ∧ d₁.Firm ∧ d₂.Firm := by
  obtain ⟨d₂, hd₂, hkin⟩ := h.devices d₁ hd₁
  exact ⟨d₂, hd₂, hkin, h.left.device_firm hd₁, h.right.device_firm hd₂⟩

/-- Where the first of a pair is read, the queue of the device of the second runs to its end. -/
theorem exists_final? (h : Linked c ps w₁ w₂) (hp : p ∈ ps ++ c.shared)
    (hd₁ : w₁.devices[p.1.device]? = some d₁) (hm₁ : d₁.final? = some m₁) :
    ∃ d₂ m₂ bytes, w₂.devices[p.2.device]? = some d₂ ∧ d₂.final? = some m₂ ∧
      m₁.find? p.1.address = some bytes ∧ m₂.find? p.2.address = some bytes ∧
      bytes.size = p.1.size := by
  obtain ⟨d, hd, hmem⟩ := h.left.allocated (h.mem_left hp)
  rw [hd₁] at hd
  cases hd
  obtain ⟨bytes, hfind, hsize⟩ := (h.left.device_firm hd₁).find?_of_final? hm₁ hmem
  have hread := h.reads p hp bytes (by
    rw [World.read?_of_device hd₁, Device.read?_of_final? hm₁, hfind])
  obtain ⟨d₂, hd₂, hread₂⟩ := Option.bind_eq_some_iff.mp hread
  obtain ⟨m₂, hm₂, hfind₂⟩ := Device.read?_eq_some.mp hread₂
  exact ⟨d₂, m₂, bytes, hd₂, hm₂, hfind, hfind₂, hsize⟩

/-! ## What changes nothing -/

theorem quiet (h : Linked c ps w₁ w₂) (h₁ : w₁.Quiet w₁') (h₂ : w₂.Quiet w₂') :
    Linked c ps w₁' w₂' where
  fair := h.fair
  left := h.left.quiet h₁
  right := h.right.quiet h₂
  pairs := h.pairs
  one := h.one
  reads p hp bytes hread := by
    rw [h₁.read?] at hread
    rw [h₂.read?]
    exact h.reads p hp bytes hread
  devices d₁' hd₁' := by
    obtain ⟨d₁, hd₁, hquiet₁⟩ := h₁.devices _ d₁' hd₁'
    obtain ⟨d₂, hd₂, hkin⟩ := h.devices d₁ hd₁
    obtain ⟨d₂', hd₂', hquiet₂⟩ := h₂.exists_device hd₂
    refine ⟨d₂', hd₂', ⟨?_, ?_, ?_, ?_⟩⟩
    · rw [hquiet₁.final?, hquiet₂.final?]
      exact hkin.final?
    · rw [hquiet₁.next, hquiet₂.next]
      exact hkin.next
    · rw [hquiet₁.unsupported, hquiet₂.unsupported]
      exact hkin.unsupported
    · rw [hquiet₁.capacity, hquiet₂.capacity, hquiet₁.liveBytes (h.left.device_firm hd₁),
        hquiet₂.liveBytes (h.right.device_firm hd₂)]
      exact hkin.memory

theorem congr (h : Linked c ps w₁ w₂) (hd₁ : w₁'.devices = w₁.devices) (hh₁ : w₁'.held = w₁.held)
    (hs₁ : w₁'.settings = w₁.settings) (hd₂ : w₂'.devices = w₂.devices)
    (hh₂ : w₂'.held = w₂.held) (hs₂ : w₂'.settings = w₂.settings) : Linked c ps w₁' w₂' :=
  h.quiet (World.quiet_congr h.left.devices_firm hd₁ hh₁ hs₁)
    (World.quiet_congr h.right.devices_firm hd₂ hh₂ hs₂)

/-- What is written to the log plays no part. -/
theorem note (h : Linked c ps w₁ w₂) (level₁ level₂ : Level) (text₁ text₂ : String) :
    (World.note level₁ text₁ w₁).Foretells short (fun _ w₁ _ w₂ => Linked c ps w₁ w₂)
      (fun _ _ => False) (World.note level₂ text₂ w₂) :=
  ⟨(), _, rfl, h.congr rfl rfl rfl rfl rfl rfl⟩

theorem freshKey (h : Linked c ps w₁ w₂) :
    (World.freshKey w₁).Foretells short (fun _ w₁ _ w₂ => Linked c ps w₁ w₂)
      (fun _ _ => False) (World.freshKey w₂) :=
  ⟨_, _, rfl, h.congr rfl rfl rfl rfl rfl rfl⟩

/-! ## Holders -/

theorem retainBuffer (h : Linked c ps w₁ w₂) (hp : p ∈ ps ++ c.shared) :
    (World.retainBuffer p.1 w₁).Foretells short (fun _ w₁ _ w₂ => Linked c (p :: ps) w₁ w₂)
      (fun _ _ => False) (World.retainBuffer p.2 w₂) := by
  have hone : ∀ q ∈ p :: ps, q ∈ ps ++ c.shared := by
    rw [List.forall_mem_cons]
    exact ⟨hp, fun q hq => List.mem_append_left _ hq⟩
  refine ⟨(), _, rfl, ⟨h.fair, h.left.retain (h.mem_left hp), h.right.retain (h.mem_right hp),
    fun q hq => h.shared_or_fresh (hone q hq),
    fun q hq hfresh r hr => h.one_of_mem (hone q hq) hfresh (hone r hr), fun q hq => ?_,
    h.devices⟩⟩
  rw [List.cons_append, List.mem_cons] at hq
  refine h.reads q ?_
  rcases hq with rfl | hq
  · exact hp
  · exact hq

/-! ## Changes at one pair -/

theorem update (h : Linked c ps w₁ w₂) (hd₁ : w₁.devices[c.here]? = some d₁)
    (hd₂ : w₂.devices[c.there]? = some d₂) {a₁ a₂ : Nat}
    (hw₁ : w₁'.devices = w₁.devices.set c.here { d₁' with notices := [] })
    (hw₂ : w₂'.devices = w₂.devices.set c.there { d₂' with notices := [] })
    (hleft : c.left.Grown (qs.map Prod.fst) w₁') (hright : c.right.Grown (qs.map Prod.snd) w₂')
    (hpairs : ∀ q ∈ qs, q ∈ c.shared ∨ c.Fresh q)
    (hone : ∀ q ∈ qs, c.Fresh q → ∀ r ∈ qs, q.1 = r.1 ↔ q.2 = r.2)
    (hc₁ : d₁.Changes a₁ d₁') (hc₂ : d₂.Changes a₂ d₂') (hkin : c.Kin d₁' d₂')
    (hreads : ∀ q ∈ qs ++ c.shared, (q.1.device = c.here ∧ q.2.device = c.there ∧
        ∀ bytes, d₁'.read? q.1.address = some bytes → d₂'.read? q.2.address = some bytes) ∨
      q ∈ ps ++ c.shared ∧ (q.1.device = c.here → q.1.address ≠ a₁) ∧
        (q.2.device = c.there → q.2.address ≠ a₂)) :
    Linked c qs w₁' w₂' := by
  have hself₁ : w₁'.devices[c.here]? = some { d₁' with notices := [] } := by
    rw [hw₁, List.getElem?_set_self (List.getElem?_eq_some_iff.mp hd₁).1]
  have hself₂ : w₂'.devices[c.there]? = some { d₂' with notices := [] } := by
    rw [hw₂, List.getElem?_set_self (List.getElem?_eq_some_iff.mp hd₂).1]
  have hread₁ := World.read?_of_set hd₁ hw₁
  have hread₂ := World.read?_of_set hd₂ hw₂
  refine ⟨h.fair, hleft, hright, hpairs, hone, fun q hq bytes hread => ?_, fun e he => ?_⟩
  · rcases hreads q hq with ⟨hhere, hthere, hsame⟩ | ⟨hold, hne₁, hne₂⟩
    · rw [hread₁, if_pos hhere] at hread
      rw [hread₂, if_pos hthere]
      exact hsame bytes hread
    · -- a pair apart from the change is read as before, on either side
      have hbefore : w₁.read? q.1 = some bytes := by
        by_cases hhere : q.1.device = c.here
        · rw [hread₁, if_pos hhere] at hread
          rw [World.read?_of_device (hhere ▸ hd₁)]
          exact hc₁.read? (hne₁ hhere) hread
        · rwa [hread₁, if_neg hhere] at hread
      have hafter := h.reads q hold bytes hbefore
      rw [hread₂]
      split
      · next hthere =>
        rw [hread₁, if_pos (h.device_eq_here hold hthere)] at hread
        obtain ⟨m₁, hm₁, -⟩ := Device.read?_eq_some.mp hread
        obtain ⟨m₂, hm₂⟩ := hkin.final? m₁ hm₁
        rw [World.read?_of_device (hthere ▸ hd₂)] at hafter
        exact hc₂.read?_of_final? hm₂ (hne₂ hthere) hafter
      · exact hafter
  · rw [hself₁] at he
    cases he
    exact ⟨_, hself₂, hkin.final?, hkin.next, hkin.unsupported, hkin.memory⟩

end Linked
end TensorGraph
