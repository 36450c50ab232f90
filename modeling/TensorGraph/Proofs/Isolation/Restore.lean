/-
Worlds that are back where they were.

A call that gives back all that it took leaves the world that it found, but for the addresses that
it used up (`World.Restored`).  A user finds every allocation as it was (`World.Unchanged`), and a
later call ends as it would have ended before (`World.AsBefore`): in the same way if the earlier
devices hand out addresses from where the later ones do, and in the same way without that unless
the later ones run out of addresses.
-/
import TensorGraph.Proofs.Isolation.Linked

namespace TensorGraph

variable {α β σ τ : Type}

/-! ## The same end -/

inductive Turn.Alike (R : α → σ → β → τ → Prop) : Turn σ α → Turn τ β → Prop
  | value {a : α} {s : σ} {b : β} {t : τ} : R a s b t → Alike R (.value a s) (.value b t)
  | refused (e : Error) (s : σ) (t : τ) : Alike R (.refused e s) (.refused e t)
  | halted : Alike R .halted .halted

namespace Turn

variable {R : α → σ → β → τ → Prop} {S : β → τ → α → σ → Prop} {K : σ → τ → Prop}
variable {L : τ → σ → Prop} {x : Turn σ α} {y : Turn τ β}

theorem Foretells.alike (h : x.Foretells False R K y) : x = .halted ∨ x.Alike R y := by
  cases x with
  | value a s =>
    obtain ⟨b, t, rfl, hr⟩ := h
    exact Or.inr (.value hr)
  | refused e s =>
    rcases h with ⟨t, rfl, -⟩ | ⟨hfalse, -⟩
    · exact Or.inr (.refused e s t)
    · exact hfalse.elim
  | halted => exact Or.inl rfl

/-- Two computations that foretell each other end the same way. -/
theorem Foretells.alike_of_symm (h : x.Foretells False R K y) (hsymm : y.Foretells False S L x) :
    x.Alike R y := by
  rcases h.alike with rfl | halike
  · cases y with
    | value b t =>
      obtain ⟨a, s, hx, -⟩ := hsymm
      cases hx
    | refused e t =>
      rcases hsymm with ⟨s, hx, -⟩ | ⟨hfalse, -⟩
      · cases hx
      · exact hfalse.elim
    | halted => exact .halted
  · exact halike

end Turn

/-! ## Devices -/

namespace Device

variable {d d₀ : Device} {n : Nat}

theorem firm_of_reached (h : d.Reached) (hclear : d.Clear) : d.Firm :=
  ⟨h.booked, hclear, h.ordered⟩

def withNext (d : Device) (n : Nat) : Device := { d with next := n }

theorem Firm.withNext (h : d.Firm) (hle : d.next ≤ n) : (d.withNext n).Firm where
  toBooked := h.toBooked.congr rfl rfl rfl
  clear := ⟨h.clear.failure, h.clear.queue⟩
  ordered :=
    ⟨fun address bytes hfind => (h.ordered.memory address bytes hfind).trans_le hle,
      h.ordered.holdable, fun l hl a ha => (h.ordered.queue l hl a ha).trans_le hle,
      h.ordered.liveBytes.trans hle⟩

/-- Whether a user finds a device as it was: the same allocations, from which every copy reads
what it read, and no launch that failed or is going to. -/
structure Unchanged (d₀ d : Device) : Prop where
  layout : d.memory.layout = d₀.memory.layout
  live : d.stats.live = d₀.stats.live
  liveBytes : d.stats.liveBytes = d₀.stats.liveBytes
  clear : d.Clear
  copyout : ∀ address len,
    (copyout address len d).Alike (fun bytes _ bytes₀ _ => bytes = bytes₀) (copyout address len d₀)

namespace Restored

theorem exists_final? (h : d₀.Restored d) {m : Memory} (hm : d.final? = some m) :
    ∃ m₀, d₀.final? = some m₀ := by
  rw [← Option.isSome_iff_exists, ← h.final?, hm]
  rfl

theorem exists_final?_symm (h : d₀.Restored d) {m₀ : Memory} (hm₀ : d₀.final? = some m₀) :
    ∃ m, d.final? = some m := by
  rw [← Option.isSome_iff_exists, h.final?, hm₀]
  rfl

theorem find? (h : d₀.Restored d) {m m₀ : Memory} (hm : d.final? = some m)
    (hm₀ : d₀.final? = some m₀) (address : Nat) : m.find? address = m₀.find? address := by
  rw [← read?_of_final? hm, h.read?, read?_of_final? hm₀]

/-- A copy ends as before, for both devices have run their queues by then. -/
theorem copyout (h : d₀.Restored d) (hd₀ : d₀.Firm) (address len : Nat) :
    (Device.copyout address len d).Alike (fun bytes _ bytes₀ _ => bytes = bytes₀)
      (Device.copyout address len d₀) := by
  rcases Option.eq_none_or_eq_some d.final? with hnone | ⟨m, hm⟩
  · have hnone₀ : d₀.final? = none := by
      rw [← Option.isNone_iff_eq_none, ← Option.not_isSome, ← h.final?, hnone]
      rfl
    rw [h.firm.clear.copyout_of_none hnone, hd₀.clear.copyout_of_none hnone₀]
    exact .halted
  · obtain ⟨m₀, hm₀⟩ := h.exists_final? hm
    rw [h.firm.clear.copyout_of_some hm, hd₀.clear.copyout_of_some hm₀, h.find? hm hm₀]
    cases m₀.find? address with
    | none => exact .refused _ _ _
    | some bytes =>
      dsimp only
      split
      · exact .refused _ _ _
      · exact .value rfl

theorem unchanged (h : d₀.Restored d) (hd₀ : d₀.Firm) : d₀.Unchanged d :=
  ⟨h.layout, h.live, h.liveBytes, h.firm.clear, h.copyout hd₀⟩

theorem withNext (h : d₀.Restored d) : (d₀.withNext d.next).Restored d :=
  ⟨h.firm, le_rfl, h.capacity, h.unsupported, h.layout, h.live, h.liveBytes, h.final?, h.read?⟩

end Restored
end Device

/-! ## Worlds -/

namespace World

variable {v w w' : World} {id : DeviceId} {d d₀ : Device} {e : Error} {b : DeviceBuffer}

/-- Whether no launch of any device has failed or is going to, and all that is held is
allocated. -/
structure Calm (w : World) : Prop where
  devices : ∀ d ∈ w.devices, d.Reached ∧ d.Clear
  held : ∀ b ∈ w.held, ∃ d, w.devices[b.device]? = some d ∧ (b.address, b.size) ∈ d.memory.layout

theorem Calm.firm (h : w.Calm) : w.Firm where
  devices d hd := Device.firm_of_reached (h.devices d hd).1 (h.devices d hd).2
  held := h.held

/-- Nothing has failed where the only device was never called. -/
theorem calm_untouched (capacity : Option Nat) (unsupported : List Dtype) :
    Calm { devices := [{ capacity := capacity, unsupported := unsupported }] } where
  devices d hd := by
    rw [List.mem_singleton.mp hd]
    exact ⟨⟨capacity, unsupported, .refl⟩, Device.clear_of_queue_nil rfl rfl⟩
  held := List.forall_mem_nil _

/-- Whether a user finds all devices as they were, with the same holders of their memory. -/
structure Unchanged (v w : World) : Prop where
  held : w.held.Perm v.held
  devices : List.Forall₂ Device.Unchanged v.devices w.devices

def advanced (v w : World) : World :=
  { v with devices := v.devices.zipWith (fun d₀ d => d₀.withNext d.next) w.devices }

namespace Restored

theorem exists_device (h : v.Restored w) (hd₀ : v.devices[id]? = some d₀) :
    ∃ d, w.devices[id]? = some d ∧ d₀.Restored d := by
  have hlt : id < w.devices.length := by
    rw [h.length]
    exact (List.getElem?_eq_some_iff.mp hd₀).1
  have hd := List.getElem?_eq_getElem hlt
  obtain ⟨d₁, hd₁, hrestored⟩ := h.devices id _ hd
  rw [hd₀] at hd₁
  cases hd₁
  exact ⟨_, hd, hrestored⟩

theorem read? (h : v.Restored w) (b : DeviceBuffer) : w.read? b = v.read? b := by
  rcases Option.eq_none_or_eq_some v.devices[b.device]? with hnone | ⟨d₀, hd₀⟩
  · have hnone' : w.devices[b.device]? = none := by
      rw [List.getElem?_eq_none_iff, h.length]
      exact List.getElem?_eq_none_iff.mp hnone
    unfold World.read?
    rw [hnone, hnone']
  · obtain ⟨d, hd, hrestored⟩ := h.exists_device hd₀
    rw [read?_of_device hd, read?_of_device hd₀, hrestored.read?]

theorem firm (h : v.Restored w) (hv : v.Firm) : w.Firm where
  devices d hmem := by
    obtain ⟨id, hd⟩ := List.mem_iff_getElem?.mp hmem
    obtain ⟨d₀, -, hrestored⟩ := h.devices id d hd
    exact hrestored.firm
  held b hb := by
    obtain ⟨d₀, hd₀, hmem⟩ := hv.held b (h.held.subset hb)
    obtain ⟨d, hd, hrestored⟩ := h.exists_device hd₀
    exact ⟨d, hd, hrestored.layout ▸ hmem⟩

theorem unchanged (h : v.Restored w) (hv : v.Firm) : v.Unchanged w where
  held := h.held
  devices := by
    refine List.forall₂_iff_get.mpr ⟨h.length.symm, fun id hlt hlt' => ?_⟩
    obtain ⟨d₀, hd₀, hrestored⟩ := h.devices id _ (List.getElem?_eq_getElem hlt')
    rw [List.getElem?_eq_getElem hlt] at hd₀
    cases hd₀
    exact hrestored.unchanged (hv.devices _ (List.getElem_mem hlt))

theorem getElem?_advanced (h : v.Restored w) (hd₀ : (v.advanced w).devices[id]? = some d₀) :
    ∃ d₁ d, v.devices[id]? = some d₁ ∧ w.devices[id]? = some d ∧ d₁.Restored d ∧
      d₀ = d₁.withNext d.next := by
  obtain ⟨d₁, d, hd₁, hd, heq⟩ := List.getElem?_zipWith_eq_some.mp hd₀
  obtain ⟨d₁', hd₁', hrestored⟩ := h.devices id d hd
  rw [hd₁] at hd₁'
  cases hd₁'
  exact ⟨d₁, d, hd₁, hd, hrestored, heq.symm⟩

theorem getElem?_advanced_of_some (h : v.Restored w) (hd₀ : v.devices[id]? = some d₀) :
    ∃ d, w.devices[id]? = some d ∧ d₀.Restored d ∧
      (v.advanced w).devices[id]? = some (d₀.withNext d.next) := by
  obtain ⟨d, hd, hrestored⟩ := h.exists_device hd₀
  exact ⟨d, hd, hrestored, List.getElem?_zipWith_eq_some.mpr ⟨d₀, d, hd₀, hd, rfl⟩⟩

theorem firm_advanced (h : v.Restored w) (hv : v.Firm) : (v.advanced w).Firm where
  devices d₀ hmem := by
    obtain ⟨id, hd₀⟩ := List.mem_iff_getElem?.mp hmem
    obtain ⟨d₁, d, hd₁, -, hrestored, rfl⟩ := h.getElem?_advanced hd₀
    exact (hv.device hd₁).withNext hrestored.next
  held b hb := by
    obtain ⟨d₀, hd₀, hmem⟩ := hv.held b hb
    obtain ⟨d, -, -, hadvanced⟩ := h.getElem?_advanced_of_some hd₀
    exact ⟨_, hadvanced, hmem⟩

theorem advanced (h : v.Restored w) : (v.advanced w).Restored w where
  held := h.held
  settings := h.settings
  length := by
    show _ = (List.zipWith _ _ _).length
    rw [List.length_zipWith, h.length, min_self]
  devices id d hd := by
    obtain ⟨d₀, hd₀, -⟩ := h.devices id d hd
    obtain ⟨d', hd', hrestored, hadvanced⟩ := h.getElem?_advanced_of_some hd₀
    rw [hd] at hd'
    cases hd'
    exact ⟨_, hadvanced, hrestored.withNext⟩

end Restored
end World

/-! ## A world beside itself -/

def Comparison.same (v w : World) (id : DeviceId) : Comparison :=
  ⟨v, w, id, id, w.held.map fun b => (b, b), False⟩

namespace World

variable {v w w' : World} {id : DeviceId} {d d₀ : Device} {e : Error} {b : DeviceBuffer}
variable {R : α → World → α → World → Prop} {K : World → World → Prop} {x : Action World α}

theorem Firm.linked_same (hv : v.Firm) (hw : w.Firm) (hsettings : w.settings = v.settings)
    (hheld : w.held ⊆ v.held) (hread : ∀ b, w.read? b = v.read? b)
    (hdevices : ∀ d₁, v.devices[id]? = some d₁ →
      ∃ d₂, w.devices[id]? = some d₂ ∧ (Comparison.same v w id).Kin d₁ d₂) :
    Linked (.same v w id) [] v w where
  fair := by
    refine ⟨hsettings, ?_, ?_, ?_⟩
    · intro p hp
      obtain ⟨b, hb, rfl⟩ := List.mem_map.mp hp
      exact ⟨hheld hb, hb⟩
    · intro p hp
      obtain ⟨b, -, rfl⟩ := List.mem_map.mp hp
      rfl
    · intro p hp hdevice
      obtain ⟨b, -, rfl⟩ := List.mem_map.mp hp
      exact hdevice
  left := grown_refl hv
  right := grown_refl hw
  pairs _ hp := nomatch hp
  one _ hp := nomatch hp
  reads p hp bytes h := by
    obtain ⟨b, -, rfl⟩ := List.mem_map.mp hp
    rw [hread]
    exact h
  devices := hdevices

theorem Firm.linked_self (h : w.Firm) (id : DeviceId) : Linked (.same w w id) [] w w :=
  h.linked_same h rfl (List.Subset.refl _) (fun _ => rfl) fun d hd =>
    ⟨d, hd, fun m hm => ⟨m, hm⟩, le_rfl, rfl, Or.inl ⟨rfl, rfl⟩⟩

theorem Restored.linked (h : v.Restored w) (hv : v.Firm) (id : DeviceId) :
    Linked (.same w v id) [] w v := by
  refine (h.firm hv).linked_same hv h.settings.symm h.held.symm.subset
    (fun b => (h.read? b).symm) fun d hd => ?_
  obtain ⟨d₀, hd₀, hrestored⟩ := h.devices id d hd
  exact ⟨d₀, hd₀, fun _ hm => hrestored.exists_final? hm, hrestored.next,
    hrestored.unsupported.symm, Or.inl ⟨hrestored.capacity.symm, hrestored.liveBytes.symm⟩⟩

/-- Where addresses are as far, neither world can be told from the other. -/
theorem Restored.linked_symm (h : v.Restored w) (hv : v.Firm) (id : DeviceId)
    (hnext : ∀ (d₀ d : Device), v.devices[id]? = some d₀ → w.devices[id]? = some d →
      d.next ≤ d₀.next) :
    Linked (.same v w id) [] v w := by
  refine hv.linked_same (h.firm hv) h.settings h.held.subset h.read? fun d₀ hd₀ => ?_
  obtain ⟨d, hd, hrestored⟩ := h.exists_device hd₀
  exact ⟨d, hd, fun _ hm => hrestored.exists_final?_symm hm, hnext d₀ d hd₀ hd,
    hrestored.unsupported, Or.inl ⟨hrestored.capacity, hrestored.liveBytes⟩⟩

/-- A call that is refused after it gave back what it took. -/
theorem restored_of_refused
    (hx : (x w).Foretells False R (Linked (.same w w id) []) (x w))
    (h : x w = .refused e w') : w.Restored w' := by
  rw [h] at hx
  rcases hx with ⟨_, -, hlinked⟩ | ⟨hfalse, -⟩
  · exact hlinked.left.restored
  · exact hfalse.elim

/-- Whether a call ends in a later world as it would have in an earlier one: in the same way if
addresses are as far there, and in the same way as it was unless the call halts. -/
def AsBefore (R : α → World → α → World → Prop) (x : Action World α) (v w : World) : Prop :=
  (x w).Alike R (x (v.advanced w)) ∧ (x w = .halted ∨ (x w).Alike R (x v))

theorem Restored.asBefore (h : v.Restored w) (hv : v.Firm) (id : DeviceId)
    (hx : ∀ v₁ v₂ : World, v.held ⊆ v₂.held → Linked (.same v₁ v₂ id) [] v₁ v₂ →
      (x v₁).Foretells False R (fun _ _ => True) (x v₂)) : AsBefore R x v w := by
  have hadvanced := h.advanced
  have hfirm := h.firm_advanced hv
  have hnext : ∀ (d₀ d : Device), (v.advanced w).devices[id]? = some d₀ →
      w.devices[id]? = some d → d.next ≤ d₀.next := by
    intro d₀ d hd₀ hd
    obtain ⟨d₁, d', -, hd', -, rfl⟩ := h.getElem?_advanced hd₀
    rw [hd] at hd'
    cases hd'
    exact le_rfl
  have hto := hx w (v.advanced w) (List.Subset.refl _) (hadvanced.linked hfirm id)
  have hfrom := hx (v.advanced w) w h.held.symm.subset (hadvanced.linked_symm hfirm id hnext)
  exact ⟨hto.alike_of_symm hfrom, (hx w v (List.Subset.refl _) (h.linked hv id)).alike⟩

end World
end TensorGraph
