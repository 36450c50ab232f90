/-
Buffers that are kept.

`Follows v w` says that a world may come after another: addresses only go up, and a buffer that is
held in both holds in the later world what it held in the earlier one.  It is transitive, so it is
enough that every operation leads to a world that follows: those that only make something new
(`Grown.follows`), and giving a buffer back (`Tidy.releaseBuffer`).
-/
import TensorGraph.Proofs.Isolation.Buffers
import TensorGraph.Proofs.Ownership.Holders

namespace TensorGraph
namespace World

variable {v w w' x : World} {b : DeviceBuffer} {bs : List DeviceBuffer} {d : Device} {m : Memory}

structure Follows (v w : World) : Prop where
  settings : w.settings = v.settings
  length : w.devices.length = v.devices.length
  devices : ∀ (id : DeviceId) (d₀ d : Device), v.devices[id]? = some d₀ → w.devices[id]? = some d →
    d₀.next ≤ d.next ∧ d.unsupported = d₀.unsupported
  reads : ∀ b ∈ w.held, ∀ d₀ : Device, v.devices[b.device]? = some d₀ → b.address < d₀.next →
    b ∈ v.held ∧ ∀ bytes, w.read? b = some bytes → v.read? b = some bytes

theorem follows_refl (w : World) : w.Follows w where
  settings := rfl
  length := rfl
  devices id d₀ d hd₀ hd := by
    rw [hd₀] at hd
    cases hd
    exact ⟨le_rfl, rfl⟩
  reads b hb _ _ _ := ⟨hb, fun _ => id⟩

theorem Follows.exists_device (h : v.Follows w) {id : DeviceId} {d₀ : Device}
    (hd₀ : v.devices[id]? = some d₀) : ∃ d, w.devices[id]? = some d := by
  have hlt : id < w.devices.length := by
    rw [h.length]
    exact (List.getElem?_eq_some_iff.mp hd₀).1
  exact ⟨_, List.getElem?_eq_getElem hlt⟩

theorem Follows.exists_earlier (h : v.Follows w) {id : DeviceId} (hd : w.devices[id]? = some d) :
    ∃ d₀, v.devices[id]? = some d₀ := by
  have hlt : id < v.devices.length := by
    rw [← h.length]
    exact (List.getElem?_eq_some_iff.mp hd).1
  exact ⟨_, List.getElem?_eq_getElem hlt⟩

theorem Follows.trans (h : v.Follows w) (h' : w.Follows x) : v.Follows x where
  settings := h'.settings.trans h.settings
  length := h'.length.trans h.length
  devices id d₀ d hd₀ hd := by
    obtain ⟨d₁, hd₁⟩ := h.exists_device hd₀
    obtain ⟨hnext, hunsupported⟩ := h.devices id d₀ d₁ hd₀ hd₁
    obtain ⟨hnext', hunsupported'⟩ := h'.devices id d₁ d hd₁ hd
    exact ⟨hnext.trans hnext', hunsupported'.trans hunsupported⟩
  reads b hb d₀ hd₀ hlt := by
    obtain ⟨d₁, hd₁⟩ := h.exists_device hd₀
    have hlt' := hlt.trans_le (h.devices _ d₀ d₁ hd₀ hd₁).1
    obtain ⟨hb', hread'⟩ := h'.reads b hb d₁ hd₁ hlt'
    obtain ⟨hb'', hread''⟩ := h.reads b hb' d₀ hd₀ hlt
    exact ⟨hb'', fun bytes hbytes => hread'' bytes (hread' bytes hbytes)⟩

/-- What is held in both worlds and can be read in the later one is read in the earlier one. -/
theorem Follows.read? (h : v.Follows w) (hv : v.Firm) (hb : b ∈ v.held) (hb' : b ∈ w.held)
    {bytes : Bytes} (hread : w.read? b = some bytes) : v.read? b = some bytes := by
  obtain ⟨d₀, hd₀, hmem⟩ := hv.held b hb
  exact (h.reads b hb' d₀ hd₀ ((hv.device hd₀).lt_next hmem)).2 bytes hread

/-! ## Worlds with nothing out of order -/

/-- Whether nothing fails in a world, all that is held is allocated, and addresses are handed out
from where a new device starts or above. -/
structure Tidy (w : World) : Prop where
  firm : w.Firm
  next : ∀ d ∈ w.devices, ({} : Device).next ≤ d.next

theorem Grown.follows (h : v.Grown bs w) : v.Follows w where
  settings := h.settings
  length := h.length
  devices id d₀ d hd₀ hd := by
    obtain ⟨d₁, hd₁, hgrown⟩ := h.exists_base hd
    rw [hd₀] at hd₁
    cases hd₁
    exact ⟨hgrown.next, hgrown.unsupported⟩
  reads b hb d₀ hd₀ hlt := by
    have hold : b ∈ v.held := by
      rcases List.mem_append.mp (h.held.subset hb) with hb | hb
      · refine (h.own b hb).resolve_right ?_
        rintro ⟨d₁, -, hd₁, -, hle, -⟩
        rw [hd₀] at hd₁
        cases hd₁
        exact Nat.not_le.mpr hlt hle
      · exact hb
    exact ⟨hold, fun _ hread => h.read? hold hread⟩

theorem Grown.tidy (h : v.Grown bs w) (hv : v.Tidy) : w.Tidy where
  firm := h.firm
  next d hmem := by
    obtain ⟨id, hd⟩ := List.mem_iff_getElem?.mp hmem
    obtain ⟨d₀, hd₀, hgrown⟩ := h.exists_base hd
    exact (hv.next d₀ (List.mem_of_getElem? hd₀)).trans hgrown.next

/-! ## Buffers that are given back -/

/-- What a buffer holds does not change when another one of the same device is freed. -/
theorem read?_freed {held : List DeviceBuffer} (hd : w.devices[b.device]? = some d)
    (hm : d.final? = some m) (address size : Nat) {b' : DeviceBuffer} {bytes : Bytes}
    (hread : ({ w with held := held }.setDevice b.device (d.freed m address size)).read? b' =
      some bytes) : w.read? b' = some bytes := by
  by_cases hdevice : b'.device = b.device
  · rw [← hdevice] at hd hread
    rw [read?_setDevice (w := { w with held := held }) hd] at hread
    obtain ⟨m', hm', hfind⟩ := Device.read?_eq_some.mp hread
    rw [Device.final?_freed] at hm'
    cases hm'
    rw [Memory.find?_remove] at hfind
    split at hfind
    · cases hfind
    · rw [read?_of_device hd, Device.read?_of_final? hm, hfind]
  · rw [read?_setDevice_of_ne hdevice] at hread
    exact hread

def dropped (w : World) (b : DeviceBuffer) (d : Device) (m : Memory) : World :=
  { w with held := w.held.erase b }.setDevice b.device (d.freed m b.address b.size)

theorem getElem?_dropped (hd : w.devices[b.device]? = some d) (id : DeviceId) :
    (w.dropped b d m).devices[id]? = if id = b.device then
      some { d.freed m b.address b.size with notices := [] } else w.devices[id]? := by
  by_cases hid : id = b.device
  · rw [if_pos hid, hid]
    exact List.getElem?_set_self (List.getElem?_eq_some_iff.mp hd).1
  · rw [if_neg hid]
    exact List.getElem?_set_ne (Ne.symm hid)

theorem Tidy.dropped (h : w.Tidy) (hlast : b ∉ w.held.erase b)
    (hd : w.devices[b.device]? = some d) (hmem : (b.address, b.size) ∈ d.memory.layout)
    (hm : d.final? = some m) : (w.dropped b d m).Tidy where
  firm := by
    have hfirm := h.firm.device hd
    refine ⟨fun e he => ?_, fun b' hb' => ?_⟩
    · obtain ⟨id, hid⟩ := List.mem_iff_getElem?.mp he
      rw [getElem?_dropped hd] at hid
      split at hid
      · cases hid
        exact (Device.quiet_collect (hfirm.freed hm hmem)).firm
      · exact h.firm.device hid
    · -- what has the address of the buffer is the buffer, which nobody holds any more
      have hheld : b' ∈ w.held := List.mem_of_mem_erase hb'
      have hne : b' ≠ b := fun heq => hlast (heq ▸ hb')
      obtain ⟨d', hd', hmem'⟩ := h.firm.held b' hheld
      rw [getElem?_dropped hd]
      by_cases hdevice : b'.device = b.device
      · rw [if_pos hdevice]
        rw [hdevice, hd] at hd'
        cases hd'
        refine ⟨_, rfl, ?_⟩
        show _ ∈ (m.remove b.address).layout
        rw [Memory.layout_remove, List.mem_filter, Device.layout_of_final? hfirm.nodup hm,
          decide_eq_true_iff]
        refine ⟨hmem', fun haddress => hne ?_⟩
        rw [show b'.address = b.address from haddress] at hmem'
        have hsize := hfirm.size_unique hmem' hmem
        cases b
        cases b'
        cases hdevice
        cases haddress
        cases hsize
        rfl
      · rw [if_neg hdevice]
        exact ⟨d', hd', hmem'⟩
  next e he := by
    obtain ⟨id, hid⟩ := List.mem_iff_getElem?.mp he
    rw [getElem?_dropped hd] at hid
    split at hid
    · cases hid
      exact h.next d (List.mem_of_getElem? hd)
    · exact h.next e (List.mem_of_getElem? hid)

theorem follows_dropped (hd : w.devices[b.device]? = some d) (hm : d.final? = some m) :
    w.Follows (w.dropped b d m) where
  settings := rfl
  length := List.length_set ..
  devices id d₀ d' hd₀ hd' := by
    rw [getElem?_dropped hd] at hd'
    split at hd'
    · next hid =>
      rw [hid, hd] at hd₀
      cases hd₀
      cases hd'
      exact ⟨le_rfl, rfl⟩
    · rw [hd₀] at hd'
      cases hd'
      exact ⟨le_rfl, rfl⟩
  reads b' hb' _ _ _ := ⟨List.mem_of_mem_erase hb', fun _ => read?_freed hd hm b.address b.size⟩

/-- A buffer that is given back leaves all others as they were. -/
theorem Tidy.releaseBuffer (h : w.Tidy) (hb : b ∈ w.held) :
    (releaseBuffer b w).Meets
      (fun _ w' => w'.Tidy ∧ w.Follows w' ∧ w'.held = w.held.erase b) fun _ => False := by
  by_cases hheld : b ∈ w.held.erase b
  · rw [releaseBuffer_of_held hheld]
    refine ⟨⟨⟨h.firm.devices, fun b' hb' => h.firm.held b' (List.mem_of_mem_erase hb')⟩, h.next⟩,
      ?_, rfl⟩
    exact ⟨rfl, rfl, (follows_refl w).devices, fun b' hb' _ _ _ =>
      ⟨List.mem_of_mem_erase hb', fun _ => id⟩⟩
  · obtain ⟨d, hd, hmem⟩ := h.firm.held b hb
    have hfirm := h.firm.device hd
    rcases Option.eq_none_or_eq_some d.final? with hnone | ⟨m, hm⟩
    · rw [releaseBuffer_of_halted hheld hd (hfirm.clear.free_of_none hnone)]
      exact trivial
    · obtain ⟨old, hfind, hsize⟩ := (Memory.mem_layout_iff hfirm.nodup).mp hmem
      have hfree := Device.free_of_some hm hfind
      rw [hsize] at hfree
      rw [releaseBuffer_of_last hheld hd hfree]
      exact ⟨h.dropped hheld hd hmem hm, follows_dropped hd hm, rfl⟩

/-- All buffers of a list are given back, whoever else holds them. -/
theorem Tidy.forEach_releaseBuffer {kept : List DeviceBuffer} (h : w.Tidy)
    (hheld : w.held.Perm (bs ++ kept)) :
    (Action.forEach World.releaseBuffer bs w).Meets
      (fun _ w' => w'.Tidy ∧ w.Follows w' ∧ w'.held.Perm kept) fun _ => False := by
  induction bs generalizing w with
  | nil => exact ⟨h, follows_refl w, hheld⟩
  | cons b bs ih =>
    refine Action.meets_bind (h.releaseBuffer (hheld.symm.subset List.mem_cons_self)) ?_
    rintro _ w₁ ⟨htidy, hfollows, heq⟩
    have hrest := hheld.erase b
    rw [List.cons_append, List.erase_cons_head, ← heq] at hrest
    exact (ih htidy hrest).mono
      (fun _ _ ⟨htidy', hfollows', hkept⟩ => ⟨htidy', hfollows.trans hfollows', hkept⟩) fun _ => id

theorem release_eq_forEach (a : Argument) : release a = Action.forEach releaseBuffer a.holds := by
  unfold release Argument.holds
  cases a.deviceBuffer? with
  | none => rfl
  | some b => exact (bind_pure (releaseBuffer b)).symm

end World
end TensorGraph
