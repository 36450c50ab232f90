/-
Worlds with some buffers more.

`Grown v bs w` says that a world is an earlier one in which the buffers `bs` have come to be held
besides.  Such a buffer was allocated later, or somebody held it before and has one holder more.
Whatever else was there before is untouched, so once all of `bs` are given back no call on a
device can tell the two worlds apart.
-/
import TensorGraph.Proofs.Device.Allocate
import TensorGraph.Proofs.Device.Grown

namespace TensorGraph
namespace World

variable {v w w' : World} {bs bs' : List DeviceBuffer} {b c : DeviceBuffer} {id : DeviceId}
variable {d d' d₀ : Device} {m : Memory} {old : Bytes} {α : Type}

/-! ## Reading -/

/-- What a buffer is going to hold once the queue of its device has run to its end. -/
def read? (w : World) (b : DeviceBuffer) : Option Bytes :=
  w.devices[b.device]?.bind (Device.read? · b.address)

theorem read?_of_device (hd : w.devices[b.device]? = some d) : w.read? b = d.read? b.address := by
  unfold read?
  rw [hd]
  rfl

theorem read?_setDevice_of_ne (hb : b.device ≠ id) (d : Device) :
    (w.setDevice id d).read? b = w.read? b := by
  unfold read?
  rw [show (w.setDevice id d).devices[b.device]? = _ from List.getElem?_set_ne (Ne.symm hb)]

theorem getElem?_setDevice (hd : w.devices[id]? = some d) (d' : Device) :
    (w.setDevice id d').devices[id]? = some { d' with notices := [] } :=
  List.getElem?_set_self (List.getElem?_eq_some_iff.mp hd).1

theorem read?_setDevice (hd : w.devices[b.device]? = some d) (d' : Device) :
    (w.setDevice b.device d').read? b = d'.read? b.address := by
  rw [read?_of_device (getElem?_setDevice hd d')]
  rfl

theorem read?_of_set (hd : w.devices[id]? = some d)
    (hw : w'.devices = w.devices.set id { d' with notices := [] }) (b : DeviceBuffer) :
    w'.read? b = if b.device = id then d'.read? b.address else w.read? b := by
  unfold read?
  rw [hw]
  split
  · next hb =>
    rw [hb, List.getElem?_set_self (List.getElem?_eq_some_iff.mp hd).1]
    rfl
  · next hb => rw [List.getElem?_set_ne (Ne.symm hb)]

/-! ## Worlds in which nothing fails -/

structure Firm (w : World) : Prop where
  devices : ∀ d ∈ w.devices, d.Firm
  held : ∀ b ∈ w.held, ∃ d, w.devices[b.device]? = some d ∧ (b.address, b.size) ∈ d.memory.layout

theorem Firm.device (h : w.Firm) (hd : w.devices[id]? = some d) : d.Firm :=
  h.devices d (List.mem_of_getElem? hd)

structure Quiet (w w' : World) : Prop where
  held : w'.held = w.held
  settings : w'.settings = w.settings
  length : w'.devices.length = w.devices.length
  devices : ∀ (id : DeviceId) d', w'.devices[id]? = some d' →
    ∃ d : Device, w.devices[id]? = some d ∧ d.Quiet d'

theorem quiet_congr (h : ∀ d ∈ w.devices, d.Firm) (hdevices : w'.devices = w.devices)
    (hheld : w'.held = w.held) (hsettings : w'.settings = w.settings) : w.Quiet w' where
  held := hheld
  settings := hsettings
  length := congrArg List.length hdevices
  devices id d hd := by
    rw [hdevices] at hd
    exact ⟨d, hd, Device.quiet_refl (h d (List.mem_of_getElem? hd))⟩

theorem Quiet.exists_device (h : w.Quiet w') (hd : w.devices[id]? = some d) :
    ∃ d', w'.devices[id]? = some d' ∧ d.Quiet d' := by
  have hlt : id < w'.devices.length := by
    rw [h.length]
    exact (List.getElem?_eq_some_iff.mp hd).1
  have hd' := List.getElem?_eq_getElem hlt
  obtain ⟨d₁, hd₁, hquiet⟩ := h.devices id _ hd'
  rw [hd] at hd₁
  cases hd₁
  exact ⟨_, hd', hquiet⟩

theorem Quiet.read? (h : w.Quiet w') (b : DeviceBuffer) : w'.read? b = w.read? b := by
  rcases Option.eq_none_or_eq_some w.devices[b.device]? with hnone | ⟨d, hd⟩
  · have hnone' : w'.devices[b.device]? = none := by
      rw [List.getElem?_eq_none_iff, h.length]
      exact List.getElem?_eq_none_iff.mp hnone
    unfold World.read?
    rw [hnone, hnone']
  · obtain ⟨d', hd', hquiet⟩ := h.exists_device hd
    rw [read?_of_device hd, read?_of_device hd', hquiet.read?]

theorem Quiet.trans {w'' : World} (h : w.Quiet w') (h' : w'.Quiet w'') : w.Quiet w'' where
  held := h'.held.trans h.held
  settings := h'.settings.trans h.settings
  length := h'.length.trans h.length
  devices id d'' hd'' := by
    obtain ⟨d', hd', hquiet'⟩ := h'.devices id d'' hd''
    obtain ⟨d, hd, hquiet⟩ := h.devices id d' hd'
    exact ⟨d, hd, hquiet.trans hquiet'⟩

theorem quiet_setDevice (h : ∀ d ∈ w.devices, d.Firm) (hd : w.devices[id]? = some d)
    (hquiet : d.Quiet d') : w.Quiet (w.setDevice id d') where
  held := rfl
  settings := rfl
  length := List.length_set ..
  devices i e he := by
    by_cases hi : i = id
    · subst hi
      rw [getElem?_setDevice hd] at he
      cases he
      exact ⟨d, hd, hquiet.trans (Device.quiet_collect hquiet.firm)⟩
    · rw [show (w.setDevice id d').devices[i]? = _ from List.getElem?_set_ne (Ne.symm hi)] at he
      exact ⟨e, he, Device.quiet_refl (h e (List.mem_of_getElem? he))⟩

/-! ## Buffers that came later -/

def Later (v w : World) (b : DeviceBuffer) : Prop :=
  ∃ d₀ d, v.devices[b.device]? = some d₀ ∧ w.devices[b.device]? = some d ∧ d₀.next ≤ b.address ∧
    (b.address, b.size) ∈ d.memory.layout

/-- Whether a world is an earlier one in which buffers are held besides. -/
structure Grown (v : World) (bs : List DeviceBuffer) (w : World) : Prop where
  base : v.Firm
  held : w.held.Perm (bs ++ v.held)
  settings : w.settings = v.settings
  length : w.devices.length = v.devices.length
  devices : ∀ (id : DeviceId) d, w.devices[id]? = some d →
    ∃ d₀ : Device, v.devices[id]? = some d₀ ∧ d₀.Grown d ∧
    ∀ e ∈ d.memory.layout, d₀.next ≤ e.1 → ⟨id, e.1, e.2⟩ ∈ bs
  own : ∀ b ∈ bs, b ∈ v.held ∨ Later v w b

theorem grown_refl (h : w.Firm) : w.Grown [] w where
  base := h
  held := .refl _
  settings := rfl
  length := rfl
  devices id d hd := by
    have hfirm := h.device hd
    refine ⟨d, hd, Device.grown_refl hfirm, fun e he hle => ?_⟩
    exact absurd (hfirm.lt_next (show (e.1, e.2) ∈ _ from he)) (Nat.not_lt.mpr hle)
  own _ hb := nomatch hb

theorem Grown.perm (h : v.Grown bs w) (hp : bs.Perm bs') : v.Grown bs' w :=
  { h with
    held := h.held.trans (hp.append_right _)
    devices := fun id d hd => by
      obtain ⟨d₀, hd₀, hgrown, hused⟩ := h.devices id d hd
      exact ⟨d₀, hd₀, hgrown, fun e he hle => hp.subset (hused e he hle)⟩
    own := fun b hb => h.own b (hp.symm.subset hb) }

theorem Grown.exists_base (h : v.Grown bs w) (hd : w.devices[id]? = some d) :
    ∃ d₀, v.devices[id]? = some d₀ ∧ d₀.Grown d := by
  obtain ⟨d₀, hd₀, hgrown, -⟩ := h.devices id d hd
  exact ⟨d₀, hd₀, hgrown⟩

theorem Grown.exists_device (h : v.Grown bs w) (hd₀ : v.devices[id]? = some d₀) :
    ∃ d, w.devices[id]? = some d ∧ d₀.Grown d := by
  have hlt : id < w.devices.length := by
    rw [h.length]
    exact (List.getElem?_eq_some_iff.mp hd₀).1
  have hd := List.getElem?_eq_getElem hlt
  obtain ⟨d₁, hd₁, hgrown⟩ := h.exists_base hd
  rw [hd₀] at hd₁
  cases hd₁
  exact ⟨_, hd, hgrown⟩

theorem Grown.device_firm (h : v.Grown bs w) (hd : w.devices[id]? = some d) : d.Firm := by
  obtain ⟨d₀, -, hgrown⟩ := h.exists_base hd
  exact hgrown.firm

theorem Grown.devices_firm (h : v.Grown bs w) : ∀ d ∈ w.devices, d.Firm := by
  intro d hmem
  obtain ⟨id, hd⟩ := List.mem_iff_getElem?.mp hmem
  exact h.device_firm hd

theorem Grown.allocated (h : v.Grown bs w) (hb : b ∈ bs ++ v.held) :
    ∃ d, w.devices[b.device]? = some d ∧ (b.address, b.size) ∈ d.memory.layout := by
  have hold : b ∈ v.held → ∃ d, w.devices[b.device]? = some d ∧
      (b.address, b.size) ∈ d.memory.layout := by
    intro hb
    obtain ⟨d₀, hd₀, hmem⟩ := h.base.held b hb
    obtain ⟨d, hd, hgrown⟩ := h.exists_device hd₀
    exact ⟨d, hd, (hgrown.mem_layout_iff ((h.base.device hd₀).lt_next hmem)).mpr hmem⟩
  rcases List.mem_append.mp hb with hb | hb
  · rcases h.own b hb with hb | ⟨d₀, d, -, hd, -, hmem⟩
    · exact hold hb
    · exact ⟨d, hd, hmem⟩
  · exact hold hb

theorem Grown.address_lt_next (h : v.Grown bs w) (hd : w.devices[b.device]? = some d)
    (hb : b ∈ bs ++ v.held) : b.address < d.next := by
  obtain ⟨d', hd', hmem⟩ := h.allocated hb
  rw [hd] at hd'
  cases hd'
  exact (h.device_firm hd).lt_next hmem

theorem Grown.firm (h : v.Grown bs w) : w.Firm where
  devices := h.devices_firm
  held _ hb := h.allocated (h.held.mem_iff.mp hb)

theorem Firm.not_later (h : v.Firm) (hb : b ∈ v.held) : ¬Later v w b := by
  rintro ⟨d₀, d, hd₀, -, hle, -⟩
  obtain ⟨d₁, hd₁, hmem⟩ := h.held b hb
  rw [hd₀] at hd₁
  cases hd₁
  exact absurd ((h.device hd₀).lt_next hmem) (Nat.not_lt.mpr hle)

/-- Device and address identify a buffer. -/
theorem Grown.eq_of_address (h : v.Grown bs w) (hb : b ∈ bs ++ v.held) (hc : c ∈ bs ++ v.held)
    (hdevice : b.device = c.device) (haddress : b.address = c.address) : b = c := by
  obtain ⟨d, hd, hmem⟩ := h.allocated hb
  obtain ⟨d', hd', hmem'⟩ := h.allocated hc
  rw [hdevice, hd'] at hd
  cases hd
  rw [haddress] at hmem
  have hsize := (h.device_firm hd').size_unique hmem hmem'
  cases b
  cases c
  cases hdevice
  cases haddress
  cases hsize
  rfl

theorem Grown.quiet (h : v.Grown bs w) (hq : w.Quiet w') : v.Grown bs w' where
  base := h.base
  held := hq.held ▸ h.held
  settings := hq.settings.trans h.settings
  length := hq.length.trans h.length
  devices id d' hd' := by
    obtain ⟨d, hd, hquiet⟩ := hq.devices id d' hd'
    obtain ⟨d₀, hd₀, hgrown, hused⟩ := h.devices id d hd
    refine ⟨d₀, hd₀, hgrown.quiet hquiet, ?_⟩
    rw [hquiet.layout]
    exact hused
  own b hb := by
    refine (h.own b hb).imp_right ?_
    rintro ⟨d₀, d, hd₀, hd, hle, hmem⟩
    obtain ⟨d', hd', hquiet⟩ := hq.exists_device hd
    exact ⟨d₀, d', hd₀, hd', hle, hquiet.layout ▸ hmem⟩

theorem Grown.retain (h : v.Grown bs w) (hb : b ∈ bs ++ v.held) :
    v.Grown (b :: bs) { w with held := b :: w.held } where
  base := h.base
  held := h.held.cons b
  settings := h.settings
  length := h.length
  devices id d hd := by
    obtain ⟨d₀, hd₀, hgrown, hused⟩ := h.devices id d hd
    exact ⟨d₀, hd₀, hgrown, fun e he hle => List.mem_cons_of_mem _ (hused e he hle)⟩
  own c hc := by
    have hown : ∀ c ∈ bs ++ v.held, c ∈ v.held ∨ Later v w c := fun c hc =>
      (List.mem_append.mp hc).elim (h.own c) Or.inl
    rcases List.mem_cons.mp hc with rfl | hc
    · exact hown c hb
    · exact h.own c hc

theorem Grown.unretain (h : v.Grown (b :: bs) w) (hb : b ∈ bs ++ v.held) :
    v.Grown bs { w with held := w.held.erase b } where
  base := h.base
  held := by
    have herase := h.held.erase b
    rwa [List.cons_append, List.erase_cons_head] at herase
  settings := h.settings
  length := h.length
  devices id d hd := by
    obtain ⟨d₀, hd₀, hgrown, hused⟩ := h.devices id d hd
    refine ⟨d₀, hd₀, hgrown, fun e he hle => ?_⟩
    rcases List.mem_cons.mp (hused e he hle) with heq | hmem
    · refine (List.mem_append.mp hb).elim (fun hb => heq ▸ hb) fun hb => ?_
      rw [← heq] at hb
      exact absurd ⟨d₀, d, hd₀, hd, hle, he⟩ (h.base.not_later (w := w) hb)
    · exact hmem
  own c hc := h.own c (List.mem_cons_of_mem _ hc)

/-- A holder on a device was there before, or holds a later allocation of that device. -/
theorem Grown.own_on (h : v.Grown bs w) (hd : w.devices[id]? = some d)
    (hd₀ : v.devices[id]? = some d₀) (hb : b ∈ bs) (hdevice : b.device = id) :
    b ∈ v.held ∨ d₀.next ≤ b.address ∧ (b.address, b.size) ∈ d.memory.layout := by
  refine (h.own b hb).imp_right ?_
  rintro ⟨e₀, e, he₀, he, hle, hmem⟩
  rw [hdevice, hd₀] at he₀
  rw [hdevice, hd] at he
  cases he₀
  cases he
  exact ⟨hle, hmem⟩

/-! ## Changes of a device -/

/-- A device on which later allocations only were changed, and the holders that follow. -/
theorem Grown.set (h : v.Grown bs w) (hd : w.devices[id]? = some d)
    (hd₀ : v.devices[id]? = some d₀) (hgrown : d₀.Grown d')
    (hdevices : w'.devices = w.devices.set id { d' with notices := [] })
    (hsettings : w'.settings = w.settings) (hheld : w'.held.Perm (bs' ++ v.held))
    (hother : ∀ b, b.device ≠ id → (b ∈ bs' ↔ b ∈ bs))
    (hown : ∀ b ∈ bs', b.device = id → b ∈ v.held ∨
      d₀.next ≤ b.address ∧ (b.address, b.size) ∈ d'.memory.layout)
    (hused : ∀ e ∈ d'.memory.layout, d₀.next ≤ e.1 → ⟨id, e.1, e.2⟩ ∈ bs') : v.Grown bs' w' := by
  have hself : w'.devices[id]? = some { d' with notices := [] } := by
    rw [hdevices, List.getElem?_set_self (List.getElem?_eq_some_iff.mp hd).1]
  have hne : ∀ i ≠ id, w'.devices[i]? = w.devices[i]? := fun i hi => by
    rw [hdevices, List.getElem?_set_ne (Ne.symm hi)]
  refine ⟨h.base, hheld, hsettings.trans h.settings, ?_, fun i e he => ?_, fun b hb => ?_⟩
  · rw [hdevices, List.length_set, h.length]
  · by_cases hi : i = id
    · subst hi
      rw [hself] at he
      cases he
      exact ⟨d₀, hd₀, hgrown.quiet (Device.quiet_collect hgrown.firm), hused⟩
    · rw [hne i hi] at he
      obtain ⟨e₀, he₀, hgrown', hused'⟩ := h.devices i e he
      exact ⟨e₀, he₀, hgrown', fun x hx hle => (hother _ hi).mpr (hused' x hx hle)⟩
  · by_cases hb' : b.device = id
    · refine (hown b hb hb').imp_right fun ⟨hle, hmem⟩ => ?_
      rw [← hb'] at hd₀ hself
      exact ⟨d₀, _, hd₀, hself, hle, hmem⟩
    · refine (h.own b ((hother b hb').mp hb)).imp_right ?_
      rintro ⟨e₀, e, he₀, he, hle, hmem⟩
      exact ⟨e₀, e, he₀, (hne _ hb').trans he, hle, hmem⟩

theorem Grown.written (h : v.Grown bs w) (hd : w.devices[id]? = some d)
    (hd₀ : v.devices[id]? = some d₀) (hgrown : d₀.Grown d')
    (hlayout : d'.memory.layout = d.memory.layout) : v.Grown bs (w.setDevice id d') := by
  obtain ⟨d₁, hd₁, -, hused⟩ := h.devices id d hd
  rw [hd₀] at hd₁
  cases hd₁
  refine h.set hd hd₀ hgrown rfl rfl h.held (fun _ _ => Iff.rfl) (fun b hb hdevice => ?_) ?_
  · rw [hlayout]
    exact h.own_on hd hd₀ hb hdevice
  · rw [hlayout]
    exact hused

theorem Grown.replaced (h : v.Grown bs w) (hlater : Later v w b)
    (hd : w.devices[b.device]? = some d) (hfinal : d.final? = some m)
    (hfind : d.memory.find? b.address = some old) {bytes : Bytes} (hsize : bytes.size = old.size) :
    v.Grown bs (w.setDevice b.device (d.ran (m.replace b.address bytes))) := by
  obtain ⟨d₀, hd₀, hgrown⟩ := h.exists_base hd
  obtain ⟨d₁, d₂, hd₁, -, hle, -⟩ := hlater
  rw [hd₀] at hd₁
  cases hd₁
  obtain ⟨old', hold, hsize'⟩ := Device.find?_of_final? hfinal hfind
  refine h.written hd hd₀ (hgrown.replaced hfinal hfind hsize hle) ?_
  exact (Memory.layout_replace (hgrown.firm.ran hfinal).nodup hold (hsize.trans hsize'.symm)).trans
    (Device.layout_of_final? hgrown.firm.nodup hfinal)

theorem Grown.queued (h : v.Grown bs w) (hlater : Later v w b)
    (hd : w.devices[b.device]? = some d) {op : Operator} {output : Operand} {inputs : List Operand}
    (hsure : Launch.Sure ⟨op, output, inputs⟩)
    (hfind : ∀ operand ∈ inputs ++ [output], ∃ bytes,
      d.memory.find? operand.address = some bytes) (hout : output.address = b.address) :
    v.Grown bs (w.setDevice b.device (d.queued ⟨op, output, inputs⟩)) := by
  obtain ⟨d₀, hd₀, hgrown⟩ := h.exists_base hd
  obtain ⟨d₁, d₂, hd₁, -, hle, -⟩ := hlater
  rw [hd₀] at hd₁
  cases hd₁
  exact h.written hd hd₀ (hgrown.queued hsure hfind (hout ▸ hle)) rfl

theorem Grown.granted {size : Nat} (h : v.Grown bs w) (hd : w.devices[id]? = some d)
    (hroom : d.Room size) :
    v.Grown (⟨id, d.next, size⟩ :: bs) (w.granted id d size) := by
  obtain ⟨d₀, hd₀, hgrown, hused⟩ := h.devices id d hd
  have hlayout := Device.layout_granted d size
  refine h.set hd hd₀ (hgrown.granted hroom) rfl rfl (h.held.cons _) ?_ (fun b hb hdevice => ?_) ?_
  · intro b hb
    refine List.mem_cons.trans (or_iff_right fun heq => hb ?_)
    rw [heq]
  · rw [hlayout]
    rcases List.mem_cons.mp hb with rfl | hb
    · exact Or.inr ⟨hgrown.next, List.mem_cons_self⟩
    · exact (h.own_on hd hd₀ hb hdevice).imp_right fun ⟨hle, hmem⟩ =>
        ⟨hle, List.mem_cons_of_mem _ hmem⟩
  · rw [hlayout, List.forall_mem_cons]
    exact ⟨fun _ => List.mem_cons_self, fun e he hle => List.mem_cons_of_mem _ (hused e he hle)⟩

theorem Grown.freed (h : v.Grown (b :: bs) w) (hb : b ∉ bs ++ v.held)
    (hd : w.devices[b.device]? = some d) (hfinal : d.final? = some m) :
    v.Grown bs ({ w with held := w.held.erase b }.setDevice b.device
      (d.freed m b.address b.size)) := by
  obtain ⟨hbs, hv⟩ := not_or.mp (mt List.mem_append.mpr hb)
  obtain ⟨d₀, hd₀, hgrown, hused⟩ := h.devices _ d hd
  obtain ⟨d₁, d₂, hd₁, hd₂, hle, hmem⟩ := (h.own b List.mem_cons_self).resolve_left hv
  rw [hd₀] at hd₁
  rw [hd] at hd₂
  cases hd₁
  cases hd₂
  have hlayout : (d.freed m b.address b.size).memory.layout =
      d.memory.layout.filter fun e => e.1 ≠ b.address := by
    show (m.remove b.address).layout = _
    rw [Memory.layout_remove, Device.layout_of_final? hgrown.firm.nodup hfinal]
  have hheld := h.held.erase b
  rw [List.cons_append, List.erase_cons_head] at hheld
  refine h.set hd hd₀ (hgrown.freed hfinal hmem hle) rfl rfl hheld ?_ (fun c hc hdevice => ?_) ?_
  · intro c hc
    refine (List.mem_cons.trans (or_iff_right fun heq => hc ?_)).symm
    rw [heq]
  · refine (h.own_on hd hd₀ (List.mem_cons_of_mem _ hc) hdevice).imp_right ?_
    rintro ⟨hle', hmem'⟩
    rw [hlayout, List.mem_filter, decide_eq_true_iff]
    refine ⟨hle', hmem', fun heq => hbs ?_⟩
    rw [← h.eq_of_address (List.mem_append_left _ (List.mem_cons_of_mem _ hc))
      (List.mem_append_left _ List.mem_cons_self) hdevice heq]
    exact hc
  · rw [hlayout]
    intro e he hle'
    obtain ⟨hmem', hne⟩ := List.mem_filter.mp he
    refine (List.mem_cons.mp (hused e hmem' hle')).resolve_left fun heq => ?_
    exact of_decide_eq_true hne (congrArg DeviceBuffer.address heq)

/-! ## The earlier world again -/

/-- Whether no call on a device can tell a world from an earlier one, but for the addresses of
what is allocated next and what the devices count besides allocations. -/
structure Restored (v w : World) : Prop where
  held : w.held.Perm v.held
  settings : w.settings = v.settings
  length : w.devices.length = v.devices.length
  devices : ∀ (id : DeviceId) d, w.devices[id]? = some d →
    ∃ d₀ : Device, v.devices[id]? = some d₀ ∧ d₀.Restored d

/-- Once all that came to be held is given back, the earlier world is back. -/
theorem Grown.restored (h : v.Grown [] w) : v.Restored w where
  held := h.held
  settings := h.settings
  length := h.length
  devices id d hd := by
    obtain ⟨d₀, hd₀, hgrown, hused⟩ := h.devices id d hd
    refine ⟨d₀, hd₀, hgrown.restored (h.base.device hd₀) fun e he => ?_⟩
    exact Nat.not_le.mp fun hle => nomatch hused e he hle

theorem Grown.read? (h : v.Grown bs w) (hb : b ∈ v.held) (hread : w.read? b = some old) :
    v.read? b = some old := by
  obtain ⟨d, hd, hdread⟩ := Option.bind_eq_some_iff.mp hread
  obtain ⟨d₀, hd₀, hgrown⟩ := h.exists_base hd
  obtain ⟨d₁, hd₁, hmem⟩ := h.base.held b hb
  rw [hd₀] at hd₁
  cases hd₁
  rw [read?_of_device hd₀]
  exact hgrown.read? ((h.base.device hd₀).lt_next hmem) hdread

end World
end TensorGraph
