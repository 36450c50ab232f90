/-
Copies that are refused.

A copy to a device allocates before it writes, so whoever refuses it behind that has to give the
allocation back.  `Unmoved` says that the same is allocated as before.  Every step of a copy keeps
it but for the allocation itself, and the release that follows a refusal undoes that one, since
the buffer is new and has no other holder: `live_of_refused`.  Nothing is asked of launches: those
that are queued may fail, and then their failure is what refuses the copy.
-/
import TensorGraph.Proofs.Isolation.World

namespace TensorGraph

namespace Device

variable {d : Device}

/-- A free takes an allocation away if there is one, and moves nothing else. -/
theorem layout_free (hnd : (d.memory.map Prod.fst).Nodup) (address : Nat) :
    (free address d).Always fun d' => d'.next = d.next ∧
      d'.memory.layout = d.memory.layout.filter fun e => e.1 ≠ address := by
  have hflush := unmoved_flush hnd
  unfold Device.free
  cases hrun : Device.flush d with
  | halted =>
    rw [Action.bind_of_halted hrun]
    exact trivial
  | refused e d₁ =>
    unfold Device.flush at hrun
    split at hrun <;> cases hrun
  | value _ d₁ =>
    rw [hrun] at hflush
    rw [Action.bind_of_value hrun, Action.bind_of_value Action.get_apply, ← hflush.layout,
      ← hflush.next]
    cases hfind : d₁.memory.find? address with
    | none =>
      have hkept : ∀ e ∈ d₁.memory.layout, e.1 ≠ address := by
        rintro ⟨a, size⟩ he rfl
        obtain ⟨bytes, hbytes, -⟩ := (Memory.mem_layout_iff (hflush.nodup hnd)).mp he
        rw [hfind] at hbytes
        cases hbytes
      exact ⟨rfl, (List.filter_eq_self.mpr fun e he => decide_eq_true (hkept e he)).symm⟩
    | some bytes => exact ⟨rfl, Memory.layout_remove d₁.memory address⟩

end Device

namespace World

variable {w w' w'' : World} {id : DeviceId} {b : DeviceBuffer} {d d' : Device} {α : Type}

/-! ## What is allocated -/

def live (w : World) (id : DeviceId) : Option (List (Nat × Nat)) :=
  w.devices[id]?.map fun d => d.memory.layout

/-- Whether addresses are handed out once, and nobody holds a buffer that is still to come. -/
structure Orderly (w : World) : Prop where
  nodup : ∀ d ∈ w.devices, (d.memory.map Prod.fst).Nodup
  used : ∀ d ∈ w.devices, ∀ e ∈ d.memory.layout, e.1 < d.next
  held : ∀ b ∈ w.held, ∀ d, w.devices[b.device]? = some d → b.address < d.next

structure Unmoved (w w' : World) : Prop where
  held : w'.held = w.held
  length : w'.devices.length = w.devices.length
  devices : ∀ (id : DeviceId) d', w'.devices[id]? = some d' →
    ∃ d : Device, w.devices[id]? = some d ∧ d'.memory.layout = d.memory.layout ∧ d.next ≤ d'.next

theorem unmoved_congr (hdevices : w'.devices = w.devices) (hheld : w'.held = w.held) :
    w.Unmoved w' where
  held := hheld
  length := congrArg List.length hdevices
  devices _ d hd := ⟨d, hdevices ▸ hd, rfl, le_rfl⟩

theorem Unmoved.trans (h : w.Unmoved w') (h' : w'.Unmoved w'') : w.Unmoved w'' where
  held := h'.held.trans h.held
  length := h'.length.trans h.length
  devices id d'' hd'' := by
    obtain ⟨d', hd', hlayout', hnext'⟩ := h'.devices id d'' hd''
    obtain ⟨d, hd, hlayout, hnext⟩ := h.devices id d' hd'
    exact ⟨d, hd, hlayout'.trans hlayout, hnext.trans hnext'⟩

theorem Unmoved.live (h : w.Unmoved w') (id : DeviceId) : w'.live id = w.live id := by
  unfold World.live
  rcases Option.eq_none_or_eq_some w'.devices[id]? with hnone | ⟨d', hd'⟩
  · rw [hnone, List.getElem?_eq_none_iff.mpr (h.length ▸ List.getElem?_eq_none_iff.mp hnone)]
  · obtain ⟨d, hd, hlayout, -⟩ := h.devices id d' hd'
    rw [hd, hd', Option.map_some, Option.map_some, hlayout]

theorem Unmoved.orderly (h : w.Unmoved w') (hw : w.Orderly) : w'.Orderly where
  nodup d' hmem := by
    obtain ⟨id, hd'⟩ := List.mem_iff_getElem?.mp hmem
    obtain ⟨d, hd, hlayout, -⟩ := h.devices id d' hd'
    rw [← Memory.map_fst_layout, hlayout, Memory.map_fst_layout]
    exact hw.nodup d (List.mem_of_getElem? hd)
  used d' hmem e he := by
    obtain ⟨id, hd'⟩ := List.mem_iff_getElem?.mp hmem
    obtain ⟨d, hd, hlayout, hnext⟩ := h.devices id d' hd'
    exact (hw.used d (List.mem_of_getElem? hd) e (hlayout ▸ he)).trans_le hnext
  held b hb d' hd' := by
    obtain ⟨d, hd, -, hnext⟩ := h.devices _ d' hd'
    exact (hw.held b (h.held ▸ hb) d hd).trans_le hnext

theorem getElem?_setDevice_of_ne {i : DeviceId} (hi : i ≠ id) (w : World) (d : Device) :
    (w.setDevice id d).devices[i]? = w.devices[i]? := List.getElem?_set_ne (Ne.symm hi)

theorem unmoved_setDevice (hd : w.devices[id]? = some d)
    (hlayout : d'.memory.layout = d.memory.layout) (hnext : d.next ≤ d'.next) :
    w.Unmoved (w.setDevice id d') where
  held := rfl
  length := List.length_set ..
  devices i e he := by
    by_cases hi : i = id
    · subst hi
      rw [getElem?_setDevice hd] at he
      cases he
      exact ⟨d, hd, hlayout, hnext⟩
    · rw [getElem?_setDevice_of_ne hi] at he
      exact ⟨e, he, rfl, le_rfl⟩

theorem Orderly.onDevice (h : w.Orderly) (id : DeviceId) {call : Action Device α}
    (hcall : ∀ d : Device, (d.memory.map Prod.fst).Nodup → (call d).Always (Device.Unmoved d)) :
    (onDevice id call w).Always w.Unmoved :=
  always_onDevice fun d hd => (hcall d (h.nodup d (List.mem_of_getElem? hd))).mono
    fun _ hmoved => unmoved_setDevice hd hmoved.layout hmoved.next.ge

/-! ## Allocations that are given back -/

/-- Whether a world is an earlier one with a new buffer and its only holder. -/
structure Gained (w : World) (b : DeviceBuffer) (w' : World) : Prop where
  held : w'.held = b :: w.held
  fresh : b ∉ w.held
  length : w'.devices.length = w.devices.length
  orderly : w'.Orderly
  devices : ∀ (id : DeviceId) d', w'.devices[id]? = some d' →
    ∃ d : Device, w.devices[id]? = some d ∧ d.next ≤ d'.next ∧ d'.memory.layout =
      if id = b.device then (b.address, b.size) :: d.memory.layout else d.memory.layout

theorem Gained.unmoved (h : w.Gained b w') (h' : w'.Unmoved w'') : w.Gained b w'' where
  held := h'.held.trans h.held
  fresh := h.fresh
  length := h'.length.trans h.length
  orderly := h'.orderly h.orderly
  devices id d'' hd'' := by
    obtain ⟨d', hd', hlayout', hnext'⟩ := h'.devices id d'' hd''
    obtain ⟨d, hd, hnext, hlayout⟩ := h.devices id d' hd'
    exact ⟨d, hd, hnext.trans hnext', hlayout'.trans hlayout⟩

theorem Orderly.gained (h : w.Orderly) (hd : w.devices[id]? = some d) (size : Nat) :
    w.Gained ⟨id, d.next, size⟩ { w.setDevice id (d.granted size) with
      held := ⟨id, d.next, size⟩ :: w.held } := by
  have hgranted : ∀ (i : DeviceId) d', (w.setDevice id (d.granted size)).devices[i]? = some d' →
      ∃ d₀ : Device, w.devices[i]? = some d₀ ∧ d₀.next ≤ d'.next ∧ d'.memory.layout =
        if i = id then (d.next, size) :: d₀.memory.layout else d₀.memory.layout := by
    intro i d' hd'
    by_cases hi : i = id
    · subst hi
      rw [getElem?_setDevice hd] at hd'
      cases hd'
      exact ⟨d, hd, Nat.le_add_right _ _, by rw [if_pos rfl]; exact Device.layout_granted d size⟩
    · rw [getElem?_setDevice_of_ne hi] at hd'
      exact ⟨d', hd', le_rfl, by rw [if_neg hi]⟩
  have hfresh : (⟨id, d.next, size⟩ : DeviceBuffer) ∉ w.held := fun hmem =>
    Nat.lt_irrefl _ (h.held _ hmem d hd)
  have hnext : d.next < (d.granted size).next := Nat.lt_add_of_pos_right (Device.footprint_pos size)
  have hused := h.used d (List.mem_of_getElem? hd)
  refine ⟨rfl, hfresh, List.length_set .., ⟨fun d' hmem => ?_, fun d' hmem => ?_, ?_⟩, hgranted⟩
  · rcases List.mem_or_eq_of_mem_set hmem with hmem | rfl
    · exact h.nodup d' hmem
    · show ((d.granted size).memory.map Prod.fst).Nodup
      rw [← Memory.map_fst_layout, Device.layout_granted, List.map_cons, List.nodup_cons,
        Memory.map_fst_layout]
      refine ⟨fun hmem => ?_, h.nodup d (List.mem_of_getElem? hd)⟩
      rw [← Memory.map_fst_layout] at hmem
      obtain ⟨e, he, heq⟩ := List.mem_map.mp hmem
      exact Nat.ne_of_lt (hused e he) heq
  · rcases List.mem_or_eq_of_mem_set hmem with hmem | rfl
    · exact h.used d' hmem
    · show ∀ e ∈ (d.granted size).memory.layout, e.1 < (d.granted size).next
      rw [Device.layout_granted, List.forall_mem_cons]
      exact ⟨hnext, fun e he => (hused e he).trans hnext⟩
  · rw [List.forall_mem_cons]
    refine ⟨fun d' hd' => ?_, fun b hb d' hd' => ?_⟩
    · rw [getElem?_setDevice hd] at hd'
      cases hd'
      exact hnext
    · obtain ⟨d₀, hd₀, hle, -⟩ := hgranted _ d' hd'
      exact (h.held b hb d₀ hd₀).trans_le hle

theorem Orderly.allocate (h : w.Orderly) (id : DeviceId) (size : Nat) :
    (allocate id size w).Meets w.Gained w.Unmoved := by
  rcases allocate_cases id size w with ⟨d, hd, -, hrun⟩ | ⟨d, _, hd, hrun⟩ | hrun
  · rw [hrun]
    exact h.gained hd size
  · rw [hrun]
    exact unmoved_setDevice hd rfl le_rfl
  · rw [hrun]
    exact trivial

theorem Gained.releaseBuffer (h : w.Gained b w') : (releaseBuffer b w').Always w.Unmoved := by
  have hheld : w'.held.erase b = w.held := by rw [h.held, List.erase_cons_head]
  unfold World.releaseBuffer
  rw [Action.bind_of_value (Action.modify_apply _), Action.bind_of_value Action.get_apply, hheld,
    if_pos h.fresh]
  refine Action.always_bind (Action.always_attempt (always_onDevice fun d' hd' => ?_)) ?_
  · obtain ⟨d, hd, hnext, hlayout⟩ := h.devices _ d' hd'
    have hnd := h.orderly.nodup d' (List.mem_of_getElem? hd')
    rw [if_pos rfl] at hlayout
    refine (Device.layout_free hnd b.address).mono ?_
    rintro d'' ⟨hnext', hlayout'⟩
    have hback : d''.memory.layout = d.memory.layout := by
      rw [← Memory.map_fst_layout, hlayout, List.map_cons, List.nodup_cons] at hnd
      rw [hlayout', hlayout, List.filter_cons_of_neg (by simp)]
      exact List.filter_eq_self.mpr fun e he => decide_eq_true fun heq =>
        hnd.1 (List.mem_map.mpr ⟨e, he, heq⟩)
    refine ⟨rfl, (List.length_set ..).trans h.length, fun i e he => ?_⟩
    by_cases hi : i = b.device
    · subst hi
      rw [getElem?_setDevice hd'] at he
      cases he
      exact ⟨d, hd, hback, hnext.trans hnext'.ge⟩
    · rw [getElem?_setDevice_of_ne hi] at he
      obtain ⟨d₀, hd₀, hle, heq⟩ := h.devices i e he
      rw [if_neg hi] at heq
      exact ⟨d₀, hd₀, heq, hle⟩
  · rintro (e | _) w₁ h₁
    · exact h₁.trans (unmoved_congr rfl rfl)
    · exact h₁

/-! ## Copies -/

theorem Orderly.download (h : w.Orderly) (b : DeviceBuffer) :
    (download b w).Always w.Unmoved := by
  unfold World.download
  refine Action.always_bind (h.onDevice b.device fun _ => Device.unmoved_synchronize)
    fun _ w₁ h₁ => ?_
  refine Action.always_bind (h₁.trans (unmoved_congr rfl rfl)) fun key w₂ h₂ => ?_
  refine Action.always_bind (Action.always_ofOutcome _ h₂) fun host w₃ h₃ => ?_
  refine Action.always_bind ?_ fun bytes w₄ h₄ => h₄
  exact ((h₃.orderly h).onDevice b.device fun _ hnd =>
    Device.unmoved_copyout hnd _ _).mono fun _ => h₃.trans

theorem Orderly.toHost (h : w.Orderly) (a : Argument) : (toHost a w).Always w.Unmoved := by
  have hrefl : w.Unmoved w := unmoved_congr rfl rfl
  unfold World.toHost
  refine Action.always_bind (Action.always_ofOutcome _ hrefl) fun storage w₁ h₁ => ?_
  cases storage with
  | device b =>
    refine Action.always_bind (((h₁.orderly h).download b).mono fun _ => h₁.trans)
      fun host w₂ h₂ => ?_
    exact Action.always_ofOutcome _ h₂
  | host _ =>
    refine Action.always_bind (Action.always_ofOutcome _ h₁) fun bytes w₂ h₂ => ?_
    refine Action.always_bind (h₂.trans (unmoved_congr rfl rfl)) fun key w₃ h₃ => ?_
    exact Action.always_ofOutcome _ h₃

theorem Orderly.upload (h : w.Orderly) (id : DeviceId) (bytes : Bytes) :
    (upload id bytes w).Meets w.Gained w.Unmoved := by
  unfold World.upload
  refine Action.meets_bind (h.allocate id bytes.size) fun b w₁ h₁ => ?_
  refine Action.meets_bind (P := fun _ => w.Gained b) ?_ fun _ w₂ h₂ => h₂
  have hcopy := h₁.orderly.onDevice id fun _ hnd => Device.unmoved_copyin hnd bytes b.address
  exact Action.meets_onRefusal (hcopy.mono fun _ => h₁.unmoved).meets
    fun w₂ h₂ => h₂.releaseBuffer.meets

theorem Orderly.sendHost (h : w.Orderly) (id : DeviceId) (a : Argument) :
    (sendHost id a w).Meets (fun _ _ => True) w.Unmoved := by
  have hrefl : w.Unmoved w := unmoved_congr rfl rfl
  unfold World.sendHost World.uploadAs
  refine Action.meets_bind (P := fun _ w' => w' = w)
    (Action.meets_ofOutcome (fun _ _ => rfl) hrefl) ?_
  rintro bytes _ rfl
  refine Action.meets_bind (h.upload id bytes) fun b w₁ h₁ => ?_
  exact Action.meets_onRefusal (Action.meets_ofOutcome (fun _ _ => trivial) h₁)
    fun w₂ h₂ => h₂.releaseBuffer.meets

theorem Orderly.toDevice (h : w.Orderly) (id : DeviceId) (a : Argument) :
    (toDevice id a w).Meets (fun _ _ => True) w.Unmoved := by
  unfold World.toDevice
  split
  · refine Action.meets_bind (h.toHost a).meets fun a' w₁ h₁ => ?_
    exact ((h₁.orderly h).sendHost id a').mono (fun _ _ _ => trivial) fun _ => h₁.trans
  · exact h.sendHost id a

/-- A refusal that moves nothing leaves the same allocations live. -/
theorem live_of_refused {P : α → World → Prop} {x : Turn World α} {e : Error}
    (h : x.Meets P w.Unmoved) (hx : x = .refused e w') (id : DeviceId) :
    w'.live id = w.live id := by
  rw [hx] at h
  exact Unmoved.live h id

end World
end TensorGraph
