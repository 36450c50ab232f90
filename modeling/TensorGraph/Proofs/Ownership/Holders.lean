/-
Who holds what is allocated.

In a world whose books are in order (`Accounted`) a device buffer has a holder just when it is
allocated.  `Holding` says besides who the holders are, in any order.  Each operation is
specified by what it adds to them and what it takes away, when it gives a value and when it
is refused: `Conserves` is the case of an operation that gives what it adds to its caller and
leaves nothing behind on a refusal.
-/
import TensorGraph.Proofs.Device.Allocate
import TensorGraph.Proofs.Device.Balance

namespace TensorGraph

def Argument.holds (a : Argument) : List DeviceBuffer := a.deviceBuffer?.toList

namespace World

variable {w w' : World} {H H' : List DeviceBuffer} {id : DeviceId} {d d' : Device}
variable {a : Argument} {b : DeviceBuffer} {α : Type}

/-- Whether all devices have their books in order, and somebody holds a buffer just when it is
allocated. -/
structure Accounted (w : World) : Prop where
  balanced : ∀ d ∈ w.devices, d.Balanced
  held_iff : ∀ b, b ∈ w.held ↔
    ∃ d, w.devices[b.device]? = some d ∧ (b.address, b.size) ∈ d.memory.layout

structure Holding (w : World) (H : List DeviceBuffer) : Prop where
  accounted : w.Accounted
  perm : w.held.Perm H

/-- Whether the only new holders are those of what an operation gives. -/
def Conserves (gives : α → List DeviceBuffer) (H : List DeviceBuffer) (x : Turn World α) : Prop :=
  x.Meets (fun a w => Holding w (gives a ++ H)) fun w => Holding w H

def Leads (H : List DeviceBuffer) (x : Turn World α) : Prop :=
  x.Meets (fun _ w => Holding w H) fun _ => False

theorem Holding.congr (h : Holding w H) (hdevices : w'.devices = w.devices)
    (hheld : w'.held = w.held) : Holding w' H := by
  obtain ⟨⟨hbalanced, hiff⟩, hperm⟩ := h
  refine ⟨⟨?_, ?_⟩, ?_⟩
  · rwa [hdevices]
  · rwa [hdevices, hheld]
  · rwa [hheld]

theorem Holding.trans (h : Holding w H) (hp : H.Perm H') : Holding w H' :=
  ⟨h.accounted, h.perm.trans hp⟩

theorem Leads.meets {x : Turn World α} {kept : World → Prop} (h : Leads H x) :
    x.Meets (fun _ w => Holding w H) kept :=
  Turn.Meets.mono h (fun _ _ hholding => hholding) fun _ => False.elim

/-! ## Calls of a device -/

/-- A device that keeps its books through a call keeps those of the world, if the holders of its
buffers follow. -/
theorem Accounted.update (h : w.Accounted) (hd : w.devices[id]? = some d) (hbalanced : d'.Balanced)
    (hdevices : w'.devices = w.devices.set id d')
    (hother : ∀ b, b.device ≠ id → (b ∈ w'.held ↔ b ∈ w.held))
    (hown : ∀ b, b.device = id → (b ∈ w'.held ↔ (b.address, b.size) ∈ d'.memory.layout)) :
    w'.Accounted where
  balanced := by
    rw [hdevices]
    intro d'' hmem
    rcases List.mem_or_eq_of_mem_set hmem with hmem | rfl
    · exact h.balanced d'' hmem
    · exact hbalanced
  held_iff b := by
    rw [hdevices]
    by_cases hb : b.device = id
    · rw [hown b hb, hb, List.getElem?_set_self (List.getElem?_eq_some_iff.mp hd).1]
      exact ⟨fun hmem => ⟨d', rfl, hmem⟩, fun ⟨_, heq, hmem⟩ => by cases heq; exact hmem⟩
    · rw [hother b hb, h.held_iff b, List.getElem?_set_ne (Ne.symm hb)]

theorem Accounted.mem_layout (h : w.Accounted) (hd : w.devices[id]? = some d) (hb : b.device = id) :
    b ∈ w.held ↔ (b.address, b.size) ∈ d.memory.layout := by
  rw [h.held_iff b, hb, hd]
  exact ⟨fun ⟨_, heq, hmem⟩ => by cases heq; exact hmem, fun hmem => ⟨d, rfl, hmem⟩⟩

/-- What a device keeps in its log plays no part. -/
theorem balanced_collect (h : d.Balanced) : Device.Balanced { d with notices := [] } :=
  h.unmoved ⟨rfl, rfl, rfl⟩

theorem Holding.setDevice (h : Holding w H) (hd : w.devices[id]? = some d)
    (hmoved : Device.Unmoved d d') : Holding (w.setDevice id d') H := by
  have hbalanced := h.accounted.balanced d (List.mem_of_getElem? hd)
  refine ⟨h.accounted.update hd (balanced_collect (hbalanced.unmoved hmoved)) rfl
    (fun _ _ => Iff.rfl) fun b hb => ?_, h.perm⟩
  show b ∈ w.held ↔ (b.address, b.size) ∈ d'.memory.layout
  rw [hmoved.layout]
  exact h.accounted.mem_layout hd hb

theorem Holding.onDevice (h : Holding w H) (id : DeviceId) {call : Action Device α}
    (hcall : ∀ d : Device, d.Balanced → (call d).Always (Device.Unmoved d)) :
    Conserves (fun _ => []) H (onDevice id call w) := by
  have hkept : (World.onDevice id call w).Always fun w' => Holding w' H := by
    refine always_onDevice fun d hd => ?_
    have hbalanced := h.accounted.balanced d (List.mem_of_getElem? hd)
    exact (hcall d hbalanced).mono fun _ => h.setDevice hd
  exact hkept.meets

theorem Holding.allocate (h : Holding w H) (id : DeviceId) (size : Nat) :
    Conserves (fun b => [b]) H (allocate id size w) := by
  rcases allocate_cases id size w with ⟨d, hd, -, hrun⟩ | ⟨d, _, hd, hrun⟩ | hrun
  · rw [hrun]
    have hbalanced := h.accounted.balanced d (List.mem_of_getElem? hd)
    refine ⟨h.accounted.update hd (balanced_collect (hbalanced.granted size)) rfl ?_ ?_,
      h.perm.cons _⟩
    · intro b hb
      refine List.mem_cons.trans (or_iff_right fun heq => hb ?_)
      rw [heq]
    · intro b hb
      show b ∈ ⟨id, d.next, size⟩ :: w.held ↔ (b.address, b.size) ∈ (d.granted size).memory.layout
      rw [Device.layout_granted, List.mem_cons, List.mem_cons, h.accounted.mem_layout hd hb]
      refine or_congr_left ?_
      obtain ⟨device, address, n⟩ := b
      obtain rfl : device = id := hb
      simp
  · rw [hrun]
    exact h.setDevice hd (Device.unmoved_refl d)
  · rw [hrun]
    exact trivial

/-! ## Holders -/

theorem Holding.retainBuffer (h : Holding w H) (hb : b ∈ H) :
    Leads (b :: H) (retainBuffer b w) := by
  refine ⟨⟨h.accounted.balanced, fun b' => ?_⟩, h.perm.cons b⟩
  rw [← h.accounted.held_iff b']
  refine List.mem_cons.trans (or_iff_right_of_imp fun heq => ?_)
  rw [heq]
  exact h.perm.mem_iff.mpr hb

/-- A buffer is freed that was held, and by nobody any more. -/
theorem Accounted.free (h : w.Accounted) (hb : b ∈ w.held) {held' : List DeviceBuffer}
    (hiff : ∀ b', b' ∈ held' ↔ b' ∈ w.held ∧ b' ≠ b) :
    Action.attempt (World.onDevice b.device (Device.free b.address)) { w with held := held' } =
        .halted ∨
      ∃ w', Action.attempt (World.onDevice b.device (Device.free b.address))
        { w with held := held' } = .value (.ok ()) w' ∧ w'.Accounted ∧ w'.held = held' := by
  obtain ⟨d, hd, hmem⟩ := (h.held_iff b).mp hb
  unfold Action.attempt World.onDevice
  dsimp only
  rw [hd]
  dsimp only
  have hbalanced := h.balanced d (List.mem_of_getElem? hd)
  rcases hbalanced.free_cases hmem with hrun | ⟨d', hrun, hbalanced', hlayout⟩
  · rw [hrun]
    exact Or.inl rfl
  · rw [hrun]
    refine Or.inr ⟨_, rfl, ?_, rfl⟩
    refine h.update hd (balanced_collect hbalanced') rfl (fun b' hb' => ?_) fun b' hb' => ?_
    · refine (hiff b').trans (and_iff_left fun heq => hb' ?_)
      rw [heq]
    · show b' ∈ held' ↔ (b'.address, b'.size) ∈ d'.memory.layout
      rw [hiff b', hlayout, List.mem_filter, h.mem_layout hd hb', decide_eq_true_iff]
      refine and_congr_right fun hmem' => not_congr ⟨fun heq => by rw [heq], fun heq => ?_⟩
      -- an address is allocated with one size only
      obtain ⟨bytes, hfind, hsize⟩ := (Memory.mem_layout_iff hbalanced.nodup).mp hmem
      obtain ⟨bytes', hfind', hsize'⟩ := (Memory.mem_layout_iff hbalanced.nodup).mp hmem'
      obtain ⟨device, address, n⟩ := b
      obtain ⟨device', address', n'⟩ := b'
      cases hb'
      cases heq
      rw [hfind] at hfind'
      cases hfind'
      cases hsize
      cases hsize'
      rfl

/-- Taking away the last holder frees the buffer, and nothing else changes hands. -/
theorem Holding.releaseBuffer (h : Holding w (b :: H)) : Leads H (releaseBuffer b w) := by
  have hheld : b ∈ w.held := h.perm.mem_iff.mpr List.mem_cons_self
  have hperm : (w.held.erase b).Perm H := by
    have herase := h.perm.erase b
    rwa [List.erase_cons_head] at herase
  unfold World.releaseBuffer
  rw [Action.bind_of_value (Action.modify_apply _), Action.bind_of_value Action.get_apply]
  by_cases hmem : b ∈ w.held.erase b
  · rw [if_neg (not_not.mpr hmem)]
    refine ⟨⟨h.accounted.balanced, fun b' => ?_⟩, hperm⟩
    rw [← h.accounted.held_iff b']
    by_cases heq : b' = b
    · rw [heq]
      exact iff_of_true hmem hheld
    · exact List.mem_erase_of_ne heq
  · rw [if_pos hmem]
    -- the allocation was counted among the held ones up to here
    have hfree : ∀ b', b' ∈ w.held.erase b ↔ b' ∈ w.held ∧ b' ≠ b := by
      intro b'
      by_cases heq : b' = b
      · rw [heq]
        exact iff_of_false hmem fun hboth => hboth.2 rfl
      · exact (List.mem_erase_of_ne heq).trans (and_iff_left heq).symm
    rcases h.accounted.free hheld hfree with hrun | ⟨w', hrun, haccounted, hheld'⟩
    · rw [Action.bind_of_halted hrun]
      exact trivial
    · rw [Action.bind_of_value hrun]
      exact ⟨haccounted, hheld' ▸ hperm⟩

theorem Holding.forEach_releaseBuffer {bs : List DeviceBuffer} (h : Holding w (bs ++ H)) :
    Leads H (Action.forEach World.releaseBuffer bs w) := by
  induction bs generalizing w with
  | nil => exact h
  | cons b bs ih => exact Action.meets_bind h.releaseBuffer fun _ w' h' => ih h'

theorem Holding.forEach_retainBuffer {bs : List DeviceBuffer} (h : Holding w H) (hbs : bs ⊆ H) :
    Leads (bs ++ H) (Action.forEach World.retainBuffer bs w) := by
  induction bs generalizing w H with
  | nil => exact h
  | cons b bs ih =>
    obtain ⟨hb, hbs⟩ := List.cons_subset.mp hbs
    refine Action.meets_bind (h.retainBuffer hb) fun _ w' h' => ?_
    have hrest := ih h' fun b' hb' => List.mem_cons_of_mem b (hbs hb')
    exact hrest.mono (fun _ w'' h'' => h''.trans List.perm_middle) fun _ h'' => h''

theorem Holding.retain (h : Holding w H) (ha : a.holds ⊆ H) :
    Leads (a.holds ++ H) (retain a w) := by
  unfold Argument.holds at ha ⊢
  unfold World.retain
  cases hb : a.deviceBuffer? with
  | none => exact h
  | some b =>
    rw [hb] at ha
    exact h.retainBuffer (ha List.mem_cons_self)

theorem Holding.release (h : Holding w (a.holds ++ H)) : Leads H (release a w) := by
  unfold Argument.holds at h
  unfold World.release
  cases hb : a.deviceBuffer? with
  | none =>
    rw [hb] at h
    exact h
  | some b =>
    rw [hb] at h
    exact h.releaseBuffer

/-! ## Transfers -/

theorem Holding.upload (h : Holding w H) (id : DeviceId) (bytes : Bytes) :
    Conserves (fun b => [b]) H (upload id bytes w) := by
  unfold World.upload
  refine Action.meets_bind (h.allocate id bytes.size) fun b w₁ h₁ => ?_
  refine Action.meets_bind (P := fun _ w' => Holding w' (b :: H)) ?_ fun _ w₂ h₂ => h₂
  exact Action.meets_onRefusal (h₁.onDevice id fun d hd => hd.copyin bytes b.address)
    fun w' h' => h'.releaseBuffer.meets

theorem Holding.download (h : Holding w H) (b : DeviceBuffer) :
    Conserves (fun _ => []) H (download b w) := by
  unfold World.download
  refine Action.meets_bind (h.onDevice b.device fun d hd => hd.synchronize) fun _ w₁ h₁ => ?_
  refine Action.meets_bind (P := fun _ w' => Holding w' H) (h₁.congr rfl rfl) fun key w₂ h₂ => ?_
  refine Action.meets_bind (P := fun _ w' => Holding w' H)
    (Action.meets_ofOutcome (fun _ _ => h₂) h₂) fun host w₃ h₃ => ?_
  exact Action.meets_bind (h₃.onDevice b.device fun d hd => hd.copyout b.address b.size)
    fun _ w₄ h₄ => h₄

theorem holds_of_make_host {s : Shape} {host : HostBuffer}
    (h : Argument.make s (.host host) = .value a) : a.holds = [] := by
  rw [Argument.shape_of_make h]
  rfl

theorem holds_of_make_device {s : Shape} (h : Argument.make s (.device b) = .value a) :
    a.holds = [b] := by
  rw [Argument.shape_of_make h]
  rfl

theorem Holding.toHost (h : Holding w H) (a : Argument) :
    Conserves Argument.holds H (toHost a w) := by
  unfold World.toHost
  refine Action.meets_bind (P := fun _ w' => Holding w' H)
    (Action.meets_ofOutcome (fun _ _ => h) h) fun storage w₁ h₁ => ?_
  have hmake : ∀ host w', Holding w' H → Conserves Argument.holds H
      ((do return ← Argument.make a.shape (.host host) : Action World Argument) w') := by
    intro host w' h'
    refine Action.meets_ofOutcome (fun a' ha' => ?_) h'
    rw [holds_of_make_host ha']
    exact h'
  cases storage with
  | device b => exact Action.meets_bind (h₁.download b) fun host w₂ h₂ => hmake host w₂ h₂
  | host _ =>
    refine Action.meets_bind (P := fun _ w' => Holding w' H)
      (Action.meets_ofOutcome (fun _ _ => h₁) h₁) fun bytes w₂ h₂ => ?_
    refine Action.meets_bind (P := fun _ w' => Holding w' H) (h₂.congr rfl rfl)
      fun key w₃ h₃ => ?_
    exact hmake _ w₃ h₃

/-- A tensor takes over the holder of its buffer. -/
theorem Holding.place (h : Holding w (b :: H)) (s : Shape) :
    Conserves Argument.holds H (place s b w) := by
  unfold World.place
  refine Action.meets_onRefusal (K := fun w' => Holding w' (b :: H))
    (Action.meets_ofOutcome (fun a ha => ?_) h) fun w' h' => h'.releaseBuffer.meets
  rw [holds_of_make_device ha]
  exact h

theorem Holding.uploadAs (h : Holding w H) (id : DeviceId) (bytes : Bytes) (s : Shape) :
    Conserves Argument.holds H (uploadAs id bytes s w) :=
  Action.meets_bind (h.upload id bytes) fun _ _ h₁ => h₁.place s

theorem Holding.sendHost (h : Holding w H) (id : DeviceId) (a : Argument) :
    Conserves Argument.holds H (sendHost id a w) :=
  Action.meets_bind (P := fun _ w' => Holding w' H) (Action.meets_ofOutcome (fun _ _ => h) h)
    fun bytes _ h₁ => h₁.uploadAs id bytes a.shape

/-- A tensor that comes back from a device has no buffer there. -/
theorem holds_of_toHost {w' : World} {a' : Argument} (h : toHost a w = .value a' w') :
    a'.holds = [] := by
  unfold World.toHost at h
  obtain ⟨storage, w₁, -, h⟩ := Action.bind_eq_value.mp h
  cases storage with
  | device b =>
    obtain ⟨host, w₂, -, h⟩ := Action.bind_eq_value.mp h
    exact holds_of_make_host (Action.ofOutcome_eq_value.mp h).1
  | host _ =>
    obtain ⟨bytes, w₂, -, h⟩ := Action.bind_eq_value.mp h
    obtain ⟨key, w₃, -, h⟩ := Action.bind_eq_value.mp h
    exact holds_of_make_host (Action.ofOutcome_eq_value.mp h).1

theorem Holding.toDevice (h : Holding w H) (id : DeviceId) (a : Argument) :
    Conserves Argument.holds H (toDevice id a w) := by
  unfold World.toDevice
  split
  · rw [Action.bind_apply]
    have hhost := h.toHost a
    cases hrun : World.toHost a w with
    | value a' w₁ =>
      rw [hrun] at hhost
      unfold Conserves Turn.Meets at hhost
      dsimp only at hhost
      rw [holds_of_toHost hrun] at hhost
      exact hhost.sendHost id a'
    | refused e w₁ =>
      rw [hrun] at hhost
      exact hhost
    | halted => exact trivial
  · exact h.sendHost id a

end World
end TensorGraph
