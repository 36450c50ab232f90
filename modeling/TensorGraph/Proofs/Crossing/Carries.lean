/-
What a copy carries, and what it keeps.

A copy to a device sends the bytes that the strides span, a copy to the host fetches the whole
allocation, and between two devices a copy goes through the host.  What all of these agree on is
`Carries`: behind the argument lie bytes that begin with given ones, those that its shape spans.
On a device they are the bytes that will be there once its queue has run, so launches that are
still pending do their part before a copy does.

`Persists` is what a copy does to everything else: nothing that was known before changes.
-/
import TensorGraph.Proofs.Crossing.Refused
import TensorGraph.Proofs.Storage.RoundTrip

namespace TensorGraph

/-! ## Devices -/

namespace Device

variable {d d' d'' : Device} {m : Memory} {address n : Nat} {bytes : Bytes}

/-- Whether nothing fails on a device and its queue runs to an end. -/
structure Sound (d : Device) : Prop extends d.Firm where
  runs : ∃ m, d.final? = some m

theorem Healthy.sound (h : d.Healthy) : d.Sound := by
  obtain ⟨m, hrun⟩ := h.settles
  refine ⟨⟨h.reached.booked, ⟨h.failure, fun m' stop hstop => ?_⟩, h.reached.ordered⟩,
    m, final?_eq_some.mpr hrun⟩
  rw [hrun] at hstop
  cases hstop
  rfl

theorem Sound.quiet (h : d.Sound) (hq : d.Quiet d') : d'.Sound := by
  obtain ⟨m, hm⟩ := h.runs
  exact ⟨hq.firm, m, hq.final?.trans hm⟩

/-- Whether what a device held is still there, and what it hands out next is later. -/
structure Persists (d d' : Device) : Prop where
  next : d.next ≤ d'.next
  read? : ∀ address < d.next, ∀ bytes, d.read? address = some bytes → d'.read? address = some bytes

theorem persists_refl (d : Device) : d.Persists d := ⟨le_rfl, fun _ _ _ => id⟩

theorem Persists.trans (h : d.Persists d') (h' : d'.Persists d'') : d.Persists d'' where
  next := h.next.trans h'.next
  read? address hlt bytes hread :=
    h'.read? address (hlt.trans_le h.next) bytes (h.read? address hlt bytes hread)

theorem Quiet.persists (h : d.Quiet d') : d.Persists d' where
  next := h.next.ge
  read? address _ _ hread := (h.read? address).trans hread

def Grants (d : Device) (n : Nat) : Prop := d.Room n ∧ ¬d.Exceeds n

theorem Quiet.grants (h : d.Quiet d') (hd : d.Firm) (hg : d.Grants n) : d'.Grants n := by
  unfold Grants Room Exceeds at hg ⊢
  rw [h.next, h.capacity, h.liveBytes hd]
  exact hg

theorem alloc_of_grants (h : d.Grants n) : alloc n d = .value d.next (d.granted n) := by
  rcases alloc_cases d n with ⟨hvalue, -⟩ | ⟨_, -, hexceeds, -⟩ | ⟨-, hroom, -⟩
  · exact hvalue
  · exact absurd hexceeds h.2
  · exact absurd h.1 hroom

/-- The device with a new allocation that holds given bytes, behind the queue that leaves `m`. -/
def loaded (d : Device) (m : Memory) (bytes : Bytes) : Device :=
  (d.granted bytes.size).ran
    (Memory.replace ((d.next, Bytes.zeros bytes.size) :: m) d.next bytes)

theorem find?_granted (d : Device) (n : Nat) :
    Memory.find? (d.granted n).memory d.next = some (Bytes.zeros n) :=
  (Memory.find?_cons ..).trans (if_pos rfl)

theorem Sound.copyin_granted (h : d.Sound) (hfinal : d.final? = some m)
    (hg : d.Grants bytes.size) :
    copyin bytes d.next { d.granted bytes.size with notices := [] } =
      .value () { d.loaded m bytes with notices := [] } := by
  have hquiet := quiet_collect (h.toFirm.granted hg.1)
  have hfinal' : Device.final? { d.granted bytes.size with notices := [] } =
      some ((d.next, Bytes.zeros bytes.size) :: m) :=
    hquiet.final?.trans ((final?_granted h.ordered).mpr ⟨m, hfinal, rfl⟩)
  rw [hquiet.firm.clear.copyin_of_some hfinal' (find?_granted d _) (Bytes.size_zeros _).symm]
  rfl

theorem read?_loaded (d : Device) (m : Memory) (bytes : Bytes) (address : Nat) :
    (d.loaded m bytes).read? address =
      if address = d.next then some bytes else m.find? address := by
  unfold Device.loaded
  rw [read?_of_final? (final?_ran _ _), Memory.find?_replace, Memory.find?_cons]
  split <;> rfl

theorem Sound.loaded (h : d.Sound) (hfinal : d.final? = some m) (hg : d.Grants bytes.size) :
    (d.loaded m bytes).Sound :=
  ⟨(h.toFirm.granted hg.1).replaced ((final?_granted h.ordered).mpr ⟨m, hfinal, rfl⟩)
    (find?_granted d _) (Bytes.size_zeros _).symm, _, final?_ran _ _⟩

theorem persists_loaded (hfinal : d.final? = some m) : d.Persists (d.loaded m bytes) where
  next := Nat.le_add_right _ _
  read? address hlt old hread := by
    rw [read?_loaded, if_neg (Nat.ne_of_lt hlt), ← read?_of_final? hfinal]
    exact hread

theorem Sound.exists_freed (h : d.Sound) (hread : d.read? address = some bytes) :
    ∃ d', free address d = .value () d' ∧ d'.Sound ∧ d'.next = d.next ∧
      ∀ other ≠ address, d'.read? other = d.read? other := by
  obtain ⟨m, hfinal, hfind⟩ := read?_eq_some.mp hread
  obtain ⟨old, hold, -⟩ := Memory.SameSizes.find?
    (fun a => (sameSizes_of_final? hfinal a).symm) hfind
  have hfinal' := final?_freed d m address old.size
  refine ⟨_, free_of_some hfinal hold,
    ⟨h.toFirm.freed hfinal (h.toFirm.mem_layout hold), _, hfinal'⟩, rfl, fun other hne => ?_⟩
  rw [read?_of_final? hfinal', read?_of_final? hfinal, Memory.find?_remove, if_neg hne]

end Device

/-! ## Worlds -/

namespace World

variable {w w' w'' : World} {ids : List DeviceId} {id : DeviceId} {d d' : Device} {n : Nat}
variable {a c r : Argument} {b : DeviceBuffer} {bytes data : Bytes} {s : Shape}

def SoundOn (ids : List DeviceId) (w : World) : Prop :=
  ∀ id ∈ ids, ∃ d, w.devices[id]? = some d ∧ d.Sound

def Grants (w : World) (id : DeviceId) (n : Nat) : Prop :=
  ∃ d, w.devices[id]? = some d ∧ d.Grants n

structure Persists (w w' : World) : Prop where
  nextKey : w.nextKey ≤ w'.nextKey
  devices : ∀ (id : DeviceId) d, w.devices[id]? = some d →
    ∃ d' : Device, w'.devices[id]? = some d' ∧ d.Persists d'

theorem persists_refl (w : World) : w.Persists w where
  nextKey := le_rfl
  devices _ d hd := ⟨d, hd, Device.persists_refl d⟩

theorem Persists.trans (h : w.Persists w') (h' : w'.Persists w'') : w.Persists w'' where
  nextKey := h.nextKey.trans h'.nextKey
  devices id d hd := by
    obtain ⟨d', hd', hpersists⟩ := h.devices id d hd
    obtain ⟨d'', hd'', hpersists'⟩ := h'.devices id d' hd'
    exact ⟨d'', hd'', hpersists.trans hpersists'⟩

theorem persists_setDevice (hd : w.devices[id]? = some d) (hpersists : d.Persists d')
    (hdevices : w'.devices = w.devices.set id d') (hkey : w.nextKey ≤ w'.nextKey) :
    w.Persists w' where
  nextKey := hkey
  devices i e he := by
    rw [hdevices]
    by_cases hi : i = id
    · subst hi
      rw [hd] at he
      cases he
      exact ⟨d', List.getElem?_set_self (List.getElem?_eq_some_iff.mp hd).1, hpersists⟩
    · exact ⟨e, (List.getElem?_set_ne (Ne.symm hi)).trans he, Device.persists_refl e⟩

theorem SoundOn.setDevice (h : w.SoundOn ids) (hd : w.devices[id]? = some d) (hsound : d'.Sound)
    (hdevices : w'.devices = w.devices.set id d') : w'.SoundOn ids := by
  intro i hi
  rw [hdevices]
  by_cases heq : i = id
  · subst heq
    exact ⟨d', List.getElem?_set_self (List.getElem?_eq_some_iff.mp hd).1, hsound⟩
  · rw [List.getElem?_set_ne (Ne.symm heq)]
    exact h i hi

/-! ## Arguments -/

/-- The bytes behind an argument; on a device, what is there once its queue has run. -/
def bytes? (w : World) (a : Argument) : Option Bytes :=
  match a.storage with
  | some (.host b) => some b.bytes
  | some (.device b) => w.read? b
  | none => none

/-- What is read of an argument; on a device, as though its bytes were on the host. -/
def shows (w : World) (a : Argument) (d : Dtype) : Outcome (List Nat) :=
  match a.deviceBuffer?.bind w.read? with
  | some bytes => Argument.elementsAs ⟨a.shape, some (.host (.ofBytes 0 bytes))⟩ d
  | none => a.elementsAs d

/-- Whether the storage of an argument was in use. -/
def Knows (w : World) (a : Argument) : Prop :=
  match a.storage with
  | some (.host b) => b.key < w.nextKey
  | some (.device b) => ∃ d, w.devices[b.device]? = some d ∧ b.address < d.next
  | none => True

theorem Persists.knows (h : w.Persists w') (ha : w.Knows a) : w'.Knows a := by
  unfold Knows at ha ⊢
  rcases hs : a.storage with _ | _ | b
  · trivial
  · rw [hs] at ha
    exact Nat.lt_of_lt_of_le ha h.nextKey
  · rw [hs] at ha
    obtain ⟨d, hd, hlt⟩ := ha
    obtain ⟨d', hd', hpersists⟩ := h.devices _ d hd
    exact ⟨d', hd', hlt.trans_le hpersists.next⟩

/-- Whether an argument has a shape, and bytes behind it that begin with given ones. -/
structure Carries (w : World) (ids : List DeviceId) (s : Shape) (data : Bytes) (a : Argument) :
    Prop where
  shape : a.shape = s
  bytes : ∃ bytes, w.bytes? a = some bytes ∧ data.size ≤ bytes.size ∧
    bytes.extract 0 data.size = data ∧
    ∀ b, a.deviceBuffer? = some b → b.device ∈ ids ∧ bytes.size = b.size

theorem bytes?_of_host {host : HostBuffer} (h : a.storage = some (.host host)) (w : World) :
    w.bytes? a = some host.bytes := by
  unfold bytes?
  rw [h]

theorem bytes?_of_device (h : a.storage = some (.device b)) (w : World) :
    w.bytes? a = w.read? b := by
  unfold bytes?
  rw [h]

theorem deviceBuffer?_of_device (h : a.storage = some (.device b)) :
    a.deviceBuffer? = some b := by
  unfold Argument.deviceBuffer?
  rw [h]
  rfl

theorem Persists.read? (h : w.Persists w') (hsound : w.SoundOn ids) (hid : b.device ∈ ids)
    (hread : w.read? b = some bytes) : w'.read? b = some bytes := by
  obtain ⟨d, hd, hdsound⟩ := hsound _ hid
  obtain ⟨d', hd', hpersists⟩ := h.devices _ d hd
  rw [read?_of_device hd] at hread
  rw [read?_of_device hd']
  exact hpersists.read? _ (hdsound.lt_next_of_read? hread) _ hread

theorem Persists.bytes? (h : w.Persists w') (hsound : w.SoundOn ids)
    (hin : ∀ b, a.deviceBuffer? = some b → b.device ∈ ids) (hbytes : w.bytes? a = some bytes) :
    w'.bytes? a = some bytes := by
  rcases hs : a.storage with _ | host | b
  · unfold World.bytes? at hbytes
    rw [hs] at hbytes
    cases hbytes
  · rw [bytes?_of_host hs] at hbytes ⊢
    exact hbytes
  · rw [bytes?_of_device hs] at hbytes ⊢
    exact h.read? hsound (hin b (deviceBuffer?_of_device hs)) hbytes

theorem Carries.persists (h : w.Carries ids s data a) (hsound : w.SoundOn ids)
    (hk : w.Persists w') : w'.Carries ids s data a := by
  obtain ⟨hshape, bytes, hbytes, hle, hdata, hown⟩ := h
  exact ⟨hshape, bytes, hk.bytes? hsound (fun b hb => (hown b hb).1) hbytes, hle, hdata, hown⟩

/-- Only the bytes that its shape spans are read of an argument. -/
theorem elementsAs_extract {host : HostBuffer} (hs : s.storageBytes = some n) (key : Nat)
    (d : Dtype) : Argument.elementsAs ⟨s, some (.host host)⟩ d =
      Argument.elementsAs ⟨s, some (.host (.ofBytes key (host.bytes.extract 0 n)))⟩ d := by
  by_cases hd : d = s.dtype
  · subst hd
    by_cases haddr : s.Addressable
    · by_cases hlist : s.Listable
      · rw [Argument.elementsAs_onHost haddr hlist, Argument.elementsAs_onHost haddr hlist]
        refine congrArg Outcome.value (List.map_congr_left fun idx hm => ?_)
        refine (Bytes.wordAt_extract ?_).symm
        exact (Shape.backedBy_of_storageBytes hs le_rfl).within idx (Index.mem_indices.mp hm)
      · rw [Argument.elementsAs_of_not_listable hlist, Argument.elementsAs_of_not_listable hlist]
    · rw [Argument.elementsAs_of_not_addressable haddr,
        Argument.elementsAs_of_not_addressable haddr]
  · unfold Argument.elementsAs Argument.viewAs
    rw [Outcome.require_neg hd]
    rfl

/-- What is read of an argument is what is read of the bytes that it carries. -/
theorem Carries.shows (h : w.Carries ids s data a) (hs : s.storageBytes = some data.size)
    (d : Dtype) :
    w.shows a d = Argument.elementsAs ⟨s, some (.host (.ofBytes 0 data))⟩ d := by
  obtain ⟨rfl, bytes, hbytes, -, hdata, -⟩ := h
  obtain ⟨shape, storage⟩ := a
  have hread : ∀ host : HostBuffer, host.bytes = bytes →
      Argument.elementsAs ⟨shape, some (.host host)⟩ d =
        Argument.elementsAs ⟨shape, some (.host (.ofBytes 0 data))⟩ d := by
    rintro host rfl
    rw [elementsAs_extract hs 0 d, hdata]
  rcases storage with _ | host | b
  · cases hbytes
  · cases hbytes
    exact hread host rfl
  · have hbuffer : w.read? b = some bytes := hbytes
    unfold World.shows
    rw [show (Argument.mk shape (some (.device b))).deviceBuffer?.bind w.read? = some bytes
      from hbuffer]
    exact hread _ rfl

end World
end TensorGraph
