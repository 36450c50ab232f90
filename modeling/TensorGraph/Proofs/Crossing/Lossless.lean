/-
Copies across the boundary of a device.

Every copy that a sound device grants has new storage, and its bytes begin with those that the
shape of its source spans, so it carries what the source carried.  A copy that is dropped takes
only its own bytes along.  Whatever was copied and dropped, in any order, the copies that are left
carry what the first source carried: `crossings_lossless`.
-/
import TensorGraph.Proofs.Crossing.Carries
import TensorGraph.Proofs.Isolation.Buffers

namespace TensorGraph
namespace World

variable {w w' w'' w₀ : World} {ids : List DeviceId} {id : DeviceId} {d d' : Device} {n : Nat}
variable {a c r : Argument} {b : DeviceBuffer} {bytes data : Bytes} {s : Shape}

/-! ## Calls that change nothing -/

/-- Whether all that was in use is as it was, on devices that are still sound and grant as much. -/
structure Passes (ids : List DeviceId) (w w' : World) : Prop where
  held : w'.held = w.held
  persists : w.Persists w'
  sound : w'.SoundOn ids
  grants : ∀ id ∈ ids, ∀ n, w.Grants id n → w'.Grants id n

theorem Passes.trans (h : Passes ids w w') (h' : Passes ids w' w'') : Passes ids w w'' where
  held := h'.held.trans h.held
  persists := h.persists.trans h'.persists
  sound := h'.sound
  grants id hid n hg := h'.grants id hid n (h.grants id hid n hg)

theorem passes_of_devices (h : w.SoundOn ids) (hdevices : w'.devices = w.devices)
    (hheld : w'.held = w.held) (hkey : w.nextKey ≤ w'.nextKey) : Passes ids w w' where
  held := hheld
  persists := ⟨hkey, fun _ d hd => ⟨d, hdevices ▸ hd, Device.persists_refl d⟩⟩
  sound id hid := hdevices ▸ h id hid
  grants _ _ _ hg := by
    unfold Grants
    rw [hdevices]
    exact hg

theorem passes_setDevice (h : w.SoundOn ids) (hd : w.devices[id]? = some d) (hsound : d.Sound)
    (hq : d.Quiet d') : Passes ids w (w.setDevice id d') := by
  have hquiet := hq.trans (Device.quiet_collect hq.firm)
  refine ⟨rfl, persists_setDevice hd hquiet.persists rfl le_rfl,
    h.setDevice hd (hsound.quiet hquiet) rfl, fun i _ n hg => ?_⟩
  obtain ⟨e, he, hg⟩ := hg
  by_cases hi : i = id
  · subst hi
    rw [hd] at he
    cases he
    exact ⟨_, getElem?_setDevice hd d', hquiet.grants hsound.toFirm hg⟩
  · exact ⟨e, (getElem?_setDevice_of_ne hi w d').trans he, hg⟩

theorem synchronize_ends (h : w.SoundOn ids) (hid : id ∈ ids) :
    (onDevice id Device.synchronize w).Ends True fun _ w' =>
      w'.nextKey = w.nextKey ∧ Passes ids w w' := by
  obtain ⟨d, hd, hsound⟩ := h _ hid
  obtain ⟨m, hfinal⟩ := hsound.runs
  have hsynced := Device.quiet_synced hsound.toFirm
  rw [onDevice_of_value hd (hsound.clear.synchronize_of_some hfinal)]
  exact ⟨rfl, passes_setDevice h hd hsound (hsynced.trans (Device.quiet_ran hsynced.firm hfinal))⟩

theorem copyout_ends (h : w.SoundOn ids) (hid : b.device ∈ ids) (hread : w.read? b = some bytes)
    (hsize : bytes.size = b.size) :
    (onDevice b.device (Device.copyout b.address b.size) w).Ends True fun found w' =>
      found = bytes ∧ w'.nextKey = w.nextKey ∧ Passes ids w w' := by
  obtain ⟨d, hd, hsound⟩ := h _ hid
  rw [read?_of_device hd] at hread
  obtain ⟨m, hfinal, hfind⟩ := Device.read?_eq_some.mp hread
  have hcopy := hsound.clear.copyout_of_some hfinal b.address b.size
  rw [hfind] at hcopy
  dsimp only at hcopy
  rw [if_neg (by omega), ← hsize, Array.extract_size, hsize] at hcopy
  rw [onDevice_of_value hd hcopy]
  exact ⟨rfl, rfl, passes_setDevice h hd hsound (Device.quiet_ran hsound.toFirm hfinal)⟩

theorem SoundOn.holdable (h : w.SoundOn ids) (hid : b.device ∈ ids)
    (hread : w.read? b = some bytes) : (bytes.size + 7) / 8 * 8 ≤ Word.maxSigned := by
  obtain ⟨d, hd, hsound⟩ := h _ hid
  rw [read?_of_device hd] at hread
  obtain ⟨m, hfinal, hfind⟩ := Device.read?_eq_some.mp hread
  exact (hsound.ran hfinal).ordered.holdable _ _ hfind

theorem download_ends (h : w.SoundOn ids) (hid : b.device ∈ ids) (hread : w.read? b = some bytes)
    (hsize : bytes.size = b.size) :
    (download b w).Ends True fun host w' =>
      host = .ofBytes w.nextKey bytes ∧ w'.nextKey = w.nextKey + 1 ∧ Passes ids w w' := by
  have hholdable := h.holdable hid hread
  unfold download
  refine Action.ends_bind (synchronize_ends h hid) ?_
  rintro _ w₁ ⟨hkey₁, h₁⟩
  refine Action.ends_bind (P := fun key w₂ =>
    key = w.nextKey ∧ w₂.nextKey = w.nextKey + 1 ∧ Passes ids w w₂) ?_ ?_
  · exact ⟨hkey₁, congrArg (· + 1) hkey₁,
      h₁.trans (passes_of_devices h₁.sound rfl rfl (Nat.le_succ _))⟩
  rintro _ w₂ ⟨rfl, hkey₂, h₂⟩
  rw [Action.bind_lift_of_some
    (show HostBuffer.zeroed w.nextKey b.size = some _ from if_pos (hsize ▸ hholdable))]
  refine Action.ends_bind
    (copyout_ends h₂.sound hid (h₂.persists.read? h hid hread) hsize) ?_
  rintro _ w₃ ⟨rfl, hkey₃, h₃⟩
  exact ⟨rfl, hkey₃.trans hkey₂, h₂.trans h₃⟩

theorem allocate_ends (hd : w.devices[id]? = some d) (hg : d.Grants n) :
    (allocate id n w).Ends True fun b w' => b = ⟨id, d.next, n⟩ ∧
      w'.devices = w.devices.set id { d.granted n with notices := [] } ∧
      w'.nextKey = w.nextKey ∧ w'.held = b :: w.held := by
  unfold allocate
  rw [Action.bind_of_value (onDevice_of_value hd (Device.alloc_of_grants hg))]
  exact ⟨rfl, rfl, rfl, rfl⟩

theorem upload_ends (hd : w.devices[id]? = some d) (hsound : d.Sound) {m : Memory}
    (hfinal : d.final? = some m) (hg : d.Grants bytes.size) :
    (upload id bytes w).Ends True fun b w' => b = ⟨id, d.next, bytes.size⟩ ∧
      w'.devices = w.devices.set id { d.loaded m bytes with notices := [] } ∧
      w'.nextKey = w.nextKey ∧ w'.held = b :: w.held := by
  unfold upload
  refine Action.ends_bind (allocate_ends hd hg) ?_
  rintro _ w₁ ⟨rfl, hdevices, hkey, hheld⟩
  have hd₁ : w₁.devices[id]? = some { d.granted bytes.size with notices := [] } := by
    rw [hdevices, List.getElem?_set_self (List.getElem?_eq_some_iff.mp hd).1]
  refine Action.ends_bind (P := fun _ w₂ =>
    w₂.devices = w.devices.set id { d.loaded m bytes with notices := [] } ∧
      w₂.nextKey = w.nextKey ∧ w₂.held = ⟨id, d.next, bytes.size⟩ :: w.held)
    (Action.ends_onRefusal ?_) ?_
  · rw [onDevice_of_value hd₁ (hsound.copyin_granted hfinal hg)]
    refine ⟨?_, hkey, hheld⟩
    show w₁.devices.set id _ = _
    rw [hdevices, List.set_set]
  · rintro _ w₂ ⟨hdevices₂, hkey₂, hheld₂⟩
    exact ⟨rfl, hdevices₂, hkey₂, hheld₂⟩

/-! ## Copies -/

/-- Whether a world has a copy of what an argument carried, in storage that is new, and the copy
is the only holder that came. -/
structure Copied (ids : List DeviceId) (w : World) (s : Shape) (data : Bytes) (r : Argument)
    (w' : World) : Prop where
  held : w'.held = r.deviceBuffer?.toList ++ w.held
  persists : w.Persists w'
  sound : w'.SoundOn ids
  carries : w'.Carries ids s data r
  knows : w'.Knows r
  fresh : ∀ c, w.Knows c → r.sharesStorage c = false

theorem Copied.after (h : Copied ids w' s data r w'') (hp : Passes ids w w') :
    Copied ids w s data r w'' where
  held := hp.held ▸ h.held
  persists := hp.persists.trans h.persists
  sound := h.sound
  carries := h.carries
  knows := h.knows
  fresh c hc := h.fresh c (hp.persists.knows hc)

theorem Knows.unshared_host {host : HostBuffer} (hc : w.Knows c) (hkey : w.nextKey ≤ host.key) :
    Argument.sharesStorage ⟨s, some (.host host)⟩ c = false := by
  obtain ⟨shape, _ | host' | b⟩ := c
  · rfl
  · exact decide_eq_false fun heq => Nat.lt_irrefl _ (hkey.trans_lt (heq ▸ hc))
  · rfl

theorem Knows.unshared_device (hc : w.Knows c) (hd : w.devices[b.device]? = some d)
    (hnext : d.next ≤ b.address) :
    Argument.sharesStorage ⟨s, some (.device b)⟩ c = false := by
  obtain ⟨shape, _ | host' | b'⟩ := c
  · rfl
  · rfl
  · obtain ⟨d', hd', hlt⟩ := hc
    show (decide _ && decide _) = false
    rw [Bool.and_eq_false_iff, decide_eq_false_iff_not, decide_eq_false_iff_not]
    by_cases hdevice : b.device = b'.device
    · rw [← hdevice, hd] at hd'
      cases hd'
      exact Or.inr (Nat.ne_of_gt (hlt.trans_le hnext))
    · exact Or.inl hdevice

theorem Carries.hostBytes {host : HostBuffer} (h : w.Carries ids s data a)
    (hs : s.storageBytes = some data.size) (hhost : a.storage = some (.host host)) :
    a.hostBytes = .value data := by
  obtain ⟨rfl, bytes, hbytes, -, hdata, -⟩ := h
  rw [bytes?_of_host hhost] at hbytes
  cases hbytes
  have hbuffer : a.hostBuffer = .value host := by
    unfold Argument.hostBuffer Argument.buffer
    rw [hhost]
    rfl
  unfold Argument.hostBytes
  rw [hbuffer, Outcome.value_bind, hs]
  exact congrArg Outcome.value hdata

theorem Passes.copied (h : Passes ids w w') (hkey : w'.nextKey = w.nextKey + 1)
    (hs : s.storageBytes = some data.size) (hle : data.size ≤ bytes.size)
    (hdata : bytes.extract 0 data.size = data) :
    (Action.ofOutcome (Argument.make s (.host (.ofBytes w.nextKey bytes))) w').Ends True
      fun r w'' => (∃ host, r.storage = some (.host host)) ∧ Copied ids w s data r w'' ∧
        Passes ids w w'' := by
  have hbacks : (HostBuffer.ofBytes w.nextKey bytes).Backs s := by
    refine ⟨fun n hn => ?_, (fun heq => nomatch heq), Argument.size_dvd_bufferAlignment _⟩
    rw [hs] at hn
    cases hn
    exact hle
  rw [Argument.make_of_backs hbacks hs]
  refine ⟨⟨_, rfl⟩, ⟨h.held, h.persists, h.sound, ?_, ?_, fun c hc => hc.unshared_host le_rfl⟩, h⟩
  · exact ⟨rfl, bytes, rfl, hle, hdata, fun b hb => nomatch hb⟩
  · show w.nextKey < w'.nextKey
    rw [hkey]
    exact Nat.lt_succ_self _

theorem toHost_ends (h : w.SoundOn ids) (ha : w.Carries ids s data a)
    (hs : s.storageBytes = some data.size) :
    (toHost a w).Ends True fun r w' => (∃ host, r.storage = some (.host host)) ∧
      Copied ids w s data r w' ∧ Passes ids w w' := by
  rcases hstorage : a.storage with _ | host | b
  · obtain ⟨-, bytes, hbytes, -⟩ := ha
    unfold World.bytes? at hbytes
    rw [hstorage] at hbytes
    cases hbytes
  · have hbuffer : a.buffer = .value (.host host) := by
      unfold Argument.buffer
      rw [hstorage]
    have hnext : Passes ids w { w with nextKey := w.nextKey + 1 } :=
      passes_of_devices h rfl rfl (Nat.le_succ _)
    unfold toHost
    rw [Action.bind_lift_of_value hbuffer, ha.shape]
    dsimp only
    refine Action.ends_bind (P := fun bytes w' => bytes = data ∧ w' = w) ?_ ?_
    · rw [ha.hostBytes hs hstorage]
      exact ⟨rfl, rfl⟩
    rintro _ _ ⟨rfl, rfl⟩
    exact hnext.copied rfl hs le_rfl Array.extract_size
  · obtain ⟨rfl, bytes, hbytes, hle, hdata, hown⟩ := ha
    obtain ⟨hid, hsize⟩ := hown b (deviceBuffer?_of_device hstorage)
    have hbuffer : a.buffer = .value (.device b) := by
      unfold Argument.buffer
      rw [hstorage]
    rw [bytes?_of_device hstorage] at hbytes
    unfold toHost
    rw [Action.bind_lift_of_value hbuffer]
    refine Action.ends_bind (download_ends h hid hbytes hsize) ?_
    rintro _ w₁ ⟨rfl, hkey, hpasses⟩
    exact hpasses.copied hkey hs hle hdata

theorem sendHost_ends {host : HostBuffer} (h : w.SoundOn ids) (ha : w.Carries ids s data a)
    (hs : s.storageBytes = some data.size) (hhost : a.storage = some (.host host))
    (hid : id ∈ ids) (hg : w.Grants id data.size) :
    (sendHost id a w).Ends True fun r w' =>
      (∃ b, r.storage = some (.device b) ∧ b.device = id) ∧ Copied ids w s data r w' := by
  obtain ⟨d, hd, hsound⟩ := h id hid
  obtain ⟨m, hfinal⟩ := hsound.runs
  have hgrants : d.Grants data.size := by
    obtain ⟨e, he, hgrants⟩ := hg
    rw [hd] at he
    cases he
    exact hgrants
  unfold sendHost uploadAs
  rw [Action.bind_lift_of_value (ha.hostBytes hs hhost), ha.shape]
  refine Action.ends_bind (upload_ends hd hsound hfinal hgrants) ?_
  rintro _ w₁ ⟨rfl, hdevices, hkey, hheld⟩
  have hloaded := hsound.loaded hfinal hgrants
  have hcollect := Device.quiet_collect hloaded.toFirm
  have hd₁ : w₁.devices[id]? = some { d.loaded m data with notices := [] } := by
    rw [hdevices, List.getElem?_set_self (List.getElem?_eq_some_iff.mp hd).1]
  have hread : w₁.read? ⟨id, d.next, data.size⟩ = some data := by
    rw [read?_of_device (b := ⟨id, d.next, data.size⟩) hd₁, hcollect.read?, Device.read?_loaded,
      if_pos rfl]
  have hmake : Argument.make s (.device ⟨id, d.next, data.size⟩) =
      .value ⟨s, some (.device ⟨id, d.next, data.size⟩)⟩ := by
    unfold Argument.make
    rw [hs, Outcome.lift_eq, Outcome.ofOption_some, Outcome.value_bind]
    exact congrArg (· >>= _) (Outcome.require_pos le_rfl _)
  unfold place
  refine Action.ends_onRefusal ?_
  rw [hmake]
  refine ⟨⟨_, rfl, rfl⟩, hheld, ?_, ?_, ?_, ?_, ?_⟩
  · have hpersists := (Device.persists_loaded hfinal).trans hcollect.persists
    exact persists_setDevice hd hpersists hdevices hkey.ge
  · exact h.setDevice hd (hloaded.quiet hcollect) hdevices
  · refine ⟨rfl, data, hread, le_rfl, Array.extract_size, fun b hb => ?_⟩
    cases hb
    exact ⟨hid, rfl⟩
  · exact ⟨_, hd₁, Nat.lt_add_of_pos_right (Device.footprint_pos _)⟩
  · exact fun c hc => hc.unshared_device hd le_rfl

/-- An argument goes to a new buffer on a device, through the host if it is on a device. -/
theorem toDevice_ends (h : w.SoundOn ids) (ha : w.Carries ids s data a)
    (hs : s.storageBytes = some data.size) (hid : id ∈ ids) (hg : w.Grants id data.size) :
    (toDevice id a w).Ends True fun r w' =>
      (∃ b, r.storage = some (.device b) ∧ b.device = id) ∧ Copied ids w s data r w' := by
  unfold toDevice
  by_cases hlocation : a.location = some .device
  · rw [if_pos hlocation]
    refine Action.ends_bind (toHost_ends h ha hs) ?_
    rintro a' w₁ ⟨⟨host, hhost⟩, hcopied, hpasses⟩
    refine (sendHost_ends hpasses.sound hcopied.carries hs hhost hid
      (hpasses.grants id hid _ hg)).mono ?_
    rintro r w₂ ⟨hat, hcopied₂⟩
    exact ⟨hat, hcopied₂.after hpasses⟩
  · rw [if_neg hlocation]
    obtain ⟨shape, _ | host | b⟩ := a
    · obtain ⟨-, bytes, hbytes, -⟩ := ha
      cases hbytes
    · exact sendHost_ends h ha hs rfl hid hg
    · exact absurd rfl hlocation

/-! ## Drops -/

structure Spares (r : Argument) (w w' : World) : Prop where
  held : w'.held = r.deviceBuffer?.elim w.held w.held.erase
  nextKey : w'.nextKey = w.nextKey
  next : ∀ (id : DeviceId) d, w.devices[id]? = some d →
    ∃ d' : Device, w'.devices[id]? = some d' ∧ d'.next = d.next
  bytes? : ∀ c, r.sharesStorage c = false → ∀ bytes, w.bytes? c = some bytes →
    w'.bytes? c = some bytes

theorem Spares.knows (h : Spares r w w') (hc : w.Knows c) : w'.Knows c := by
  obtain ⟨shape, _ | host | b⟩ := c
  · exact trivial
  · exact hc.trans_le h.nextKey.ge
  · obtain ⟨d, hd, hlt⟩ := hc
    obtain ⟨d', hd', hnext⟩ := h.next _ d hd
    exact ⟨d', hd', hlt.trans_le hnext.ge⟩

theorem Spares.carries (h : Spares r w w') (hc : w.Carries ids s data c)
    (hshares : r.sharesStorage c = false) : w'.Carries ids s data c := by
  obtain ⟨hshape, bytes, hbytes, hrest⟩ := hc
  exact ⟨hshape, bytes, h.bytes? c hshares bytes hbytes, hrest⟩

theorem Persists.spares (h : w₀.Persists w) (hs : Spares r w w')
    (hfresh : ∀ c, w₀.Knows c → r.sharesStorage c = false) : w₀.Persists w' where
  nextKey := hs.nextKey ▸ h.nextKey
  devices id d₀ hd₀ := by
    obtain ⟨d, hd, hpersists⟩ := h.devices id d₀ hd₀
    obtain ⟨d', hd', hnext⟩ := hs.next id d hd
    refine ⟨d', hd', hnext ▸ hpersists.next, fun address hlt bytes hread => ?_⟩
    -- an argument whose buffer is at that address stands for the address
    have hbytes := hs.bytes? ⟨r.shape, some (.device ⟨id, address, 0⟩)⟩
      (hfresh _ ⟨d₀, hd₀, hlt⟩) bytes
      ((read?_of_device hd).trans (hpersists.read? address hlt bytes hread))
    exact (read?_of_device hd').symm.trans hbytes

theorem spares_of_devices (hheld : w'.held = r.deviceBuffer?.elim w.held w.held.erase)
    (hdevices : w'.devices = w.devices) (hkey : w'.nextKey = w.nextKey) : Spares r w w' where
  held := hheld
  nextKey := hkey
  next _ d hd := ⟨d, hdevices ▸ hd, rfl⟩
  bytes? c _ bytes hbytes := by
    unfold World.bytes? World.read? at hbytes ⊢
    rw [hdevices]
    exact hbytes

theorem spares_setDevice (hheld : w'.held = w.held.erase b) (hd : w.devices[b.device]? = some d)
    (hdevices : w'.devices = w.devices.set b.device d') (hkey : w'.nextKey = w.nextKey)
    (hnext : d'.next = d.next)
    (hothers : ∀ address ≠ b.address, d'.read? address = d.read? address) :
    Spares ⟨s, some (.device b)⟩ w w' := by
  have hd' : w'.devices[b.device]? = some d' := by
    rw [hdevices, List.getElem?_set_self (List.getElem?_eq_some_iff.mp hd).1]
  have hne : ∀ i ≠ b.device, w'.devices[i]? = w.devices[i]? := fun i hi => by
    rw [hdevices, List.getElem?_set_ne (Ne.symm hi)]
  refine ⟨hheld, hkey, fun id e he => ?_, fun c hshares bytes hbytes => ?_⟩
  · by_cases hid : id = b.device
    · subst hid
      rw [hd] at he
      cases he
      exact ⟨d', hd', hnext⟩
    · exact ⟨e, (hne id hid).trans he, rfl⟩
  · obtain ⟨shape, _ | host | b'⟩ := c
    · cases hbytes
    · exact hbytes
    · have happart : ¬(b.device = b'.device ∧ b.address = b'.address) := by
        have hand : (decide (b.device = b'.device) && decide (b.address = b'.address)) = false :=
          hshares
        simpa using hand
      rw [bytes?_of_device rfl] at hbytes ⊢
      by_cases hid : b'.device = b.device
      · rw [read?_of_device (hid ▸ hd)] at hbytes
        rw [read?_of_device (hid ▸ hd'),
          hothers _ fun haddress => happart ⟨hid.symm, haddress.symm⟩]
        exact hbytes
      · unfold World.read? at hbytes ⊢
        rw [hne _ hid]
        exact hbytes

theorem release_ends (h : w.SoundOn ids) (hr : w.Carries ids s data r) :
    (release r w).Ends True fun _ w' => w'.SoundOn ids ∧ Spares r w w' := by
  obtain ⟨shape, _ | host | b⟩ := r
  · obtain ⟨-, bytes, hbytes, -⟩ := hr
    cases hbytes
  · rw [release_of_deviceBuffer?_eq_none rfl]
    exact ⟨h, spares_of_devices rfl rfl rfl⟩
  · obtain ⟨-, bytes, hread, -, -, hown⟩ := hr
    obtain ⟨hid, -⟩ := hown b rfl
    show (releaseBuffer b w).Ends True _
    by_cases hheld : b ∈ w.held.erase b
    · rw [releaseBuffer_of_held hheld]
      exact ⟨h, spares_of_devices rfl rfl rfl⟩
    · obtain ⟨d, hd, hsound⟩ := h _ hid
      have hread' : d.read? b.address = some bytes := (read?_of_device hd).symm.trans hread
      obtain ⟨d', hfree, hsound', hnext, hothers⟩ := hsound.exists_freed hread'
      have hcollect := Device.quiet_collect hsound'.toFirm
      rw [releaseBuffer_of_last hheld hd hfree]
      exact ⟨h.setDevice hd (hsound'.quiet hcollect) rfl, spares_setDevice rfl hd rfl rfl hnext
        fun address hne => (hcollect.read? address).trans (hothers address hne)⟩

end World

/-! ## Runs of copies and drops -/

theorem Storage.same_comm (s t : Storage) : s.same t = t.same s := by
  cases s <;> cases t <;> simp [same, eq_comm]

theorem Argument.sharesStorage_comm (a b : Argument) :
    a.sharesStorage b = b.sharesStorage a := by
  unfold sharesStorage
  cases a.storage with
  | none => cases b.storage <;> rfl
  | some s =>
    cases b.storage with
    | none => rfl
    | some t => exact Storage.same_comm s t

inductive Site where
  | host
  | device (id : DeviceId)

def Argument.site? (a : Argument) : Option Site :=
  match a.storage with
  | some (.host _) => some .host
  | some (.device b) => some (.device b.device)
  | none => none

namespace World

variable {w w' w₀ : World} {ids : List DeviceId} {n : Nat} {a r : Argument} {data : Bytes}
variable {s : Shape} {site : Site} {copies : List Argument}

def copyTo : Site → Argument → Action World Argument
  | .host => toHost
  | .device id => toDevice id

/-- Whether a copy of some bytes can be made at a site: always on the host, and on one of some
devices if it grants the allocation. -/
def Takes (ids : List DeviceId) (n : Nat) (w : World) : Site → Prop
  | .host => True
  | .device id => id ∈ ids ∧ w.Grants id n

theorem copyTo_ends (h : w.SoundOn ids) (ha : w.Carries ids s data a)
    (hs : s.storageBytes = some data.size) (htakes : w.Takes ids data.size site) :
    (copyTo site a w).Ends True fun r w' => r.site? = some site ∧ Copied ids w s data r w' := by
  cases site with
  | host =>
    refine (toHost_ends h ha hs).mono ?_
    rintro r w₁ ⟨⟨host, hhost⟩, hcopied, -⟩
    refine ⟨?_, hcopied⟩
    unfold Argument.site?
    rw [hhost]
  | device id =>
    refine (toDevice_ends h ha hs htakes.1 htakes.2).mono ?_
    rintro r w₁ ⟨⟨b, hb, rfl⟩, hcopied⟩
    refine ⟨?_, hcopied⟩
    unfold Argument.site?
    rw [hb]

/-- The copies that are left of an argument behind some copies and drops.  A copy is of the
argument itself or of a copy that is left. -/
inductive Trail (ids : List DeviceId) (n : Nat) (a : Argument) (w₀ : World) :
    List Argument → World → Prop
  | start : Trail ids n a w₀ [] w₀
  | copy {copies : List Argument} {w w' : World} {site : Site} {source r : Argument} :
      Trail ids n a w₀ copies w → source ∈ a :: copies → w.Takes ids n site →
      copyTo site source w = .value r w' → Trail ids n a w₀ (r :: copies) w'
  | drop {before after : List Argument} {w w' : World} {r : Argument} :
      Trail ids n a w₀ (before ++ r :: after) w → release r w = .value () w' →
      Trail ids n a w₀ (before ++ after) w'

/-- What is known of the copies that are left: each carries the same and has storage of its own,
and they are the only holders that came. -/
structure Kept (ids : List DeviceId) (s : Shape) (data : Bytes) (w₀ : World)
    (copies : List Argument) (w : World) : Prop where
  held : w.held.Perm (copies.filterMap Argument.deviceBuffer? ++ w₀.held)
  persists : w₀.Persists w
  sound : w.SoundOn ids
  carries : ∀ r ∈ copies, w.Carries ids s data r
  knows : ∀ r ∈ copies, w.Knows r
  fresh : ∀ r ∈ copies, ∀ c, w₀.Knows c → r.sharesStorage c = false
  unshared : copies.Pairwise fun r r' => r.sharesStorage r' = false

theorem kept_nil (h : w₀.SoundOn ids) : Kept ids s data w₀ [] w₀ where
  held := .refl _
  persists := persists_refl w₀
  sound := h
  carries _ hr := nomatch hr
  knows _ hr := nomatch hr
  fresh _ hr := nomatch hr
  unshared := .nil

theorem Kept.copied (h : Kept ids s data w₀ copies w) (hc : Copied ids w s data r w') :
    Kept ids s data w₀ (r :: copies) w' where
  held := by
    rw [hc.held]
    have hcons : (r :: copies).filterMap Argument.deviceBuffer? =
        r.deviceBuffer?.toList ++ copies.filterMap Argument.deviceBuffer? := by
      rw [List.filterMap_cons]
      cases r.deviceBuffer? <;> rfl
    rw [hcons, List.append_assoc]
    exact h.held.append_left _
  persists := h.persists.trans hc.persists
  sound := hc.sound
  carries := List.forall_mem_cons.mpr
    ⟨hc.carries, fun r' hr' => (h.carries r' hr').persists h.sound hc.persists⟩
  knows := List.forall_mem_cons.mpr ⟨hc.knows, fun r' hr' => hc.persists.knows (h.knows r' hr')⟩
  fresh := List.forall_mem_cons.mpr
    ⟨fun c hw₀ => hc.fresh c (h.persists.knows hw₀), h.fresh⟩
  unshared := h.unshared.cons fun r' hr' => hc.fresh r' (h.knows r' hr')

theorem Kept.perm {copies' : List Argument} (h : Kept ids s data w₀ copies w)
    (hp : copies.Perm copies') : Kept ids s data w₀ copies' w where
  held := h.held.trans ((hp.filterMap _).append_right _)
  persists := h.persists
  sound := h.sound
  carries r hr := h.carries r (hp.mem_iff.mpr hr)
  knows r hr := h.knows r (hp.mem_iff.mpr hr)
  fresh r hr := h.fresh r (hp.mem_iff.mpr hr)
  unshared := (hp.pairwise_iff fun hxy => (Argument.sharesStorage_comm _ _).trans hxy).mp h.unshared

theorem Kept.dropped (h : Kept ids s data w₀ (r :: copies) w) (hsound : w'.SoundOn ids)
    (hs : Spares r w w') : Kept ids s data w₀ copies w' where
  held := by
    have hheld := h.held
    rw [hs.held]
    -- the holder that goes is the one that the copy had brought
    rw [List.filterMap_cons] at hheld
    cases hr : r.deviceBuffer? with
    | none =>
      rw [hr] at hheld
      exact hheld
    | some b =>
      rw [hr] at hheld
      exact (hheld.erase b).trans (List.Perm.of_eq (List.erase_cons_head ..))
  persists := h.persists.spares hs (h.fresh r List.mem_cons_self)
  sound := hsound
  carries r' hr' := hs.carries (h.carries r' (List.mem_cons_of_mem r hr'))
    (List.rel_of_pairwise_cons h.unshared hr')
  knows r' hr' := hs.knows (h.knows r' (List.mem_cons_of_mem r hr'))
  fresh r' hr' := h.fresh r' (List.mem_cons_of_mem r hr')
  unshared := h.unshared.of_cons

/-- What can be copied carries what the argument carried. -/
theorem Kept.source (h : Kept ids s data w₀ copies w) (hsound : w₀.SoundOn ids)
    (ha : w₀.Carries ids s data a) {source : Argument} (hmem : source ∈ a :: copies) :
    w.Carries ids s data source := by
  rcases List.mem_cons.mp hmem with rfl | hmem
  · exact ha.persists hsound h.persists
  · exact h.carries source hmem

/-- Every run of copies and drops keeps the copies that are left. -/
theorem Trail.kept (h : Trail ids data.size a w₀ copies w) (hsound : w₀.SoundOn ids)
    (ha : w₀.Carries ids s data a) (hs : s.storageBytes = some data.size) :
    Kept ids s data w₀ copies w := by
  induction h with
  | start => exact kept_nil hsound
  | copy _ hsource htakes hcopy ih =>
    have hcarries := ih.source hsound ha hsource
    exact ih.copied ((copyTo_ends ih.sound hcarries hs htakes).of_value hcopy).2
  | @drop before after w w' r _ hdrop ih =>
    -- the order of the copies plays no part, so the one that goes can be the first
    have hfront := ih.perm List.perm_middle
    obtain ⟨hsound', hspares⟩ :=
      (release_ends hfront.sound (hfront.carries r List.mem_cons_self)).of_value hdrop
    exact hfront.dropped hsound' hspares

/-- Whether an argument has storage: as many bytes as its shape spans or more, on the host or in a
buffer of one of some devices. -/
structure Stored (w : World) (ids : List DeviceId) (n : Nat) (bytes : Bytes) (a : Argument) :
    Prop where
  spans : a.shape.storageBytes = some n
  content : w.bytes? a = some bytes
  size : n ≤ bytes.size
  buffer : ∀ b, a.deviceBuffer? = some b → b.device ∈ ids ∧ bytes.size = b.size

/-- Without storage there is nothing to copy, and no device is called. -/
theorem copyTo_absent (s : Shape) (site : Site) (w : World) :
    copyTo site (.absent s) w = .refused (.storage (.absent s)) w := by
  cases site <;> rfl

/-- Crossings lose nothing.  On devices where nothing fails, whatever was copied of an argument,
copied on and dropped: each copy that is left has its shape, shows its elements and has storage
that was not there before and that no other copy has; the copies are the only holders that came;
the bytes of the argument are as they were; and wherever there is room another copy can be made,
with storage that nobody knows.  An argument without storage is refused and nothing happens.
When a copy is refused on a device, whatever has failed there, the same is allocated as before. -/
theorem crossings_lossless :
    (∀ (w₀ : World) (ids : List DeviceId) (n : Nat) (bytes : Bytes) (a : Argument),
      (∀ id ∈ ids, ∃ d, w₀.devices[id]? = some d ∧ d.Healthy) → w₀.Stored ids n bytes a →
      ∀ copies w, Trail ids n a w₀ copies w →
        (∀ r ∈ copies, r.shape = a.shape ∧ (∀ d, w.shows r d = w₀.shows a d) ∧
          ∀ c, w₀.Knows c → r.sharesStorage c = false) ∧
        copies.Pairwise (fun r r' => r.sharesStorage r' = false) ∧
        w.held.Perm (copies.filterMap Argument.deviceBuffer? ++ w₀.held) ∧
        w.bytes? a = some bytes ∧
        (∀ source ∈ a :: copies, ∀ site, w.Takes ids n site →
          ∃ r w', copyTo site source w = .value r w' ∧ r.site? = some site ∧
            ∀ c, w.Knows c → r.sharesStorage c = false) ∧
        ∀ r ∈ copies, ∃ w', release r w = .value () w') ∧
    (∀ s site w, copyTo site (.absent s) w = .refused (.storage (.absent s)) w) ∧
    ∀ w : World, w.Orderly → ∀ site a e w', copyTo site a w = .refused e w' →
      ∀ id, w'.live id = w.live id := by
  refine ⟨fun w₀ ids n bytes a hhealthy ha copies w htrail => ?_, copyTo_absent,
    fun w hw site a e w' hrefused id => ?_⟩
  · have hsound : w₀.SoundOn ids := fun id hid => by
      obtain ⟨d, hd, hdevice⟩ := hhealthy id hid
      exact ⟨d, hd, hdevice.sound⟩
    obtain ⟨data, hdata, rfl⟩ : ∃ data, bytes.extract 0 n = data ∧ n = data.size :=
      ⟨_, rfl, by rw [Array.size_extract, Nat.min_eq_left ha.size, Nat.sub_zero]⟩
    have hcarries : w₀.Carries ids a.shape data a :=
      ⟨rfl, bytes, ha.content, ha.size, hdata, ha.buffer⟩
    have hkept := htrail.kept hsound hcarries ha.spans
    refine ⟨fun r hr => ⟨(hkept.carries r hr).shape, fun d => ?_, hkept.fresh r hr⟩,
      hkept.unshared, hkept.held, hkept.persists.bytes? hsound (fun b hb => (ha.buffer b hb).1)
        ha.content, fun source hsource site htakes => ?_, fun r hr => ?_⟩
    · rw [(hkept.carries r hr).shows ha.spans, hcarries.shows ha.spans]
    · have hsourced := hkept.source hsound hcarries hsource
      obtain ⟨r, w', hcopy, hsite, hcopied⟩ :=
        (copyTo_ends hkept.sound hsourced ha.spans htakes).exists_value_of_fits trivial
      exact ⟨r, w', hcopy, hsite, hcopied.fresh⟩
    · obtain ⟨_, w', hdrop, -⟩ :=
        (release_ends hkept.sound (hkept.carries r hr)).exists_value_of_fits trivial
      exact ⟨w', hdrop⟩
  · cases site with
    | host => exact live_of_refused (hw.toHost a).meets hrefused id
    | device i => exact live_of_refused (hw.toDevice i a) hrefused id

/-- Rows with a gap between them and bytes to spare go to a device and come back, and then the
copy on the device is dropped.  A copy to a device that has a failed launch to report is refused
behind its allocation, which is given back. -/
theorem crossings_lossless_with_gaps :
    (∃ sent w₁ back w₂ w₃,
      copyTo (.device 0) ⟨⟨.int16, [⟨2, 3⟩, ⟨2, 1⟩]⟩,
        some (.host (.ofBytes 0 #[1, 0, 2, 0, 9, 9, 3, 0, 4, 1, 7]))⟩
        { devices := [{}], nextKey := 1 } = .value sent w₁ ∧
      copyTo .host sent w₁ = .value back w₂ ∧ release sent w₂ = .value () w₃ ∧
      back.shape = ⟨.int16, [⟨2, 3⟩, ⟨2, 1⟩]⟩ ∧ back.site? = some .host ∧
      w₃.shows back .int16 = .value [1, 2, 3, 260]) ∧
    ∃ e w', copyTo (.device 0) ⟨⟨.uint8, [⟨1, 1⟩]⟩, some (.host (.ofBytes 0 #[7]))⟩
        { devices := [{ failure := some (.launchFailed "sin" (.type (.notNumeric "sin"))) }] } =
          .refused e w' ∧ w'.live 0 = some [] := by
  obtain ⟨hruns, -, hrefusals⟩ := crossings_lossless
  have hhealthy : ∀ id ∈ [0], ∃ d : Device, ([{}] : List Device)[id]? = some d ∧ d.Healthy := by
    intro id hid
    rw [List.mem_singleton.mp hid]
    exact ⟨{}, rfl, ⟨none, [], .refl⟩, rfl, _, rfl⟩
  have hrun := hruns { devices := [{}], nextKey := 1 } [0] 10
    #[1, 0, 2, 0, 9, 9, 3, 0, 4, 1, 7] ⟨⟨.int16, [⟨2, 3⟩, ⟨2, 1⟩]⟩,
      some (.host (.ofBytes 0 #[1, 0, 2, 0, 9, 9, 3, 0, 4, 1, 7]))⟩
    hhealthy ⟨by decide, rfl, by decide, (fun b hb => nomatch hb)⟩
  refine ⟨?_, ?_⟩
  · have htakes : Takes [0] 10 { devices := [{}], nextKey := 1 } (.device 0) :=
      ⟨List.mem_singleton_self 0, {}, rfl, by unfold Device.Room; decide,
        fun ⟨_, h, _⟩ => nomatch h⟩
    obtain ⟨-, -, -, -, hcopies, -⟩ := hrun [] _ .start
    obtain ⟨sent, w₁, hsent, -, -⟩ := hcopies _ List.mem_cons_self (.device 0) htakes
    have htrail₁ := Trail.start.copy List.mem_cons_self htakes hsent
    obtain ⟨-, -, -, -, hcopies₁, -⟩ := hrun [sent] w₁ htrail₁
    obtain ⟨back, w₂, hback, hsite, -⟩ := hcopies₁ sent (by simp) .host trivial
    have htrail₂ := htrail₁.copy (by simp) (show Takes [0] 10 w₁ .host from trivial) hback
    obtain ⟨-, -, -, -, -, hdrops⟩ := hrun [back, sent] w₂ htrail₂
    obtain ⟨w₃, hdrop⟩ := hdrops sent (by simp)
    have htrail₃ : Trail [0] 10 _ _ ([back] ++ []) w₃ := .drop htrail₂ hdrop
    obtain ⟨hleft, -⟩ := hrun [back] w₃ htrail₃
    obtain ⟨hshape, hshows, -⟩ := hleft back List.mem_cons_self
    exact ⟨sent, w₁, back, w₂, w₃, hsent, hback, hdrop, hshape, hsite, hshows .int16⟩
  · have horderly : Orderly
        { devices := [{ failure := some (.launchFailed "sin" (.type (.notNumeric "sin"))) }] } := by
      refine ⟨fun d hd => ?_, fun d hd e he => ?_, fun b hb => nomatch hb⟩
      · rw [List.mem_singleton.mp hd]
        exact .nil
      · rw [List.mem_singleton.mp hd] at he
        cases he
    obtain ⟨e, w', hrefused, -⟩ := Turn.exists_of_refusedIn (show Turn.refusedIn (fun _ => true)
      (copyTo (.device 0) ⟨⟨.uint8, [⟨1, 1⟩]⟩, some (.host (.ofBytes 0 #[7]))⟩
        { devices := [{ failure := some (.launchFailed "sin" (.type (.notNumeric "sin"))) }] }) =
          true by decide +kernel)
    exact ⟨e, w', hrefused, hrefusals _ horderly _ _ e w' hrefused 0⟩

end World
end TensorGraph
