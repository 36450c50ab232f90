/-
Device tensors and who holds them.

`Loaded` says that devices keep given tensors and that somebody holds the buffer of each, as
often as it occurs, so that none is freed while it is among them.  Transfers, views, launches
and releases are specified by what they do to that list.  New tensors are made on one of the
devices; the others only have to give back what was there before.
-/
import TensorGraph.Proofs.Device.Calls
import TensorGraph.Proofs.Kernel.OnHost

namespace TensorGraph

def Resident.argument (r : Resident) : Argument := ⟨r.shape, some (.device r.buffer)⟩

namespace World

variable {F fits : Prop} {id i : DeviceId} {next : Nat} {w w' : World} {d d' : Device} {α : Type}
variable {r : Resident} {rs rs' : List Resident}

def on (i : DeviceId) (rs : List Resident) : List Resident := rs.filter fun r => r.buffer.device = i

theorem mem_on : r ∈ on i rs ↔ r ∈ rs ∧ r.buffer.device = i := by
  rw [on, List.mem_filter, decide_eq_true_iff]

theorem on_cons_self (h : r.buffer.device = i) : on i (r :: rs) = r :: on i rs :=
  List.filter_cons_of_pos (decide_eq_true h)

theorem on_cons_ne (h : r.buffer.device ≠ i) : on i (r :: rs) = on i rs :=
  List.filter_cons_of_neg (by rwa [decide_eq_true_iff])

theorem on_subset (hsub : rs' ⊆ rs) : on i rs' ⊆ on i rs := List.filter_subset _ hsub

/-- Whether tensors that are held are kept on their devices, and a device that has handed out the
addresses below `next` can make others. -/
structure Loaded (F : Prop) (id : DeviceId) (next : Nat) (w : World) (rs : List Resident) :
    Prop where
  devices : ∀ i, (i = id ∨ ∃ r ∈ rs, r.buffer.device = i) → ∃ d, w.devices[i]? = some d ∧
    (i = id → d.next = next) ∧ d.Holds (i = id) F (on i rs)
  counts : ∀ b, (rs.map Resident.buffer).count b ≤ w.held.count b

theorem Loaded.target (h : Loaded F id next w rs) :
    ∃ d, w.devices[id]? = some d ∧ d.next = next ∧ d.Holds True F (on id rs) := by
  obtain ⟨d, hd, hnext, hholds⟩ := h.devices id (Or.inl rfl)
  exact ⟨d, hd, hnext rfl, hholds.makes_of fun _ => rfl⟩

theorem Loaded.keeper (h : Loaded F id next w rs) (hr : r ∈ rs) :
    ∃ d, w.devices[r.buffer.device]? = some d ∧ (r.buffer.device = id → d.next = next) ∧
      d.Holds (r.buffer.device = id) F (on r.buffer.device rs) ∧ r ∈ on r.buffer.device rs := by
  obtain ⟨d, hd, hnext, hholds⟩ := h.devices _ (Or.inr ⟨r, hr, rfl⟩)
  exact ⟨d, hd, hnext, hholds, mem_on.mpr ⟨hr, rfl⟩⟩

theorem Loaded.roomy (h : Loaded F id next w rs) (hr : r ∈ rs) : r.Roomy := by
  obtain ⟨d, -, -, hholds, hmem⟩ := h.keeper hr
  exact hholds.roomy r hmem

/-- A healthy device keeps nothing to begin with. -/
theorem loaded_nil (hd : w.devices[id]? = some d) (hhealthy : d.Healthy)
    (hunlimited : d.Unlimited) : Loaded F id d.next w [] := by
  obtain ⟨m, hrun⟩ := hhealthy.settles
  refine ⟨fun i hi => ?_, fun b => Nat.zero_le _⟩
  obtain rfl : i = id := hi.resolve_right fun ⟨r, hr, _⟩ => nomatch hr
  exact ⟨d, hd, fun _ => rfl, hhealthy.holds hrun (fun _ => hunlimited) (fun _ h => nomatch h)
    (fun _ h => nomatch h) fun _ h => nomatch h⟩

/-- Fewer tensors, as long as those are held. -/
theorem Loaded.subset (h : Loaded F id next w rs) (hsub : rs' ⊆ rs)
    (hdevices : w'.devices = w.devices)
    (hcounts : ∀ b, (rs'.map Resident.buffer).count b ≤ w'.held.count b) :
    Loaded F id next w' rs' := by
  refine ⟨fun i hi => ?_, hcounts⟩
  obtain ⟨d, hd, hnext, hholds⟩ := h.devices i (hi.imp_right fun ⟨r, hr, heq⟩ => ⟨r, hsub hr, heq⟩)
  rw [hdevices]
  exact ⟨d, hd, hnext, hholds.subset (on_subset hsub)⟩

theorem Loaded.perm (h : Loaded F id next w rs) (hp : rs.Perm rs') : Loaded F id next w rs' := by
  refine h.subset hp.symm.subset rfl fun b => ?_
  rw [(hp.symm.map Resident.buffer).count_eq]
  exact h.counts b

theorem Loaded.congr (h : Loaded F id next w rs) (hd : w'.devices = w.devices)
    (hh : w'.held = w.held) : Loaded F id next w' rs :=
  h.subset (List.Subset.refl _) hd (hh ▸ h.counts)

theorem Loaded.cons_of_mem (h : Loaded F id next w rs) (hr : r ∈ rs) {r' : Resident}
    (hbuffer : r'.buffer = r.buffer) (hroom : r'.shape.space * r'.shape.dtype.size ≤ r.buffer.size)
    (hreads : ∀ bytes, (View.ofBytes r.shape r.shape.dtype.size bytes).Agrees r.tensor →
      (View.ofBytes r'.shape r'.shape.dtype.size bytes).Agrees r'.tensor)
    (hdevices : w'.devices = w.devices) (hheld : w'.held = r.buffer :: w.held) :
    Loaded F id next w' (r' :: rs) := by
  refine ⟨fun i hi => ?_, fun b => ?_⟩
  · have hi' : i = id ∨ ∃ r ∈ rs, r.buffer.device = i := by
      rcases hi with hi | ⟨r₀, hr₀, heq⟩
      · exact Or.inl hi
      · rcases List.mem_cons.mp hr₀ with rfl | hr₀
        · exact Or.inr ⟨r, hr, by rw [← hbuffer, heq]⟩
        · exact Or.inr ⟨r₀, hr₀, heq⟩
    obtain ⟨d, hd, hnext, hholds⟩ := h.devices i hi'
    rw [hdevices]
    refine ⟨d, hd, hnext, ?_⟩
    by_cases heq : r.buffer.device = i
    · rw [on_cons_self (by rw [hbuffer, heq])]
      exact hholds.cons_of_mem (mem_on.mpr ⟨hr, heq⟩) hbuffer hroom hreads
    · rw [on_cons_ne (by rwa [hbuffer])]
      exact hholds
  · rw [hheld, List.map_cons, hbuffer, List.count_cons, List.count_cons]
    exact Nat.add_le_add_right (h.counts b) _

/-! ## Calls of a device in a world -/

/-- A world in which a call has left a device in a state. -/
structure Called (id : DeviceId) (w : World) (d : Device) (w' : World) : Prop where
  device : w'.devices[id]? = some { d with notices := [] }
  others : ∀ i ≠ id, w'.devices[i]? = w.devices[i]?
  held : w'.held = w.held

theorem called_setDevice (h : w.devices[id]? = some d) (d' : Device) :
    Called id w d' (w.setDevice id d') where
  device := List.getElem?_set_self (List.getElem?_eq_some_iff.mp h).1
  others _ hi := List.getElem?_set_ne (Ne.symm hi)
  held := rfl

theorem onDevice_ends {call : Action Device α} {P : α → Device → Prop}
    (hd : w.devices[id]? = some d) (h : (call d).Ends fits P) :
    (onDevice id call w).Ends fits fun a w' => ∃ d', P a d' ∧ Called id w d' w' := by
  unfold onDevice
  rw [hd]
  dsimp only
  cases hcall : call d with
  | value a d' =>
    rw [hcall] at h
    exact ⟨d', h, called_setDevice hd d'⟩
  | refused e d' =>
    rw [hcall] at h
    exact h
  | halted =>
    rw [hcall] at h
    exact h

theorem attempt_onDevice_ends {call : Action Device α} {P : Device → Prop}
    (hd : w.devices[id]? = some d) (h : (Action.attempt call d).Ends fits fun _ d' => P d') :
    (Action.attempt (onDevice id call) w).Ends fits fun _ w' => ∃ d', P d' ∧ Called id w d' w' := by
  unfold Action.attempt at h ⊢
  unfold onDevice
  rw [hd]
  dsimp only
  cases hcall : call d with
  | value a d' =>
    rw [hcall] at h
    exact ⟨d', h, called_setDevice hd d'⟩
  | refused e d' =>
    rw [hcall] at h
    exact ⟨d', h, called_setDevice hd d'⟩
  | halted =>
    rw [hcall] at h
    exact h

/-- A call changes the tensors on its device only. -/
theorem Loaded.update {next' : Nat} (h : Loaded F id next w rs)
    (hdevice : w'.devices[i]? = some { d' with notices := [] })
    (hothers : ∀ j ≠ i, w'.devices[j]? = w.devices[j]? ∧ on j rs' = on j rs)
    (hholds : d'.Holds (i = id) F (on i rs')) (hnext : i = id → d'.next = next')
    (hsame : i = id ∨ next' = next)
    (hcounts : ∀ b, (rs'.map Resident.buffer).count b ≤ w'.held.count b) :
    Loaded F id next' w' rs' := by
  refine ⟨fun j hj => ?_, hcounts⟩
  by_cases heq : j = i
  · subst heq
    exact ⟨_, hdevice, hnext, hholds.collect⟩
  · obtain ⟨hget, hon⟩ := hothers j heq
    have hj' : j = id ∨ ∃ r ∈ rs, r.buffer.device = j := by
      refine hj.imp_right fun ⟨r, hr, hr'⟩ => ?_
      have hmem := mem_on.mpr ⟨hr, hr'⟩
      rw [hon] at hmem
      exact ⟨r, mem_on.mp hmem⟩
    obtain ⟨d, hd, hnext', hholds'⟩ := h.devices j hj'
    rw [hget, hon]
    refine ⟨d, hd, fun hid => ?_, hholds'⟩
    rw [hnext' hid]
    exact (hsame.resolve_left fun hi => heq (hid.trans hi.symm)).symm

theorem Loaded.called (h : Loaded F id next w rs) (hcalled : Called i w d' w')
    (hholds : d'.Holds (i = id) F (on i rs)) (hnext : i = id → d'.next = next) :
    Loaded F id next w' rs := by
  by_cases hi : i = id
  · exact h.update hcalled.device (fun j hj => ⟨hcalled.others j hj, rfl⟩) hholds hnext (Or.inl hi)
      (hcalled.held ▸ h.counts)
  · exact h.update hcalled.device (fun j hj => ⟨hcalled.others j hj, rfl⟩) hholds hnext
      (Or.inr rfl) (hcalled.held ▸ h.counts)

theorem Loaded.overwritten {b : DeviceBuffer} {t : Shape} {v v' : View}
    (h : Loaded F id next w (⟨b, t, v⟩ :: rs)) (hcalled : Called b.device w d' w')
    (hholds : d'.Holds (b.device = id) F (⟨b, t, v'⟩ :: on b.device rs))
    (hnext : b.device = id → d'.next = next) :
    Loaded F id next w' (⟨b, t, v'⟩ :: rs) := by
  refine h.update hcalled.device (fun j hj => ⟨hcalled.others j hj, ?_⟩) ?_ hnext (Or.inr rfl)
    (hcalled.held ▸ h.counts)
  · rw [on_cons_ne (Ne.symm hj), on_cons_ne (Ne.symm hj)]
  · have hon : on b.device (⟨b, t, v'⟩ :: rs) = _ := on_cons_self rfl
    rwa [hon]

/-! ## Holders -/

theorem Loaded.address_ne (h : Loaded F id next w (r :: rs)) (hr : r.buffer ∉ rs.map Resident.buffer) :
    ∀ r' ∈ on r.buffer.device rs, r'.buffer.address ≠ r.buffer.address := by
  obtain ⟨d, -, -, hholds, hmem⟩ := h.keeper List.mem_cons_self
  intro r' hr' heq
  obtain ⟨hmem', hid⟩ := mem_on.mp hr'
  refine hr (List.mem_map.mpr ⟨r', hmem', ?_⟩)
  have hsize := hholds.sizes r' (mem_on.mpr ⟨List.mem_cons_of_mem _ hmem', hid⟩)
  rw [heq, hholds.sizes r hmem] at hsize
  revert hid heq hsize
  generalize r.buffer = b
  generalize r'.buffer = b'
  intro heq hsize hid
  cases b
  cases b'
  cases hid
  cases heq
  cases hsize
  rfl

theorem Loaded.releaseBuffer_ends (h : Loaded F id next w (r :: rs)) (hF : fits → F) :
    (releaseBuffer r.buffer w).Ends fits fun _ w' => Loaded F id next w' rs := by
  have hcounts : ∀ b, (rs.map Resident.buffer).count b ≤ (w.held.erase r.buffer).count b := by
    intro b
    have hcount := h.counts b
    rw [List.map_cons, List.count_cons] at hcount
    rw [List.count_erase]
    omega
  have h₀ : Loaded F id next { w with held := w.held.erase r.buffer } rs :=
    h.subset (List.subset_cons_self r rs) rfl hcounts
  unfold releaseBuffer
  rw [Action.bind_of_value (Action.modify_apply _), Action.bind_of_value Action.get_apply]
  by_cases hheld : r.buffer ∈ w.held.erase r.buffer
  · rw [if_neg (not_not.mpr hheld)]
    exact h₀
  · rw [if_pos hheld]
    have hgone : r.buffer ∉ rs.map Resident.buffer := by
      intro hmem
      have hpos := List.count_pos_iff.mpr hmem
      exact hheld (List.count_pos_iff.mp (lt_of_lt_of_le hpos (hcounts r.buffer)))
    obtain ⟨d, hd, hnext, hholds, -⟩ := h.keeper List.mem_cons_self
    have hrest := hholds.subset (on_subset (List.subset_cons_self r rs))
    refine Action.ends_bind (attempt_onDevice_ends hd
      (Device.free_ends hrest hF (h.address_ne hgone))) ?_
    rintro result w₁ ⟨d₁, ⟨hholds₁, hnext₁⟩, hcalled⟩
    have h₁ := h₀.called hcalled hholds₁ fun hid => hnext₁.trans (hnext hid)
    cases result with
    | ok _ => exact h₁
    | error e => exact h₁.congr rfl rfl

theorem Loaded.retain (h : Loaded F id next w rs) (hr : r ∈ rs) {r' : Resident}
    (hbuffer : r'.buffer = r.buffer) (hroom : r'.shape.space * r'.shape.dtype.size ≤ r.buffer.size)
    (hreads : ∀ bytes, (View.ofBytes r.shape r.shape.dtype.size bytes).Agrees r.tensor →
      (View.ofBytes r'.shape r'.shape.dtype.size bytes).Agrees r'.tensor) :
    (World.retain r'.argument w).Ends fits fun _ w' => Loaded F id next w' (r' :: rs) :=
  h.cons_of_mem hr hbuffer hroom hreads rfl (congrArg (· :: w.held) hbuffer)

/-! ## Fresh buffers -/

variable {t : Shape} {v : View} {bytes : Bytes} {size : Nat}

theorem Loaded.allocate_ends (h : Loaded F id next w rs)
    (hroom : fits → next + Device.footprint size ≤ Word.maxUnsigned ∧
      (size + 7) / 8 * 8 ≤ Word.maxSigned) :
    (allocate id size w).Ends fits fun b w' => b = ⟨id, next, size⟩ ∧
      ∀ t : Shape, t.space * t.dtype.size ≤ size →
        Loaded F id (next + Device.footprint size) w' (⟨b, t,
          View.ofBytes t t.dtype.size (Bytes.zeros size)⟩ :: rs) := by
  obtain ⟨d, hd, rfl, hholds⟩ := h.target
  unfold allocate
  refine Action.ends_bind (onDevice_ends hd (Device.alloc_ends hholds trivial hroom)) ?_
  rintro _ w₁ ⟨d₁, ⟨rfl, hnext, hkeeps⟩, hcalled⟩
  refine ⟨rfl, fun t hsize => h.update (i := id) hcalled.device (fun j hj =>
    ⟨hcalled.others j hj, on_cons_ne (Ne.symm hj)⟩) ?_ (fun _ => hnext) (Or.inl rfl) fun b => ?_⟩
  · rw [on_cons_self (i := id) rfl]
    exact (hkeeps id t hsize).makes_of fun _ => trivial
  · show _ ≤ (_ :: w₁.held).count b
    rw [List.map_cons, List.count_cons, List.count_cons, hcalled.held]
    exact Nat.add_le_add_right (h.counts b) _

theorem Loaded.fresh (h : Loaded F id next w rs) :
    ∀ r ∈ on id rs, r.buffer.address ≠ next := by
  obtain ⟨d, -, rfl, hholds⟩ := h.target
  exact fun r hr => Nat.ne_of_lt (hholds.address_lt hr)

theorem Loaded.congr_head {b : DeviceBuffer} {v' : View}
    (h : Loaded F id next w (⟨b, t, v⟩ :: rs)) (hv : v.Agrees v') :
    Loaded F id next w (⟨b, t, v'⟩ :: rs) := by
  have hmem : ⟨b, t, v⟩ ∈ ⟨b, t, v⟩ :: rs := List.mem_cons_self
  have hroom : t.space * t.dtype.size ≤ b.size := h.roomy hmem
  have hboth : Loaded F id next { w with held := b :: w.held } (⟨b, t, v'⟩ :: ⟨b, t, v⟩ :: rs) :=
    h.cons_of_mem hmem rfl hroom (fun _ hagrees => hagrees.trans hv) rfl rfl
  exact hboth.subset (List.cons_subset_cons _ (List.subset_cons_self _ _)) rfl h.counts

theorem Loaded.upload_ends (h : Loaded F id next w rs) (hF : fits → F)
    (hroom : fits → next + Device.footprint bytes.size ≤ Word.maxUnsigned ∧
      (bytes.size + 7) / 8 * 8 ≤ Word.maxSigned) (hsize : t.space * t.dtype.size ≤ bytes.size) :
    (upload id bytes w).Ends fits fun b w' => b.size = bytes.size ∧ b.device = id ∧
      Loaded F id (next + Device.footprint bytes.size) w' (⟨b, t,
        View.ofBytes t t.dtype.size bytes⟩ :: rs) := by
  unfold upload
  refine Action.ends_bind (h.allocate_ends hroom) ?_
  rintro _ w₁ ⟨rfl, hloaded⟩
  have h₁ := hloaded t hsize
  obtain ⟨d₁, hd₁, hnext, hholds, -⟩ := h₁.keeper List.mem_cons_self
  rw [on_cons_self rfl] at hholds
  refine Action.ends_bind (Action.ends_onRefusal (onDevice_ends hd₁
    (Device.copyin_ends hholds hF h.fresh rfl))) ?_
  rintro _ w₂ ⟨d₂, ⟨hnext₂, hholds₂⟩, hcalled⟩
  exact ⟨rfl, rfl, h₁.overwritten hcalled hholds₂ fun hid => hnext₂.trans (hnext hid)⟩

theorem storageBytes_ends (hp : t.Populated)
    (hfit : fits → t.space * t.dtype.size ≤ Word.maxUnsigned) :
    (Outcome.ofOption t.storageBytes).Ends fits (· = t.space * t.dtype.size) := by
  refine Outcome.ends_ofOption (fun hf => ?_) fun n hn => ((Shape.storageBytes_eq_some hp).mp hn).1
  rw [(Shape.storageBytes_eq_some hp).mpr ⟨rfl, hfit hf⟩]
  rfl

/-- What a host could hold is not beyond the words. -/
theorem le_of_holdable (h : (size + 7) / 8 * 8 ≤ Word.maxSigned) : size ≤ Word.maxUnsigned := by
  have hmax : Word.maxSigned ≤ Word.maxUnsigned := by decide
  omega

theorem make_device_ends {b : DeviceBuffer} (hp : t.Populated)
    (hfit : fits → t.space * t.dtype.size ≤ Word.maxUnsigned)
    (hsize : t.space * t.dtype.size ≤ b.size) :
    (Argument.make t (.device b)).Ends fits (· = ⟨t, some (.device b)⟩) := by
  unfold Argument.make
  refine Outcome.Ends.bind (storageBytes_ends hp hfit) ?_
  rintro _ rfl
  rw [Outcome.require_pos (show _ ≤ (Storage.device b).size from hsize)]
  exact rfl

/-! ## Transfers -/

/-- The bytes that a shape spans are all that is read under it. -/
theorem ofBytes_extract (t : Shape) (bytes : Bytes) :
    (View.ofBytes t t.dtype.size (bytes.extract 0 (t.space * t.dtype.size))).Agrees
      (View.ofBytes t t.dtype.size bytes) :=
  ⟨rfl, fun _ hi => Bytes.wordAt_extract (Shape.offset_add_size_le hi)⟩

theorem hostBytes_ends {a : Argument} (h : a.Stores t v) (hp : t.Populated)
    (hfit : fits → t.space * t.dtype.size ≤ Word.maxUnsigned) :
    a.hostBytes.Ends fits fun bytes => bytes.size = t.space * t.dtype.size ∧
      (View.ofBytes t t.dtype.size bytes).Agrees v := by
  obtain ⟨rfl, b, hb, -, -, hsize, hagrees⟩ := h
  have hbuffer : a.hostBuffer = .value b := by
    unfold Argument.hostBuffer Argument.buffer
    rw [hb]
    rfl
  unfold Argument.hostBytes
  rw [hbuffer, Outcome.value_bind]
  refine Outcome.Ends.bind (storageBytes_ends hp hfit) ?_
  rintro _ rfl
  refine ⟨?_, (ofBytes_extract _ _).trans hagrees⟩
  rw [Array.size_extract]
  omega

theorem Loaded.sendHost_ends (h : Loaded F id next w rs) (hF : fits → F) {a : Argument}
    (ha : a.Stores t v) (hp : t.Populated)
    (hroom : fits → next + Device.footprint (t.space * t.dtype.size) ≤ Word.maxUnsigned ∧
      (t.space * t.dtype.size + 7) / 8 * 8 ≤ Word.maxSigned) :
    (sendHost id a w).Ends fits fun a' w' => ∃ r : Resident, a' = r.argument ∧ r.shape = t ∧
      r.tensor = v ∧ r.buffer.device = id ∧
      Loaded F id (next + Device.footprint (t.space * t.dtype.size)) w' (r :: rs) := by
  have hfit : fits → t.space * t.dtype.size ≤ Word.maxUnsigned := fun hf =>
    le_of_holdable (hroom hf).2
  unfold sendHost
  refine Action.ends_bind (P := fun bytes w' => (bytes.size = t.space * t.dtype.size ∧
    (View.ofBytes t t.dtype.size bytes).Agrees v) ∧ w' = w) (Action.ends_ofOutcome
      ((hostBytes_ends ha hp hfit).mono fun _ hbytes => ⟨hbytes, rfl⟩)) ?_
  rintro bytes _ ⟨⟨hsize, hagrees⟩, rfl⟩
  rw [ha.shape]
  unfold uploadAs
  rw [← hsize] at hroom ⊢
  refine Action.ends_bind (h.upload_ends hF hroom (le_of_eq hsize.symm)) ?_
  rintro b w₁ ⟨hb, hid, h₁⟩
  unfold place
  refine Action.ends_onRefusal (Action.ends_ofOutcome ((make_device_ends hp hfit
    (by rw [hb, hsize])).mono ?_))
  rintro _ rfl
  exact ⟨⟨b, t, v⟩, rfl, rfl, rfl, hid, h₁.congr_head hagrees⟩

theorem Loaded.download_ends (h : Loaded F id next w rs) (hF : fits → F) (hr : r ∈ rs) :
    (download r.buffer w).Ends fits fun host w' => host.address = bufferAlignment ∧
      host.bytes.size = r.buffer.size ∧
      (View.ofBytes r.shape r.shape.dtype.size host.bytes).Agrees r.tensor ∧
      Loaded F id next w' rs := by
  obtain ⟨d, hd, hnext, hholds, hmem⟩ := h.keeper hr
  unfold download
  refine Action.ends_bind (onDevice_ends hd (Device.synchronize_ends hholds hF)) ?_
  rintro _ w₁ ⟨d₁, ⟨hholds₁, hnext₁⟩, hcalled⟩
  have h₁ := h.called hcalled hholds₁ fun hid => hnext₁.trans (hnext hid)
  refine Action.ends_bind (P := fun _ w₂ => Loaded F id next w₂ rs) (h₁.congr rfl rfl) ?_
  intro key w₂ h₂
  have hzeroed : HostBuffer.zeroed key r.buffer.size =
      some (.ofBytes key (Bytes.zeros r.buffer.size)) := if_pos (hholds.holdable hmem)
  rw [Action.bind_lift_of_some hzeroed]
  obtain ⟨d₂, hd₂, hnext₂, hholds₂, -⟩ := h₂.keeper hr
  refine Action.ends_bind (onDevice_ends hd₂ (Device.copyout_ends hholds₂ hF hmem)) ?_
  rintro bytes w₃ ⟨d₃, ⟨hholds₃, hnext₃, hsize, hagrees⟩, hcalled₃⟩
  exact ⟨rfl, hsize, hagrees, h₂.called hcalled₃ hholds₃ fun hid => hnext₃.trans (hnext₂ hid)⟩

theorem Loaded.toHost_ends (h : Loaded F id next w rs) (hF : fits → F) (hr : r ∈ rs)
    (hp : r.shape.Populated) (hfit : fits → r.shape.Addressable) :
    (toHost r.argument w).Ends fits fun a w' => a.Stores r.shape r.tensor ∧
      Loaded F id next w' rs := by
  have hroom : r.shape.space * r.shape.dtype.size ≤ r.buffer.size := h.roomy hr
  have hdownload : toHost r.argument = (do
      let host ← download r.buffer
      return ← Argument.make r.shape (.host host) : Action World Argument) := rfl
  rw [hdownload]
  refine Action.ends_bind (h.download_ends hF hr) ?_
  rintro host w₁ ⟨haddress, hsize, hagrees, h₁⟩
  have hzero : host.address ≠ 0 := by
    rw [haddress]
    exact fun h => nomatch h
  have halign : host.address % r.shape.dtype.size = 0 := by
    rw [haddress]
    exact Argument.size_dvd_bufferAlignment _
  refine Action.ends_ofOutcome ((Argument.make_ends hp hfit hzero halign (by rwa [hsize])).mono ?_)
  rintro _ rfl
  exact ⟨⟨rfl, host, rfl, hzero, halign, by rwa [hsize], hagrees⟩, h₁⟩

theorem Loaded.toHost_host_ends (h : Loaded F id next w rs) {a : Argument} (ha : a.Stores t v)
    (hp : t.Populated) (hfit : fits → t.Addressable) :
    (toHost a w).Ends fits fun a' w' => a'.Stores t v ∧ Loaded F id next w' rs := by
  have hbytes := hostBytes_ends ha hp fun hf =>
    ((Shape.storageBytes_eq_some hp).mp ((hfit hf).storageBytes hp)).2
  obtain ⟨rfl, b, hb, -⟩ := ha
  have hbuffer : a.buffer = .value (.host b) := by
    unfold Argument.buffer
    rw [hb]
  unfold toHost
  rw [Action.bind_lift_of_value hbuffer]
  dsimp only
  refine Action.ends_bind (P := fun bytes w' => (bytes.size = _ ∧ _) ∧ w' = w)
    (Action.ends_ofOutcome (hbytes.mono fun _ hb => ⟨hb, rfl⟩)) ?_
  rintro bytes _ ⟨⟨hsize, hagrees⟩, rfl⟩
  refine Action.ends_bind (P := fun _ w' => Loaded F id next w' rs) (h.congr rfl rfl) ?_
  intro key w₁ h₁
  have hzero : (HostBuffer.ofBytes key bytes).address ≠ 0 := fun heq => nomatch heq
  have halign := Argument.size_dvd_bufferAlignment a.shape.dtype
  have hsize' : _ ≤ (HostBuffer.ofBytes key bytes).bytes.size := le_of_eq hsize.symm
  refine Action.ends_ofOutcome ((Argument.make_ends hp hfit hzero halign hsize').mono ?_)
  rintro _ rfl
  exact ⟨⟨rfl, _, rfl, hzero, halign, hsize', hagrees⟩, h₁⟩

theorem Loaded.toDevice_ends (h : Loaded F id next w rs) (hF : fits → F) {a : Argument}
    (ha : a.Stores t v ∨ ∃ r ∈ rs, a = r.argument ∧ r.shape = t ∧ r.tensor = v) (hp : t.Populated)
    (hfit : fits → t.Addressable)
    (hroom : fits → next + Device.footprint (t.space * t.dtype.size) ≤ Word.maxUnsigned ∧
      (t.space * t.dtype.size + 7) / 8 * 8 ≤ Word.maxSigned) :
    (toDevice id a w).Ends fits fun a' w' => ∃ r : Resident, a' = r.argument ∧ r.shape = t ∧
      r.tensor = v ∧ r.buffer.device = id ∧
      Loaded F id (next + Device.footprint (t.space * t.dtype.size)) w' (r :: rs) := by
  unfold toDevice
  rcases ha with ha | ⟨r, hr, rfl, rfl, rfl⟩
  · have hlocation : a.location ≠ some .device := by
      obtain ⟨-, b, hb, -⟩ := ha
      rw [Argument.location, hb]
      exact fun h => nomatch h
    rw [if_neg hlocation]
    exact h.sendHost_ends hF ha hp hroom
  · rw [if_pos (show r.argument.location = some .device from rfl)]
    refine Action.ends_bind (h.toHost_ends hF hr hp hfit) ?_
    rintro a w₁ ⟨ha, h₁⟩
    exact h₁.sendHost_ends hF ha hp hroom

/-! ## Launches -/

variable {op : Operator} {args : List Resident}

theorem operand_argument (r : Resident) : operand r.argument = .value r.operand := rfl

theorem mapM_operand (args : List Resident) (w : World) :
    ((args.map Resident.argument).mapM fun a : Argument =>
      (liftM (operand a) : Action World Operand)) w = .value (args.map Resident.operand) w := by
  induction args with
  | nil => rfl
  | cons r args ih =>
    rw [List.map_cons, List.mapM_cons, Action.bind_lift_of_value (operand_argument r),
      Action.bind_of_value ih]
    rfl

theorem Loaded.launch_ends (h : Loaded F id next w rs) (hF : fits → F) (hargs : args ⊆ on id rs)
    (hinfers : Operator.Infers op (args.map Resident.shape) t) (hc : op.isCompute = true)
    (hp : ∀ s ∈ args.map Resident.shape, s.Populated) (hpt : t.Populated)
    (hfit : F → t.Addressable ∧ op.Roomy (args.map Resident.shape)) (hlist : F → t.Listable)
    (hfits : F → ∀ s ∈ args.map Resident.shape, s.Addressable)
    (hroom : fits → next + Device.footprint (t.space * t.dtype.size) ≤ Word.maxUnsigned ∧
      (t.space * t.dtype.size + 7) / 8 * 8 ≤ Word.maxSigned)
    (hd : op.denote t (args.map Resident.tensor) = some v) :
    ((BoundKernel.launch op id).compute t (args.map Resident.argument) w).Ends fits fun a w' =>
      ∃ r : Resident, a = r.argument ∧ r.shape = t ∧ r.tensor = v ∧ r.buffer.device = id ∧
        Loaded F id (next + Device.footprint (t.space * t.dtype.size)) w' (r :: rs) := by
  unfold BoundKernel.compute
  dsimp only
  have hfit' : fits → t.space * t.dtype.size ≤ Word.maxUnsigned := fun hf =>
    le_of_holdable (hroom hf).2
  refine Action.ends_bind (P := fun n w' => n = t.space * t.dtype.size ∧ w' = w)
    (Action.ends_ofOutcome ((storageBytes_ends hpt hfit').mono fun _ hn => ⟨hn, rfl⟩)) ?_
  rintro _ _ ⟨rfl, rfl⟩
  refine Action.ends_bind (h.allocate_ends hroom) ?_
  rintro b w₁ ⟨rfl, hloaded⟩
  have h₁ := hloaded t le_rfl
  obtain ⟨d₁, hd₁, hnext, hholds⟩ := h₁.target
  rw [on_cons_self (i := id) rfl] at hholds
  refine Action.ends_onRefusal ?_
  have hmake : (Argument.make t (.device ⟨id, next, t.space * t.dtype.size⟩)).Ends fits _ :=
    make_device_ends hpt hfit' le_rfl
  refine Action.ends_bind (P := fun a w' => a = Resident.argument ⟨⟨id, next, _⟩, t, v⟩ ∧ w' = w₁)
    (Action.ends_ofOutcome (hmake.mono fun _ ha => ⟨ha, rfl⟩)) ?_
  rintro _ _ ⟨rfl, rfl⟩
  rw [Action.bind_of_value (mapM_operand args _), Action.bind_lift_of_value (operand_argument _)]
  refine Action.ends_bind (onDevice_ends hd₁ (Device.launch_ends hholds trivial hF h.fresh hargs
    hinfers hc hp hpt hfit hlist hfits hd)) ?_
  rintro _ w₂ ⟨d₂, ⟨hholds₂, hnext₂⟩, hcalled⟩
  exact ⟨⟨_, t, v⟩, rfl, rfl, rfl, rfl, h₁.overwritten hcalled (hholds₂.makes_of fun _ => trivial)
    fun _ => hnext₂.trans hnext⟩

end World
end TensorGraph
