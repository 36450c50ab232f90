/-
Storage that is made anew.

A world hands out no key and no address twice.  `Ages w w'` says that what was in use in `w` is
not handed out from `w'` on, and every computation on worlds is `Onward`: whichever way it ends, it
leads to a later world.  So an argument that was known before shares its storage with no tensor
that is allocated, uploaded or downloaded afterwards, which is what the last section states.
-/
import TensorGraph.Proofs.Crossing.Lossless
import TensorGraph.Proofs.Device.Work
import TensorGraph.Proofs.Program.Limited

namespace TensorGraph

/-! ## Devices -/

namespace Device

theorem next_free (d : Device) (address : Nat) :
    (free address d).Always fun d' => d.next ≤ d'.next := by
  have hflush : (flush d).Always fun d' => d.next ≤ d'.next :=
    (counts_flush d).mono fun _ h => h.2.ge
  refine Action.always_bind hflush fun _ d₁ h₁ => ?_
  rw [Action.bind_of_value Action.get_apply]
  cases d₁.memory.find? address with
  | none => exact h₁
  | some bytes => exact h₁

theorem next_alloc (d : Device) (bytes : Nat) :
    (alloc bytes d).Always fun d' => d.next ≤ d'.next := by
  rcases alloc_cases d bytes with ⟨hvalue, -⟩ | ⟨_, -, -, hrefused⟩ | ⟨hhalt, -⟩
  · rw [hvalue]
    exact Nat.le_add_right _ _
  · rw [hrefused]
    exact le_rfl
  · rw [hhalt]
    exact trivial

theorem next_launch (d : Device) (op : Operator) (output : Operand) (inputs : List Operand) :
    (launch op output inputs d).Always fun d' => d.next ≤ d'.next := by
  rcases launch_cases d op output inputs with ⟨hvalue, -⟩ | ⟨e, hrefused⟩ | hhalt
  · rw [hvalue]
    exact le_rfl
  · rw [hrefused]
    exact le_rfl
  · rw [hhalt]
    exact trivial

end Device

/-! ## Worlds -/

namespace World

variable {v w w' : World} {id : DeviceId} {a a' c : Argument} {b : DeviceBuffer} {α β : Type}

instance (w : World) (a : Argument) : Decidable (w.Knows a) :=
  match h : a.storage with
  | none => isTrue (by simp only [Knows, h])
  | some (.host b) => decidable_of_iff (b.key < w.nextKey) (by simp only [Knows, h])
  | some (.device b) => decidable_of_iff (∃ d ∈ w.devices[b.device]?, b.address < d.next)
      (by simp only [Knows, h, Option.mem_def])

structure Ages (w w' : World) : Prop where
  nextKey : w.nextKey ≤ w'.nextKey
  devices : ∀ (id : DeviceId) d, w.devices[id]? = some d →
    ∃ d' : Device, w'.devices[id]? = some d' ∧ d.next ≤ d'.next

theorem ages_refl (w : World) : w.Ages w := ⟨le_rfl, fun _ d hd => ⟨d, hd, le_rfl⟩⟩

theorem Ages.trans {x : World} (h : w.Ages w') (h' : w'.Ages x) : w.Ages x where
  nextKey := h.nextKey.trans h'.nextKey
  devices id d hd := by
    obtain ⟨d', hd', hnext⟩ := h.devices id d hd
    obtain ⟨d'', hd'', hnext'⟩ := h'.devices id d' hd'
    exact ⟨d'', hd'', hnext.trans hnext'⟩

theorem Ages.knows (h : w.Ages w') (hc : w.Knows c) : w'.Knows c := by
  obtain ⟨s, _ | host | b⟩ := c
  · trivial
  · exact Nat.lt_of_lt_of_le hc h.nextKey
  · obtain ⟨d, hd, hlt⟩ := hc
    obtain ⟨d', hd', hnext⟩ := h.devices _ d hd
    exact ⟨d', hd', hlt.trans_le hnext⟩

theorem ages_setDevice {d d' : Device} (hd : w.devices[id]? = some d) (hnext : d.next ≤ d'.next) :
    w.Ages (w.setDevice id d') where
  nextKey := le_rfl
  devices i e he := by
    by_cases hi : i = id
    · subst hi
      rw [hd] at he
      cases he
      exact ⟨_, getElem?_setDevice hd d', hnext⟩
    · exact ⟨e, (getElem?_setDevice_of_ne hi w d').trans he, le_rfl⟩

def Onward (x : Action World α) : Prop := ∀ w, (x w).Always w.Ages

theorem Onward.ages {x : Action World α} {e : α} (h : Onward x) (hx : x w = .value e w') :
    w.Ages w' := (h w).of_leaves (Or.inl ⟨e, hx⟩)

theorem onward_bind {x : Action World α} {f : α → Action World β} (h : Onward x)
    (hf : ∀ e, Onward (f e)) : Onward (x >>= f) := fun w =>
  Action.always_bind (h w) fun e w₁ h₁ => (hf e w₁).mono fun _ h₂ => h₁.trans h₂

theorem onward_pure (e : α) : Onward (pure e) := ages_refl

theorem onward_lift (x : Outcome α) : Onward (Action.ofOutcome x) := fun w =>
  Action.always_ofOutcome x (ages_refl w)

theorem onward_refuse (e : Error) : Onward (Action.refuse e : Action World α) := ages_refl

theorem onward_halt : Onward (Action.halt : Action World α) := fun _ => trivial

theorem onward_modify {f : World → World} (h : ∀ w : World, w.Ages (f w)) :
    Onward (modify f : Action World Unit) := h

theorem onward_attempt {x : Action World α} (h : Onward x) : Onward (Action.attempt x) := fun w =>
  Action.always_attempt (h w)

theorem onward_onRefusal {x : Action World α} {cleanup : Action World Unit} (h : Onward x)
    (hcleanup : Onward cleanup) : Onward (x.onRefusal cleanup) := fun w =>
  (Action.meets_onRefusal (h w).meets fun t ht =>
    ((hcleanup t).mono fun _ ht' => ht.trans ht').meets).always (fun _ _ => id) fun _ => id

theorem onward_note (level : Level) (message : String) : Onward (note level message) :=
  onward_modify fun _ => ⟨le_rfl, (ages_refl _).devices⟩

theorem onward_freshKey : Onward freshKey := fun w => ⟨Nat.le_succ _, (ages_refl w).devices⟩

theorem onward_onDevice {call : Action Device α}
    (h : ∀ d, (call d).Always fun d' => d.next ≤ d'.next) (id : DeviceId) :
    Onward (onDevice id call) := fun _ =>
  always_onDevice fun d hd => (h d).mono fun _ hnext => ages_setDevice hd hnext

/-! ## Holders -/

theorem onward_retainBuffer (b : DeviceBuffer) : Onward (retainBuffer b) :=
  onward_modify fun _ => ⟨le_rfl, (ages_refl _).devices⟩

theorem onward_releaseBuffer (b : DeviceBuffer) : Onward (releaseBuffer b) := by
  refine onward_bind (onward_modify fun _ => ⟨le_rfl, (ages_refl _).devices⟩) fun _ => ?_
  refine onward_bind ages_refl fun w => ?_
  split
  · refine onward_bind (onward_attempt (onward_onDevice (fun d => d.next_free _) _)) fun e => ?_
    cases e with
    | ok _ => exact onward_pure ()
    | error e => exact onward_note _ _
  · exact onward_pure ()

theorem onward_retain (a : Argument) : Onward (retain a) := by
  unfold retain
  cases a.deviceBuffer? with
  | none => exact onward_pure ()
  | some b => exact onward_retainBuffer b

theorem onward_release (a : Argument) : Onward (release a) := by
  unfold release
  cases a.deviceBuffer? with
  | none => exact onward_pure ()
  | some b => exact onward_releaseBuffer b

/-! ## Copies -/

theorem onward_allocate (id : DeviceId) (size : Nat) : Onward (allocate id size) :=
  onward_bind (onward_onDevice (fun d => d.next_alloc size) id) fun _ =>
    onward_bind (onward_retainBuffer _) fun _ => onward_pure _

theorem onward_upload (id : DeviceId) (bytes : Bytes) : Onward (upload id bytes) := by
  refine onward_bind (onward_allocate id _) fun b => ?_
  have hcopy : Onward (onDevice id (Device.copyin bytes b.address)) :=
    onward_onDevice (fun d => (d.counts_copyin bytes _).mono fun _ h => h.2.ge) id
  exact onward_bind (onward_onRefusal hcopy (onward_releaseBuffer b)) fun _ => onward_pure b

theorem onward_synchronize (id : DeviceId) : Onward (onDevice id Device.synchronize) :=
  onward_onDevice (fun d => d.counts_synchronize.mono fun _ h => h.2.ge) id

theorem onward_download (b : DeviceBuffer) : Onward (download b) := by
  have hcopy : Onward (onDevice b.device (Device.copyout b.address b.size)) :=
    onward_onDevice (fun d => (d.counts_copyout _ _).mono fun _ h => h.2.ge) _
  refine onward_bind (onward_synchronize _) fun _ => onward_bind onward_freshKey fun key => ?_
  cases HostBuffer.zeroed key b.size with
  | none => exact onward_halt
  | some host => exact onward_bind (onward_pure host) fun _ =>
      onward_bind hcopy fun _ => onward_pure _

theorem onward_toHost (a : Argument) : Onward (toHost a) := by
  refine onward_bind (onward_lift a.buffer) fun s => ?_
  cases s with
  | device b => exact onward_bind (onward_download b) fun _ => onward_lift _
  | host b =>
    refine onward_bind (onward_lift a.hostBytes) fun bytes => ?_
    exact onward_bind onward_freshKey fun _ => onward_bind (onward_pure _) fun _ => onward_lift _

theorem onward_sendHost (id : DeviceId) (a : Argument) : Onward (sendHost id a) := by
  refine onward_bind (onward_lift a.hostBytes) fun bytes => ?_
  refine onward_bind (onward_upload id bytes) fun b => ?_
  exact onward_onRefusal (onward_lift _) (onward_releaseBuffer b)

theorem onward_toDevice (id : DeviceId) (a : Argument) : Onward (toDevice id a) := by
  unfold toDevice
  split
  · exact onward_bind (onward_toHost a) fun a' => onward_sendHost id a'
  · exact onward_sendHost id a

/-! ## What is new -/

theorem Knows.unshared_allocate {s : Shape} {size : Nat} (hc : w.Knows c)
    (h : allocate id size w = .value b w') :
    Argument.sharesStorage ⟨s, some (.device b)⟩ c = false := by
  obtain ⟨d, hd, -, rfl, -⟩ := allocate_eq_value h
  exact hc.unshared_device hd le_rfl

theorem Knows.unshared_sendHost (hc : w.Knows c) (h : sendHost id a w = .value a' w') :
    a'.sharesStorage c = false := by
  obtain ⟨bytes, w₁, hbytes, hsend⟩ := Action.bind_eq_value.mp h
  obtain ⟨-, rfl⟩ := Action.ofOutcome_eq_value.mp hbytes
  obtain ⟨b, w₂, hupload, hplace⟩ := Action.bind_eq_value.mp hsend
  obtain ⟨b', w₃, halloc, hcopied⟩ := Action.bind_eq_value.mp hupload
  obtain ⟨_, w₄, -, hvalue⟩ := Action.bind_eq_value.mp hcopied
  cases hvalue
  have hmake := (Action.ofOutcome_eq_value.mp (Action.onRefusal_eq_value.mp hplace)).1
  rw [Argument.shape_of_make hmake]
  exact hc.unshared_allocate halloc

theorem nextKey_le_of_download {host : HostBuffer} (h : download b w = .value host w') :
    w.nextKey ≤ host.key := by
  obtain ⟨_, w₁, hsync, hkeyed⟩ := Action.bind_eq_value.mp h
  obtain ⟨key, w₂, hkey, hmade⟩ := Action.bind_eq_value.mp hkeyed
  cases hkey
  obtain ⟨zeroed, w₃, hzeroed, hcopied⟩ := Action.bind_eq_value.mp hmade
  obtain ⟨bytes, w₄, -, hvalue⟩ := Action.bind_eq_value.mp hcopied
  cases hvalue
  have hages : w.Ages w₁ := (onward_synchronize _).ages hsync
  unfold HostBuffer.zeroed at hzeroed
  split at hzeroed
  · cases hzeroed
    exact hages.nextKey
  · cases hzeroed

theorem Knows.unshared_toHost (hc : w.Knows c) (h : toHost a w = .value a' w') :
    a'.sharesStorage c = false := by
  obtain ⟨host, w₂, hkey, hmake⟩ : ∃ host w₂, w.nextKey ≤ host.key ∧
      Action.ofOutcome (Argument.make a.shape (.host host)) w₂ = .value a' w' := by
    obtain ⟨s, w₁, hbuffer, hmoved⟩ := Action.bind_eq_value.mp h
    obtain ⟨-, rfl⟩ := Action.ofOutcome_eq_value.mp hbuffer
    cases s with
    | device b =>
      obtain ⟨host, w₂, hdownload, hmake⟩ := Action.bind_eq_value.mp hmoved
      exact ⟨host, w₂, nextKey_le_of_download hdownload, hmake⟩
    | host b =>
      obtain ⟨bytes, w₂, hbytes, hkeyed⟩ := Action.bind_eq_value.mp hmoved
      obtain ⟨-, rfl⟩ := Action.ofOutcome_eq_value.mp hbytes
      obtain ⟨key, w₃, hkey, hmake⟩ := Action.bind_eq_value.mp hkeyed
      cases hkey
      exact ⟨_, _, le_rfl, hmake⟩
  rw [Argument.shape_of_make (Action.ofOutcome_eq_value.mp hmake).1]
  exact hc.unshared_host hkey

theorem Knows.unshared_toDevice (hc : w.Knows c) (h : toDevice id a w = .value a' w') :
    a'.sharesStorage c = false := by
  unfold toDevice at h
  split at h
  · obtain ⟨host, w₁, hhost, hsend⟩ := Action.bind_eq_value.mp h
    have hc₁ : w₁.Knows c := ((onward_toHost a).ages hhost).knows hc
    exact hc₁.unshared_sendHost hsend
  · exact hc.unshared_sendHost h

end World
end TensorGraph
