/-
Device memory is given back exactly once.

A client makes tensors and programs and drops them, in any order, and any of its calls may be
refused at any point.  It never allocates or frees on a device itself.  `Calls` are its calls on
what it has in a session; `Client.Step` adds those on buffers that it has not made tensors of
yet.  Every call leaves the holders that the client can name (`Session.Tracked`), and so after
each the counts of a device are those of the buffers that are still held.
-/
import TensorGraph.Proofs.Ownership.Session

namespace TensorGraph

open World (Holding)

variable {α : Type} {bs : List DeviceBuffer} {s s' : Session} {a : Argument} {b : DeviceBuffer}

theorem World.Holding.addDevice {w : World} {H : List DeviceBuffer} (h : Holding w H)
    (capacity : Option Nat) (unsupported : List Dtype) :
    Holding { w with
      devices := w.devices ++ [{ capacity := capacity, unsupported := unsupported }] } H := by
  refine ⟨⟨?_, fun b => ?_⟩, h.perm⟩
  · rw [List.forall_mem_append, List.forall_mem_singleton]
    exact ⟨h.accounted.balanced, Device.balanced_new capacity unsupported⟩
  · refine (h.accounted.held_iff b).trans ⟨?_, ?_⟩
    · rintro ⟨d, hd, hmem⟩
      refine ⟨d, ?_, hmem⟩
      rwa [List.getElem?_append_left (List.getElem?_eq_some_iff.mp hd).1]
    · rintro ⟨d, hd, hmem⟩
      by_cases hlt : b.device < w.devices.length
      · rw [List.getElem?_append_left hlt] at hd
        exact ⟨d, hd, hmem⟩
      · rw [List.getElem?_append_right (Nat.not_lt.mp hlt)] at hd
        have hnew := List.mem_singleton.mp (List.mem_of_getElem? hd)
        rw [hnew] at hmem
        cases hmem

namespace Session

theorem Tracked.onDevice (h : Tracked bs s) (name : String) {call : DeviceId → Action World α}
    {gives : α → List DeviceBuffer}
    (hcall : ∀ id, World.Conserves gives (bs ++ s.holdings) (call id s.world)) :
    Conserves gives bs (onDevice name call s) := by
  unfold Session.onDevice
  rw [Action.bind_of_value Action.get_apply]
  cases s.devices.lookup name with
  | none => exact trivial
  | some id => exact h.inWorld (hcall id)

theorem Tracked.addDevice (h : Tracked bs s) (name : String) (capacity : Option Nat)
    (unsupported : List Dtype) : Conserves (fun _ => []) bs
      (addDevice name { capacity := capacity, unsupported := unsupported } s) := by
  refine Action.meets_bind (P := fun _ => Tracked bs) (inWorld_meets ?_)
    fun id s₁ h₁ => ⟨h₁.holding, h₁.arguments, h₁.programs, h₁.uncompiled⟩
  exact h.world (h.holding.addDevice capacity unsupported)

/-! ## Calls -/

inductive Makes (s : Session) : Action Session Argument → Prop
  | host {a : Argument} : a.holds = [] → Makes s (pure a)
  | share {slot : String} {a : Argument} : s.arguments.lookup slot = some a → Makes s (share a)
  | withShape {slot : String} {a : Argument} {shape : Shape} :
      s.arguments.lookup slot = some a → Makes s (withShape a shape)
  | toHost {slot : String} {a : Argument} :
      s.arguments.lookup slot = some a → Makes s (inWorld (World.toHost a))
  | toDevice {name slot : String} {a : Argument} :
      s.arguments.lookup slot = some a → Makes s (onDevice name fun id => World.toDevice id a)
  | eval {name : String} {params : Parameters} :
      (∀ n a, params.lookup n = some a → ∃ slot, s.arguments.lookup slot = some a) →
      Makes s (eval name params)

theorem Makes.conserves {x : Action Session Argument} (hx : Makes s x) (h : Tracked bs s) :
    Conserves Argument.holds bs (x s) := by
  cases hx with
  | host ha =>
    show Tracked _ s
    rwa [ha]
  | share ha => exact h.share fun b hb => List.mem_append_right bs (holds_subset ha hb)
  | withShape ha => exact h.withShape (fun b hb => List.mem_append_right bs (holds_subset ha hb)) _
  | toHost => exact h.inWorld (h.holding.toHost _)
  | toDevice => exact h.onDevice _ fun id => h.holding.toDevice id _
  | eval hparams => exact h.eval _ hparams

/-- The calls of a client on what it has in a session.  Those that change memory on a device
directly only copy and compute. -/
inductive Calls (s : Session) : {α : Type} → Action Session α → Prop
  | addDevice {name : String} {capacity : Option Nat} {unsupported : List Dtype} :
      Calls s (addDevice name { capacity := capacity, unsupported := unsupported })
  | make {x : Action Session Argument} {slot : Option String} :
      Makes s x → Calls s (x >>= settle slot)
  | drop {slot : String} : Calls s (drop slot)
  | addParameter {name param : String} {shape : Shape} :
      Calls s (onProgram name (Program.addParameter param shape))
  | addInstruction {name : String} {op : Operator} {inputs : List Nat} :
      Calls s (onProgram name (Program.addInstruction op inputs))
  | addLiteral {name : String} {l : Literal} : Calls s (addLiteral name l)
  | compile {name : String} {t : Target} : Calls s (compile name t)
  | runPass {name : String} {pass : Pass} : Calls s (runPass name pass)
  | copyProgram {source target : String} : Calls s (copyProgram source target)
  | dropProgram {name : String} : Calls s (dropProgram name)
  | check {name : String} {params : Parameters} : Calls s (check name params)
  | download {slot : String} {a : Argument} {b : DeviceBuffer} :
      s.arguments.lookup slot = some a → a.deviceBuffer? = some b →
      Calls s (inWorld (World.download b))
  | copyin {name : String} {bytes : Bytes} {address : Nat} :
      Calls s (onDevice name fun id => World.onDevice id (Device.copyin bytes address))
  | copyout {name : String} {address len : Nat} :
      Calls s (onDevice name fun id => World.onDevice id (Device.copyout address len))
  | launch {name : String} {op : Operator} {output : Operand} {inputs : List Operand} :
      Calls s (onDevice name fun id => World.onDevice id (Device.launch op output inputs))
  | synchronize {name : String} :
      Calls s (onDevice name fun id => World.onDevice id Device.synchronize)
  | takeLog : Calls s takeLog
  | configure {settings : Settings} :
      Calls s (inWorld (modify fun w => { w with settings := settings }))

theorem Conserves.always {x : Turn Session α} (h : Conserves (fun _ => []) bs x) :
    x.Always (Tracked bs) := Turn.Meets.always h (fun _ _ hs => hs) fun _ hs => hs

/-- What is made is kept under a name or let go of. -/
theorem Conserves.settle {x : Action Session Argument} (h : Conserves Argument.holds bs (x s))
    (slot : Option String) : ((x >>= settle slot) s).Always (Tracked bs) :=
  Turn.Meets.always (Action.meets_bind h fun _ _ h₁ => h₁.settle slot) (fun _ _ hs => hs)
    fun _ hs => hs

/-- A call leaves the holders that its session names, whether it is refused or not. -/
theorem Calls.always {x : Action Session α} (hx : Calls s x) (h : Tracked bs s) :
    (x s).Always (Tracked bs) := by
  cases hx with
  | addDevice => exact (h.addDevice _ _ _).always
  | make hmake => exact (hmake.conserves h).settle _
  | drop => exact (h.drop _).always
  | addParameter => exact (h.onProgram _ (Program.grows_addParameter _ _)).always
  | addInstruction => exact (h.onProgram _ (Program.grows_addInstruction _ _)).always
  | addLiteral => exact (h.addLiteral _ _).always
  | compile => exact (h.compile _ _).always
  | runPass => exact (h.runPass _ _).always
  | copyProgram => exact (h.copyProgram _ _).always
  | dropProgram => exact (h.dropProgram _).always
  | check => exact (h.check _ _).always
  | download => exact (h.inWorld (h.holding.download _)).always
  | copyin =>
    exact (h.onDevice _ fun id => h.holding.onDevice id fun d hd => hd.copyin _ _).always
  | copyout =>
    exact (h.onDevice _ fun id => h.holding.onDevice id fun d hd => hd.copyout _ _).always
  | launch =>
    exact (h.onDevice _ fun id => h.holding.onDevice id fun d _ => d.unmoved_launch _ _ _).always
  | synchronize =>
    exact (h.onDevice _ fun id => h.holding.onDevice id fun d hd => hd.synchronize).always
  | takeLog => exact h.world (h.holding.congr rfl rfl)
  | configure => exact h.world (h.holding.congr rfl rfl)

end Session

/-! ## Clients -/

/-- A session and the device buffers of its user that no tensor was made of yet, one entry for
each handle. -/
structure Client where
  session : Session := {}
  buffers : List DeviceBuffer := []

namespace Client

open Session (Calls)

variable {c c' : Client}

def holdings (c : Client) : List DeviceBuffer := c.buffers ++ c.session.holdings

inductive Acquires (id : DeviceId) : Action World DeviceBuffer → Prop
  | allocate {size : Nat} : Acquires id (World.allocate id size)
  | upload {bytes : Bytes} : Acquires id (World.upload id bytes)

inductive Step : Client → Client → Prop
  | call {s s' : Session} {bs : List DeviceBuffer} {α : Type} {x : Action Session α} :
      s.Calls x → (x s).Leaves s' → Step ⟨s, bs⟩ ⟨s', bs⟩
  | acquire {s s' : Session} {bs : List DeviceBuffer} {name : String} {b : DeviceBuffer}
      {x : DeviceId → Action World DeviceBuffer} : (∀ id, Acquires id (x id)) →
      Session.onDevice name x s = .value b s' → Step ⟨s, bs⟩ ⟨s', b :: bs⟩
  | acquireRefused {s s' : Session} {bs : List DeviceBuffer} {name : String} {e : Error}
      {x : DeviceId → Action World DeviceBuffer} : (∀ id, Acquires id (x id)) →
      Session.onDevice name x s = .refused e s' → Step ⟨s, bs⟩ ⟨s', bs⟩
  | share {s s' : Session} {bs : List DeviceBuffer} {b : DeviceBuffer} :
      b ∈ bs → (Session.inWorld (World.retainBuffer b) s).Leaves s' → Step ⟨s, bs⟩ ⟨s', b :: bs⟩
  | release {s s' : Session} {bs : List DeviceBuffer} {b : DeviceBuffer} :
      b ∈ bs → (Session.inWorld (World.releaseBuffer b) s).Leaves s' →
      Step ⟨s, bs⟩ ⟨s', bs.erase b⟩
  | place {s s' : Session} {bs : List DeviceBuffer} {b : DeviceBuffer} {shape : Shape}
      {slot : Option String} : b ∈ bs →
      ((Session.inWorld (World.place shape b) >>= Session.settle slot) s).Leaves s' →
      Step ⟨s, bs⟩ ⟨s', bs.erase b⟩

def Reached (c : Client) : Prop := Relation.ReflTransGen Step {} c

theorem Acquires.conserves {w : World} {H : List DeviceBuffer} {id : DeviceId}
    {x : Action World DeviceBuffer} (hx : Acquires id x) (h : Holding w H) :
    World.Conserves (fun b => [b]) H (x w) := by
  cases hx with
  | allocate => exact h.allocate id _
  | upload => exact h.upload id _

/-- Every call leaves the holders that the client can name. -/
theorem Step.tracked (hstep : Step c c') (h : Session.Tracked c.buffers c.session) :
    Session.Tracked c'.buffers c'.session := by
  cases hstep with
  | call hx hleaves => exact (hx.always h).of_leaves hleaves
  | @acquire s s' bs name b x hx hvalue =>
    have hconserves := h.onDevice name fun id => (hx id).conserves h.holding
    rw [hvalue] at hconserves
    exact hconserves
  | @acquireRefused s s' bs name e x hx hrefused =>
    have hconserves := h.onDevice name fun id => (hx id).conserves h.holding
    rw [hrefused] at hconserves
    exact hconserves
  | @share s s' bs b hb hleaves =>
    have hmeets : (Session.inWorld (World.retainBuffer b) s).Meets
        (fun _ => Session.Tracked (b :: bs)) fun _ => False :=
      Session.inWorld_meets ((h.holding.retainBuffer (List.mem_append_left _ hb)).mono
        (fun _ w hw => show Session.Tracked (b :: bs) _ from h.world hw) fun _ => id)
    exact (hmeets.always (fun _ _ hs => hs) fun _ => False.elim).of_leaves hleaves
  | @release s s' bs b hb hleaves =>
    have hb' : Session.Tracked ([b] ++ bs.erase b) s := h.trans (List.perm_cons_erase hb)
    have hmeets : (Session.inWorld (World.releaseBuffer b) s).Meets
        (fun _ => Session.Tracked (bs.erase b)) fun _ => False :=
      hb'.leads fun hholding => hholding.releaseBuffer
    exact (hmeets.always (fun _ _ hs => hs) fun _ => False.elim).of_leaves hleaves
  | @place s s' bs b shape slot hb hleaves =>
    have hb' : Session.Tracked (b :: bs.erase b) s := h.trans (List.perm_cons_erase hb)
    exact ((hb'.place shape).settle slot).of_leaves hleaves

theorem Reached.tracked (h : Reached c) : Session.Tracked c.buffers c.session := by
  induction h with
  | refl => exact Session.tracked_empty
  | tail _ hstep ih => exact hstep.tracked ih

/-- The buffers of a device that somebody holds, each once. -/
def heldOn (id : DeviceId) (c : Client) : List DeviceBuffer :=
  (c.holdings.filter fun b => b.device = id).dedup

/-- What is held of a device is what is allocated on it. -/
theorem layout_perm_heldOn {id : DeviceId} {d : Device}
    (h : c.session.world.Holding c.holdings) (hd : c.session.world.devices[id]? = some d) :
    d.memory.layout.Perm ((c.heldOn id).map fun b => (b.address, b.size)) := by
  have hbalanced := h.accounted.balanced d (List.mem_of_getElem? hd)
  have hnd : d.memory.layout.Nodup := by
    refine List.Nodup.of_map Prod.fst ?_
    rw [Memory.map_fst_layout]
    exact hbalanced.nodup
  have hmem : ∀ b, b ∈ c.heldOn id ↔ b.device = id ∧ (b.address, b.size) ∈ d.memory.layout := by
    intro b
    unfold heldOn
    rw [List.mem_dedup, List.mem_filter, decide_eq_true_iff, and_comm]
    refine and_congr_right fun hb => ?_
    rw [← h.perm.mem_iff]
    exact h.accounted.mem_layout hd hb
  refine (List.perm_ext_iff_of_nodup hnd ((List.nodup_dedup _).map_on ?_)).mpr fun e => ?_
  · intro b hb b' hb' heq
    obtain ⟨device, address, size⟩ := b
    obtain ⟨device', address', size'⟩ := b'
    have hdevice : device = device' := ((hmem _).mp hb).1.trans ((hmem _).mp hb').1.symm
    cases hdevice
    cases heq
    rfl
  · rw [List.mem_map]
    constructor
    · exact fun he => ⟨⟨id, e.1, e.2⟩, (hmem _).mpr ⟨rfl, he⟩, rfl⟩
    · rintro ⟨b, hb, rfl⟩
      exact ((hmem b).mp hb).2

/-- After every call the live allocations of a device are the buffers of it that are still held,
each counted once however many hold it; all others were freed, and nothing was freed twice.  When
nothing is held any more, everything was freed. -/
theorem reached_counts (h : Reached c) {id : DeviceId} {d : Device}
    (hd : c.session.world.devices[id]? = some d) :
    d.stats.live = (c.heldOn id).length ∧
    d.stats.liveBytes = ((c.heldOn id).map DeviceBuffer.size).sum ∧
    d.stats.frees + d.stats.live = d.stats.allocations ∧
    d.stats.invalidFrees = 0 ∧
    (c.holdings = [] → d.stats.live = 0 ∧ d.stats.frees = d.stats.allocations) := by
  have hholding := h.tracked.holding
  have hbalanced := hholding.accounted.balanced d (List.mem_of_getElem? hd)
  have hperm := layout_perm_heldOn hholding hd
  have hlive : d.stats.live = (c.heldOn id).length := by
    rw [hbalanced.live, hperm.length_eq, List.length_map]
  have hcounts : d.stats.frees + d.stats.live = d.stats.allocations := hbalanced.allocations.symm
  refine ⟨hlive, ?_, hcounts, hbalanced.invalidFrees, fun hnil => ?_⟩
  · rw [hbalanced.liveBytes, (hperm.map Prod.snd).sum_eq, List.map_map]
    rfl
  · have hzero : d.stats.live = 0 := by
      rw [hlive, heldOn, hnil]
      rfl
    rw [hzero] at hcounts
    exact ⟨hzero, hcounts⟩

def twoBytes : Shape := ⟨.uint8, [⟨2, 1⟩]⟩

/-- A tensor shares its buffer with a handle: the buffer is live once, until both are gone. -/
theorem reached_counts_shared :
    (∃ c d, Reached c ∧ c.session.world.devices[0]? = some d ∧ c.holdings.length = 2 ∧
      d.stats.live = (c.heldOn 0).length ∧ d.stats.live = 1) ∧
    ∃ c d, Reached c ∧ c.session.world.devices[0]? = some d ∧ d.stats.allocations = 1 ∧
      d.stats.live = 0 ∧ d.stats.frees = d.stats.allocations := by
  let b : DeviceBuffer := ⟨0, 4096, 2⟩
  have hadded : Reached ⟨_, []⟩ := Relation.ReflTransGen.single
    (.call (@Calls.addDevice {} "d" none []) (.inl ⟨_, rfl⟩))
  have huploaded := hadded.tail
    (.acquire (fun id => @Acquires.upload id #[1, 2]) (rfl : Session.onDevice "d" _ _ = _))
  have hshared := (huploaded.tail
    (@Step.share _ _ _ b List.mem_cons_self (.inl ⟨_, rfl⟩))).tail
    (@Step.place _ _ _ b twoBytes (some "x") List.mem_cons_self (.inl ⟨_, rfl⟩))
  obtain ⟨c, hgone, hnil, d, hd, hallocations⟩ : ∃ c, Reached c ∧ c.holdings = [] ∧
      ∃ d, c.session.world.devices[0]? = some d ∧ d.stats.allocations = 1 :=
    ⟨_, (hshared.tail (.call (@Calls.drop _ "x") (.inl ⟨_, rfl⟩))).tail
      (@Step.release _ _ _ b List.mem_cons_self (.inl ⟨_, rfl⟩)), rfl, _, rfl, rfl⟩
  obtain ⟨hlive, hfrees⟩ := (reached_counts hgone hd).2.2.2.2 hnil
  exact ⟨⟨_, _, hshared, rfl, rfl, (reached_counts hshared rfl).1, rfl⟩,
    c, d, hgone, hd, hallocations, hlive, hfrees⟩

end Client
end TensorGraph
