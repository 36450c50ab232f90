/-
Arguments of a client are backed by their storage.

A client makes arguments by the constructors and gets others from them: views, copies across the
boundary of a device, results of programs.  Whatever it does, every argument that it has is
backed by its storage, so a reader that follows the strides stays inside: `backed_of_used`.  For
a buffer on a device that storage is live, with as many bytes as the buffer says.
-/
import TensorGraph.Proofs.Ownership.Client
import TensorGraph.Proofs.Program.Backed

namespace TensorGraph

/-- The arguments that constructors make without a device. -/
inductive Argument.Constructed : Argument → Prop
  | make {shape : Shape} {b : HostBuffer} {a : Argument} :
      Argument.make shape (.host b) = .value a → Constructed a
  | ofElements {key : Nat} {shape : Shape} {d : Dtype} {elements : List Nat} {a : Argument} :
      Argument.ofElements key shape d elements = .value a → Constructed a
  | ofTensor {key : Nat} {d : Dtype} {t : Tensor} {a : Argument} :
      t.Complete → Argument.ofTensor key d t = some a → Constructed a
  | ofFile {key : Nat} {shape : Shape} {contents : Option Bytes} {a : Argument} :
      Argument.ofFile key shape contents = .value a → Constructed a
  | ofLiteral {l : Literal} : l.Made → Constructed (.ofLiteral l)
  | absent {shape : Shape} : Constructed (.absent shape)

namespace Argument

variable {a : Argument}

theorem Constructed.backed (h : a.Constructed) : a.Backed := by
  cases h with
  | make h => exact backed_of_make h
  | ofElements h => exact backed_of_ofElements h
  | ofTensor ht h => exact backed_of_ofTensor ht h
  | ofFile h => exact backed_of_ofFile h
  | ofLiteral h => exact backed_ofLiteral h
  | absent => exact backed_absent _

/-- No device buffer is held without a device. -/
theorem Constructed.holds (h : a.Constructed) : a.holds = [] := by
  cases h with
  | make h =>
    rw [shape_of_make h]
    rfl
  | ofElements h =>
    unfold Argument.ofElements at h
    obtain ⟨l, -, h⟩ := Outcome.bind_eq_value.mp h
    cases h
    rfl
  | ofTensor _ h => exact holds_of_ofTensor h
  | ofFile h =>
    unfold Argument.ofFile at h
    split at h
    · rw [shape_of_make h]
      rfl
    · cases h
  | ofLiteral => rfl
  | absent => rfl

end Argument

namespace Session

variable {α : Type} {s s' : Session} {a : Argument} {p : Program} {name : String}

structure Backed (s : Session) : Prop where
  arguments : ∀ e ∈ s.arguments, e.2.Backed
  programs : ∀ e ∈ s.programs, e.2.Backed

/-- Whether a call gives something right and leaves a session backed, also when it is refused. -/
def KeepsBacked (P : α → Prop) (x : Turn Session α) : Prop :=
  x.Meets (fun a s => P a ∧ s.Backed) Backed

theorem KeepsBacked.always {P : α → Prop} {x : Turn Session α} (h : KeepsBacked P x) :
    x.Always Backed := Turn.Meets.always h (fun _ _ hs => hs.2) fun _ hs => hs

theorem forall_mem_assign {β : Type} {P : β → Prop} {values : List (String × β)} {v : β}
    (h : ∀ e ∈ values, P e.2) (hv : P v) : ∀ e ∈ assign name v values, P e.2 := by
  induction values with
  | nil => exact List.forall_mem_singleton.mpr hv
  | cons e values ih =>
    rw [List.forall_mem_cons] at h
    unfold assign
    split
    · exact List.forall_mem_cons.mpr ⟨hv, h.2⟩
    · exact List.forall_mem_cons.mpr ⟨h.1, ih h.2⟩

theorem Backed.assignArgument (h : s.Backed) (name : String) (ha : a.Backed) :
    Backed { s with arguments := assign name a s.arguments } :=
  ⟨forall_mem_assign h.arguments ha, h.programs⟩

theorem Backed.assignProgram (h : s.Backed) (name : String) (hp : p.Backed) :
    Backed { s with programs := assign name p s.programs } :=
  ⟨h.arguments, forall_mem_assign h.programs hp⟩

theorem Backed.lookup (h : s.Backed) (ha : s.arguments.lookup name = some a) : a.Backed :=
  h.arguments _ (mem_of_lookup ha)

/-! ## Calls -/

theorem Backed.inWorld (h : s.Backed) {x : Action World α} {P : α → Prop}
    (hx : ∀ a w, x s.world = .value a w → P a) : KeepsBacked P (inWorld x s) := by
  refine inWorld_meets ?_
  cases hturn : x s.world with
  | value a w => exact ⟨hx a w hturn, h.arguments, h.programs⟩
  | refused e w => exact ⟨h.arguments, h.programs⟩
  | halted => exact trivial

theorem Backed.touch (h : s.Backed) (x : Action World α) :
    KeepsBacked (fun _ => True) (Session.inWorld x s) := h.inWorld fun _ _ _ => trivial

theorem Backed.onDevice (h : s.Backed) {call : DeviceId → Action World α} {P : α → Prop}
    (hcall : ∀ id a w, call id s.world = .value a w → P a) :
    KeepsBacked P (onDevice name call s) := by
  unfold Session.onDevice
  rw [Action.bind_of_value Action.get_apply]
  cases s.devices.lookup name with
  | none => exact trivial
  | some id => exact h.inWorld (hcall id)

theorem Backed.share (h : s.Backed) (ha : a.Backed) : KeepsBacked Argument.Backed (share a s) :=
  Action.meets_bind (h.touch (World.retain a)) fun _ _ hs => ⟨ha, hs.2⟩

theorem Backed.withShape (h : s.Backed) (a : Argument) (shape : Shape) :
    KeepsBacked Argument.Backed (withShape a shape s) := by
  refine Action.meets_bind (P := fun b s' => b.Backed ∧ s'.Backed)
    (Action.meets_ofOutcome (fun b hb => ⟨Argument.backed_of_withShape hb, h⟩) h) ?_
  exact fun b s₁ h₁ => h₁.2.share h₁.1

theorem Backed.place (h : s.Backed) (shape : Shape) (b : DeviceBuffer) :
    KeepsBacked Argument.Backed (Session.inWorld (World.place shape b) s) :=
  h.inWorld fun _ _ hvalue => World.backed_of_place hvalue

theorem Backed.program (h : s.Backed) (name : String) :
    KeepsBacked Program.Backed (program name s) := by
  unfold Session.program
  rw [Action.bind_of_value Action.get_apply]
  cases hp : s.programs.lookup name with
  | some p => exact ⟨h.programs _ (mem_of_lookup hp), h⟩
  | none =>
    have hempty : Program.Backed {} := fun _ hi => nomatch hi
    exact ⟨hempty, h.assignProgram name hempty⟩

theorem Backed.onProgram (h : s.Backed) {x : Action Program α} (hx : Program.KeepsBacked x) :
    KeepsBacked (fun _ => True) (onProgram name x s) := by
  refine Action.meets_bind (h.program name) fun p s₁ h₁ => Action.meets_zoom ?_
  have hp : ((s₁.programs.lookup name).getD {}).Backed := by
    cases hlookup : s₁.programs.lookup name with
    | none => exact fun _ hi => nomatch hi
    | some q => exact h₁.2.programs _ (mem_of_lookup hlookup)
  have hends := hx _ hp
  cases hturn : x ((s₁.programs.lookup name).getD {}) with
  | value a q =>
    rw [hturn] at hends
    exact ⟨trivial, h₁.2.assignProgram name hends⟩
  | refused e q =>
    rw [hturn] at hends
    exact h₁.2.assignProgram name hends
  | halted => exact trivial

theorem Backed.drop (h : s.Backed) (name : String) : KeepsBacked (fun _ => True) (drop name s) := by
  unfold Session.drop
  rw [Action.bind_of_value Action.get_apply]
  cases s.arguments.lookup name with
  | none => exact ⟨trivial, h⟩
  | some a =>
    show ((modify _ >>= fun _ => _ : Action Session Bool) s).Meets _ _
    rw [Action.bind_of_value (Action.modify_apply _)]
    have hrest : (s.withoutArgument name).Backed :=
      ⟨fun e he => h.arguments e (List.mem_of_mem_filter he), h.programs⟩
    exact Action.meets_bind (hrest.touch (World.release a)) fun _ _ hs => hs

theorem Backed.settle (h : s.Backed) (ha : a.Backed) (slot : Option String) :
    KeepsBacked (fun _ => True) (settle slot a s) := by
  cases slot with
  | none => exact h.touch (World.release a)
  | some name =>
    show KeepsBacked _ (keep name a s)
    unfold keep
    rw [Action.bind_of_value Action.get_apply]
    show ((modify _ >>= fun _ => _ : Action Session Unit) s).Meets _ _
    rw [Action.bind_of_value (Action.modify_apply _)]
    have hassigned := h.assignArgument name ha
    cases s.arguments.lookup name with
    | none => exact ⟨trivial, hassigned⟩
    | some b => exact hassigned.touch (World.release b)

theorem Backed.addLiteral (h : s.Backed) {l : Literal} (hl : l.Made) :
    KeepsBacked (fun _ => True) (addLiteral name l s) := by
  refine Action.meets_bind (h.program name) fun p s₁ h₁ => ?_
  refine Action.meets_bind (h₁.2.inWorld (P := fun r : Program × Nat => r.1.Backed)
    fun r w hr => h₁.1.addLiteral hl hr) fun r s₂ h₂ => ?_
  exact ⟨trivial, h₂.2.assignProgram name h₂.1⟩

theorem Backed.compile (h : s.Backed) (t : Target) :
    KeepsBacked (fun _ => True) (compile name t s) := by
  refine Action.meets_bind (h.program name) fun p s₁ h₁ => ?_
  refine Action.meets_bind (h₁.2.inWorld fun q w hq => h₁.1.compile hq) fun q s₂ h₂ => ?_
  exact ⟨trivial, h₂.2.assignProgram name h₂.1⟩

theorem Backed.runPass (h : s.Backed) (pass : Pass) :
    KeepsBacked (fun _ => True) (runPass name pass s) := by
  refine Action.meets_bind (h.program name) fun p s₁ h₁ => ?_
  refine Action.meets_bind (h₁.2.inWorld (P := fun r : Program × Option Error => r.1.Backed)
    fun r w hr => h₁.1.pass hr) ?_
  rintro ⟨q, stopped⟩ s₂ h₂
  cases stopped with
  | none => exact ⟨trivial, h₂.2.assignProgram name h₂.1⟩
  | some e => exact h₂.2.assignProgram name h₂.1

theorem Backed.copyProgram (h : s.Backed) (source target : String) :
    KeepsBacked (fun _ => True) (copyProgram source target s) := by
  refine Action.meets_bind (h.program source) fun p s₁ h₁ => ?_
  refine Action.meets_bind (h₁.2.touch (World.retainProgram p)) fun _ s₂ h₂ => ?_
  rw [Action.bind_of_value Action.get_apply]
  show ((modify _ >>= fun _ => _ : Action Session Unit) s₂).Meets _ _
  rw [Action.bind_of_value (Action.modify_apply _)]
  have hassigned := h₂.2.assignProgram target h₁.1
  cases s₂.programs.lookup target with
  | none => exact ⟨trivial, hassigned⟩
  | some q => exact hassigned.touch (World.releaseProgram q)

theorem Backed.dropProgram (h : s.Backed) (name : String) :
    KeepsBacked (fun _ => True) (dropProgram name s) := by
  unfold Session.dropProgram
  rw [Action.bind_of_value Action.get_apply]
  cases s.programs.lookup name with
  | none => exact ⟨trivial, h⟩
  | some p =>
    show ((modify _ >>= fun _ => _ : Action Session Bool) s).Meets _ _
    rw [Action.bind_of_value (Action.modify_apply _)]
    have hrest : (s.withoutProgram name).Backed :=
      ⟨h.arguments, fun e he => h.programs e (List.mem_of_mem_filter he)⟩
    exact Action.meets_bind (hrest.touch (World.releaseProgram p)) fun _ _ hs => hs

/-! ## What a client can call -/

inductive Obtains (s : Session) : Action Session Argument → Prop
  | constructed {a : Argument} : a.Constructed → Obtains s (pure a)
  | share {slot : String} {a : Argument} :
      s.arguments.lookup slot = some a → Obtains s (share a)
  | withShape {slot : String} {a : Argument} {shape : Shape} :
      s.arguments.lookup slot = some a → Obtains s (withShape a shape)
  | toHost {slot : String} {a : Argument} :
      s.arguments.lookup slot = some a → Obtains s (inWorld (World.toHost a))
  | toDevice {name slot : String} {a : Argument} : s.arguments.lookup slot = some a →
      Obtains s (onDevice name fun id => World.toDevice id a)
  | eval {name : String} {params : Parameters} :
      (∀ n a, params.lookup n = some a → ∃ slot, s.arguments.lookup slot = some a) →
      Obtains s (eval name params)

theorem Obtains.makes {x : Action Session Argument} (h : s.Obtains x) : s.Makes x := by
  cases h with
  | constructed ha => exact .host ha.holds
  | share ha => exact .share ha
  | withShape ha => exact .withShape ha
  | toHost ha => exact .toHost ha
  | toDevice ha => exact .toDevice ha
  | eval hparams => exact .eval hparams

/-- What is made is backed by its storage. -/
theorem Obtains.keepsBacked {x : Action Session Argument} (hx : s.Obtains x) (h : s.Backed) :
    KeepsBacked Argument.Backed (x s) := by
  cases hx with
  | constructed ha => exact ⟨ha.backed, h⟩
  | share ha => exact h.share (h.lookup ha)
  | withShape ha => exact h.withShape _ _
  | toHost ha => exact h.inWorld fun _ _ hvalue => World.backed_of_toHost hvalue
  | toDevice ha => exact h.onDevice fun _ _ _ hvalue => World.backed_of_toDevice hvalue
  | @eval name params hparams =>
    refine Action.meets_bind (h.program name) fun p s₁ h₁ => h₁.2.inWorld fun a w hvalue => ?_
    refine h₁.1.run (fun n b hb => ?_) hvalue
    obtain ⟨slot, hslot⟩ := hparams n b hb
    exact h.lookup hslot

/-- What is made is backed, so whether it is kept or not the session stays backed. -/
theorem KeepsBacked.settle {x : Action Session Argument} (h : KeepsBacked Argument.Backed (x s))
    (slot : Option String) : ((x >>= Session.settle slot) s).Always Backed :=
  KeepsBacked.always (P := fun _ => True)
    (Action.meets_bind h fun _ _ h₁ => h₁.2.settle h₁.1 slot)

/-- The calls of a client whose arguments and literals come from constructors. -/
inductive Uses (s : Session) : {α : Type} → Action Session α → Prop
  | make {x : Action Session Argument} {slot : Option String} :
      s.Obtains x → Uses s (x >>= settle slot)
  | drop {slot : String} : Uses s (drop slot)
  | addDevice {name : String} {capacity : Option Nat} {unsupported : List Dtype} :
      Uses s (addDevice name { capacity := capacity, unsupported := unsupported })
  | addParameter {name param : String} {shape : Shape} :
      Uses s (onProgram name (Program.addParameter param shape))
  | addInstruction {name : String} {op : Operator} {inputs : List Nat} :
      (∀ l, op = .literal l → l.Made) →
      Uses s (onProgram name (Program.addInstruction op inputs))
  | addLiteral {name : String} {l : Literal} : l.Made → Uses s (addLiteral name l)
  | compile {name : String} {t : Target} : Uses s (compile name t)
  | runPass {name : String} {pass : Pass} : Uses s (runPass name pass)
  | copyProgram {source target : String} : Uses s (copyProgram source target)
  | dropProgram {name : String} : Uses s (dropProgram name)
  | check {name : String} {params : Parameters} : Uses s (check name params)
  | inWorld {α : Type} {x : Action World α} : s.Calls (inWorld x) → Uses s (inWorld x)
  | onDevice {α : Type} {name : String} {x : DeviceId → Action World α} :
      s.Calls (onDevice name x) → Uses s (onDevice name x)
  | takeLog : Uses s takeLog

theorem Uses.calls {x : Action Session α} (h : s.Uses x) : s.Calls x := by
  cases h with
  | make hx => exact .make hx.makes
  | drop => exact .drop
  | addDevice => exact .addDevice
  | addParameter => exact .addParameter
  | addInstruction => exact .addInstruction
  | addLiteral => exact .addLiteral
  | compile => exact .compile
  | runPass => exact .runPass
  | copyProgram => exact .copyProgram
  | dropProgram => exact .dropProgram
  | check => exact .check
  | inWorld hx => exact hx
  | onDevice hx => exact hx
  | takeLog => exact .takeLog

/-- Every call leaves a session backed, whether it is refused or not. -/
theorem Uses.always_backed {x : Action Session α} (hx : s.Uses x) (h : s.Backed) :
    (x s).Always Backed := by
  cases hx with
  | make hx => exact (hx.keepsBacked h).settle _
  | drop => exact (h.drop _).always
  | addDevice =>
    refine KeepsBacked.always (P := fun _ => True) (Action.meets_bind (h.touch _) ?_)
    exact fun _ s₁ h₁ => ⟨trivial, h₁.2.arguments, h₁.2.programs⟩
  | addParameter => exact (h.onProgram (Program.keepsBacked_addParameter _ _)).always
  | @addInstruction name op inputs hop =>
    have hbacked : op.Backed := by
      cases op with
      | literal l => exact Argument.backed_ofLiteral (hop l rfl)
      | _ => exact trivial
    exact (h.onProgram (Program.keepsBacked_addInstruction hbacked inputs)).always
  | addLiteral hl => exact (h.addLiteral hl).always
  | compile => exact (h.compile _).always
  | runPass => exact (h.runPass _).always
  | copyProgram => exact (h.copyProgram _ _).always
  | dropProgram => exact (h.dropProgram _).always
  | check =>
    refine KeepsBacked.always (P := fun _ => True) (Action.meets_bind (h.program _) ?_)
    exact fun p s₁ h₁ => Action.meets_ofOutcome (fun _ _ => ⟨trivial, h₁.2⟩) h₁.2
  | inWorld => exact (h.touch _).always
  | onDevice => exact (h.onDevice (P := fun _ => True) fun _ _ _ _ => trivial).always
  | takeLog => exact ⟨h.arguments, h.programs⟩

end Session

namespace Client

variable {c c' : Client}

inductive Use : Client → Client → Prop
  | call {s s' : Session} {bs : List DeviceBuffer} {α : Type} {x : Action Session α} :
      s.Uses x → (x s).Leaves s' → Use ⟨s, bs⟩ ⟨s', bs⟩
  | acquire {s s' : Session} {bs : List DeviceBuffer} {name : String} {b : DeviceBuffer}
      {x : DeviceId → Action World DeviceBuffer} : (∀ id, Acquires id (x id)) →
      Session.onDevice name x s = .value b s' → Use ⟨s, bs⟩ ⟨s', b :: bs⟩
  | acquireRefused {s s' : Session} {bs : List DeviceBuffer} {name : String} {e : Error}
      {x : DeviceId → Action World DeviceBuffer} : (∀ id, Acquires id (x id)) →
      Session.onDevice name x s = .refused e s' → Use ⟨s, bs⟩ ⟨s', bs⟩
  | share {s s' : Session} {bs : List DeviceBuffer} {b : DeviceBuffer} :
      b ∈ bs → (Session.inWorld (World.retainBuffer b) s).Leaves s' → Use ⟨s, bs⟩ ⟨s', b :: bs⟩
  | release {s s' : Session} {bs : List DeviceBuffer} {b : DeviceBuffer} :
      b ∈ bs → (Session.inWorld (World.releaseBuffer b) s).Leaves s' →
      Use ⟨s, bs⟩ ⟨s', bs.erase b⟩
  | place {s s' : Session} {bs : List DeviceBuffer} {b : DeviceBuffer} {shape : Shape}
      {slot : Option String} : b ∈ bs →
      ((Session.inWorld (World.place shape b) >>= Session.settle slot) s).Leaves s' →
      Use ⟨s, bs⟩ ⟨s', bs.erase b⟩

theorem Use.step (h : Use c c') : Step c c' := by
  cases h with
  | call hx hleaves => exact .call hx.calls hleaves
  | acquire hx hvalue => exact .acquire hx hvalue
  | acquireRefused hx hrefused => exact .acquireRefused hx hrefused
  | share hb hleaves => exact .share hb hleaves
  | release hb hleaves => exact .release hb hleaves
  | place hb hleaves => exact .place hb hleaves

theorem Use.backed (hstep : Use c c') (h : c.session.Backed) : c'.session.Backed := by
  cases hstep with
  | call hx hleaves => exact (hx.always_backed h).of_leaves hleaves
  | acquire hx hvalue =>
    have hends := (h.onDevice (P := fun _ => True) fun _ _ _ _ => trivial).always.of_leaves
      (Or.inl ⟨_, hvalue⟩)
    exact hends
  | acquireRefused hx hrefused =>
    have hends := (h.onDevice (P := fun _ => True) fun _ _ _ _ => trivial).always.of_leaves
      (Or.inr ⟨_, hrefused⟩)
    exact hends
  | share hb hleaves => exact (h.touch _).always.of_leaves hleaves
  | release hb hleaves => exact (h.touch _).always.of_leaves hleaves
  | place hb hleaves => exact ((h.place _ _).settle _).of_leaves hleaves

def Used (c : Client) : Prop := Relation.ReflTransGen Use {} c

theorem Used.reached (h : Used c) : Reached c :=
  Relation.ReflTransGen.mono (fun _ _ => Use.step) _ _ h

theorem Used.backed (h : Used c) : c.session.Backed := by
  induction h with
  | refl => exact ⟨(fun _ he => nomatch he), (fun _ he => nomatch he)⟩
  | tail _ hstep ih => exact hstep.backed ih

/-- Every argument of a client is backed by its storage.  On the host the bytes that are sent are
those that the strides span, and on a device the storage is live, with the size that is known
for it. -/
theorem backed_of_used (h : Used c) {slot : String} {a : Argument} {st : Storage}
    (ha : c.session.arguments.lookup slot = some a) (hst : a.storage = some st) :
    a.shape.BackedBy st.size ∧
    (∀ bytes, a.hostBytes = .value bytes → a.shape.storageBytes = some bytes.size) ∧
    ∀ b, st = .device b → ∃ d, c.session.world.devices[b.device]? = some d ∧
      (b.address, b.size) ∈ d.memory.layout := by
  have hbacked := h.backed.lookup ha st hst
  refine ⟨hbacked, fun bytes hbytes => ?_, ?_⟩
  · unfold Argument.hostBytes at hbytes
    obtain ⟨b, hb, hbytes⟩ := Outcome.bind_eq_value.mp hbytes
    obtain ⟨n, hn, hbytes⟩ := Outcome.bind_eq_value.mp hbytes
    have hn' : a.shape.storageBytes = some n := Outcome.ofOption_eq_value.mp hn
    unfold Argument.hostBuffer Argument.buffer at hb
    rw [hst] at hb
    cases st with
    | device b' => cases hb
    | host b' =>
      cases hb
      cases hbytes
      have hle : n ≤ b.bytes.size := hbacked.storageBytes n hn'
      have hsize : (b.bytes.extract 0 n).size = n := by
        rw [Array.size_extract]
        omega
      rw [hsize, hn']
  · rintro b rfl
    have hholding := h.reached.tracked.holding
    refine (hholding.accounted.held_iff b).mp (hholding.perm.mem_iff.mpr ?_)
    refine List.mem_append_right _ (Session.holds_subset ha ?_)
    show b ∈ (a.storage.bind Storage.deviceBuffer?).toList
    rw [hst]
    exact List.mem_singleton_self b

def spread : Shape := ⟨.uint8, [⟨3, 0⟩, ⟨2, 5⟩]⟩

/-- A tensor of that shape, over one byte more than it needs. -/
def spreadTensor : Argument := ⟨spread, some (.host (.ofBytes 0 #[1, 2, 3, 4, 5, 6, 7]))⟩

def spreadSession : Session :=
  { world := { devices := [{}] }, arguments := [("x", spreadTensor)], devices := [("d", 0)] }

/-- The copy of the tensor on the device. -/
theorem backed_of_used_spread : ∃ c a b, Used c ∧ c.session.arguments.lookup "y" = some a ∧
    a.storage = some (.device b) ∧ b.size = 6 ∧ a.shape.BackedBy b.size ∧
    ∃ d, c.session.world.devices[b.device]? = some d ∧ (b.address, b.size) ∈ d.memory.layout := by
  have hadded : Used ⟨_, []⟩ := Relation.ReflTransGen.single
    (.call (@Session.Uses.addDevice {} "d" none []) (.inl ⟨_, rfl⟩))
  have hmake : Argument.make spread (.host (.ofBytes 0 #[1, 2, 3, 4, 5, 6, 7])) =
    .value spreadTensor := rfl
  have hmade : Used ⟨spreadSession, []⟩ := hadded.tail
    (.call (@Session.Uses.make _ _ (some "x") (.constructed (.make hmake))) (.inl ⟨_, rfl⟩))
  let send := (Session.onDevice "d" fun id => World.toDevice id spreadTensor) >>=
    Session.settle (some "y")
  obtain ⟨u, s, hsent, hbuffer⟩ := Turn.exists_of_passes
    (show (send spreadSession).passes (fun _ s =>
      (s.arguments.lookup "y").bind Argument.deviceBuffer? = some ⟨0, 4096, 6⟩) = true by
        decide +kernel)
  have hused : Used ⟨s, []⟩ := hmade.tail (.call (@Session.Uses.make _ _ (some "y")
    (@Session.Obtains.toDevice spreadSession "d" "x" spreadTensor rfl)) (.inl ⟨u, hsent⟩))
  obtain ⟨a, ha, hdevice⟩ := Option.bind_eq_some_iff.mp (of_decide_eq_true hbuffer)
  obtain ⟨st, hst, hdevice⟩ := Option.bind_eq_some_iff.mp hdevice
  cases st with
  | host => cases hdevice
  | device b =>
    cases hdevice
    have hbacked := backed_of_used hused ha hst
    exact ⟨_, a, _, hused, ha, hst, rfl, hbacked.1, hbacked.2.2 _ rfl⟩

end Client
end TensorGraph
