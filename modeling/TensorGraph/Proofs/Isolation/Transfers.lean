/-
Tensors in two worlds.

Arguments are compared by `Argument.Alike`: the same shape over storage of the same kind, with
the same bytes where it is on the host and in linked buffers where it is on a device.  Moving
alike arguments between host and device gives alike arguments.
-/
import TensorGraph.Proofs.Isolation.Buffers
import TensorGraph.Proofs.Program.Start

namespace TensorGraph

/-! ## Arguments -/

namespace Argument

/-- Whether two arguments cannot be told apart but by what their device buffers hold. -/
inductive Alike : Argument → Argument → Prop
  | absent (s : Shape) : Alike ⟨s, none⟩ ⟨s, none⟩
  | host (s : Shape) (key₁ key₂ address : Nat) (bytes : Bytes) :
      Alike ⟨s, some (.host ⟨key₁, address, bytes⟩)⟩ ⟨s, some (.host ⟨key₂, address, bytes⟩)⟩
  | device (s : Shape) {b₁ b₂ : DeviceBuffer} :
      b₂.size = b₁.size → Alike ⟨s, some (.device b₁)⟩ ⟨s, some (.device b₂)⟩

def links (a₁ a₂ : Argument) : List Pair :=
  match a₁.deviceBuffer?, a₂.deviceBuffer? with
  | some b₁, some b₂ => [(b₁, b₂)]
  | _, _ => []

variable {a a₁ a₂ : Argument} {s : Shape} {b b₁ b₂ : DeviceBuffer}

theorem alike_self (a : Argument) : a.Alike a := by
  obtain ⟨s, _ | b | b⟩ := a
  · exact .absent s
  · exact .host s _ _ _ _
  · exact .device s rfl

theorem Alike.shape (h : a₁.Alike a₂) : a₂.shape = a₁.shape := by cases h <;> rfl

theorem Alike.location (h : a₁.Alike a₂) : a₂.location = a₁.location := by cases h <;> rfl

theorem make_device_alike (s : Shape) (hsize : b₂.size = b₁.size) :
    (make s (.device b₁)).Alike (fun a₁ a₂ => a₁ = ⟨s, some (.device b₁)⟩ ∧
      a₂ = ⟨s, some (.device b₂)⟩) (make s (.device b₂)) := by
  unfold make
  rw [show (Storage.device b₂).size = (Storage.device b₁).size from hsize]
  refine (Outcome.alike_self _).bind ?_
  rintro n _ - rfl
  refine (Outcome.alike_self _).bind ?_
  rintro _ _ - rfl
  exact .value ⟨rfl, rfl⟩

theorem make_host_alike (s : Shape) (key₁ key₂ address : Nat) (bytes : Bytes) :
    (make s (.host ⟨key₁, address, bytes⟩)).Alike
      (fun a₁ a₂ => a₁ = ⟨s, some (.host ⟨key₁, address, bytes⟩)⟩ ∧
        a₂ = ⟨s, some (.host ⟨key₂, address, bytes⟩)⟩)
      (make s (.host ⟨key₂, address, bytes⟩)) := by
  unfold make
  refine (Outcome.alike_self _).bind ?_
  rintro n _ - rfl
  refine (Outcome.alike_self _).bind ?_
  rintro _ _ - rfl
  refine (Outcome.alike_self _).bind ?_
  rintro _ _ - rfl
  exact .value ⟨rfl, rfl⟩

theorem Alike.hostBytes (h : a₁.Alike a₂) : a₂.hostBytes = a₁.hostBytes := by cases h <;> rfl

theorem Alike.withShape (h : a₁.Alike a₂) (s : Shape) :
    (a₁.withShape s).Alike (fun b₁ b₂ => b₁.Alike b₂ ∧ b₁.shape = s ∧ links b₁ b₂ = links a₁ a₂)
      (a₂.withShape s) := by
  cases h with
  | absent => exact .value ⟨.absent s, rfl, rfl⟩
  | host _ key₁ key₂ address bytes =>
    refine (make_host_alike s key₁ key₂ address bytes).mono ?_
    rintro _ _ - ⟨rfl, rfl⟩
    exact ⟨.host s _ _ _ _, rfl, rfl⟩
  | device _ hsize =>
    refine (make_device_alike s hsize).mono ?_
    rintro _ _ - ⟨rfl, rfl⟩
    exact ⟨.device s hsize, rfl, rfl⟩

theorem valid_of_withShape (h : a.withShape s = .value a₁) : a₁.Valid := by
  unfold Argument.withShape at h
  cases hs : a.storage with
  | none =>
    rw [hs] at h
    cases h
    intro st hst
    cases hst
  | some st =>
    rw [hs] at h
    exact valid_of_make h

end Argument

namespace Linked

variable {c : Comparison} {ps : List Pair} {p : Pair} {w₁ w₂ : World} {a₁ a₂ : Argument}
variable {short : Prop} {s : Shape} {bytes : Bytes}

/-! ## Holders -/

theorem retain (h : Linked c ps w₁ w₂) (ha : a₁.Alike a₂) (hlinks : a₁.links a₂ ⊆ ps ++ c.shared) :
    (World.retain a₁ w₁).Foretells short
      (fun _ w₁ _ w₂ => Linked c (a₁.links a₂ ++ ps) w₁ w₂) (fun _ _ => False)
      (World.retain a₂ w₂) := by
  cases ha with
  | absent => exact ⟨(), _, rfl, h⟩
  | host => exact ⟨(), _, rfl, h⟩
  | device _ hsize => exact h.retainBuffer (hlinks List.mem_cons_self)

theorem release (h : Linked c (a₁.links a₂ ++ ps) w₁ w₂) (ha : a₁.Alike a₂) :
    (World.release a₁ w₁).Foretells short (fun _ w₁ _ w₂ => Linked c ps w₁ w₂)
      (fun _ _ => False) (World.release a₂ w₂) := by
  cases ha with
  | absent => exact ⟨(), _, rfl, h⟩
  | host => exact ⟨(), _, rfl, h⟩
  | device _ hsize => exact h.releaseBuffer

/-! ## Transfers -/

theorem makeHost (h : Linked c ps w₁ w₂) (s : Shape) (key₁ key₂ : Nat) (bytes : Bytes) :
    ((liftM (Argument.make s (.host (.ofBytes key₁ bytes))) : Action World Argument) w₁).Foretells
      short
      (fun b₁ w₁ b₂ w₂ => Linked c ps w₁ w₂ ∧ b₁.Alike b₂ ∧ b₁.shape = s ∧
        b₁.location = some .host)
      (Linked c ps)
      ((liftM (Argument.make s (.host (.ofBytes key₂ bytes))) : Action World Argument) w₂) := by
  refine Action.foretells_ofOutcome (Argument.make_host_alike s key₁ key₂ _ bytes) ?_ h
  rintro _ _ - ⟨rfl, rfl⟩
  exact ⟨h, .host s _ _ _ _, rfl, rfl⟩

theorem toHost (h : Linked c ps w₁ w₂) (ha : a₁.Alike a₂) (hlinks : a₁.links a₂ ⊆ ps ++ c.shared) :
    (World.toHost a₁ w₁).Foretells short
      (fun b₁ w₁ b₂ w₂ => Linked c ps w₁ w₂ ∧ b₁.Alike b₂ ∧ b₁.shape = a₁.shape ∧
        b₁.location = some .host)
      (Linked c ps) (World.toHost a₂ w₂) := by
  unfold World.toHost
  cases ha with
  | absent s => exact Or.inl ⟨_, rfl, h⟩
  | host s key₁ key₂ address bytes =>
    refine Action.foretells_bind (R := fun st₁ w₁ st₂ w₂ => st₁ = .host ⟨key₁, address, bytes⟩ ∧
      st₂ = .host ⟨key₂, address, bytes⟩ ∧ Linked c ps w₁ w₂) ⟨_, _, rfl, rfl, rfl, h⟩ ?_
    rintro _ w₁ _ w₂ ⟨rfl, rfl, h⟩
    refine Action.foretells_bind (R := fun bytes₁ w₁ bytes₂ w₂ => bytes₁ = bytes₂ ∧
      Linked c ps w₁ w₂) (Action.foretells_lift (fun _ _ => ⟨rfl, h⟩) h) ?_
    rintro bytes w₁ _ w₂ ⟨rfl, h⟩
    refine Action.foretells_bind h.freshKey.of_never fun key₁ w₁ key₂ w₂ h => ?_
    exact h.makeHost s key₁ key₂ bytes
  | @device s b₁ b₂ hsize =>
    refine Action.foretells_bind (R := fun st₁ w₁ st₂ w₂ => st₁ = .device b₁ ∧ st₂ = .device b₂ ∧
      Linked c ps w₁ w₂) ⟨_, _, rfl, rfl, rfl, h⟩ ?_
    rintro _ w₁ _ w₂ ⟨rfl, rfl, h⟩
    refine Action.foretells_bind (h.download (hlinks List.mem_cons_self)).of_never ?_
    rintro _ w₁ _ w₂ ⟨h, key₁, key₂, bytes, rfl, rfl, -⟩
    exact h.makeHost s key₁ key₂ bytes

/-- Whether alike arguments were made over a new pair of buffers, on the devices for them. -/
def Moved (c : Comparison) (ps : List Pair) (s : Shape) (a₁ : Argument) (w₁ : World)
    (a₂ : Argument) (w₂ : World) : Prop :=
  ∃ p, a₁ = ⟨s, some (.device p.1)⟩ ∧ a₂ = ⟨s, some (.device p.2)⟩ ∧ a₁.Valid ∧ c.Fresh p ∧
    Linked c (p :: ps) w₁ w₂

theorem place (h : Linked c (p :: ps) w₁ w₂) (hfresh : c.Fresh p) (s : Shape) :
    (World.place s p.1 w₁).Foretells short
      (fun a₁ w₁' a₂ w₂' => a₁ = ⟨s, some (.device p.1)⟩ ∧ a₂ = ⟨s, some (.device p.2)⟩ ∧
        a₁.Valid ∧ w₁' = w₁ ∧ w₂' = w₂)
      (Linked c ps) (World.place s p.2 w₂) := by
  unfold World.place
  refine Action.foretells_onRefusal (L := Linked c (p :: ps)) ?_ fun _ _ h => h.releaseBuffer
  refine Action.foretells_ofOutcome (Argument.make_device_alike s hfresh.size) ?_ h
  rintro _ _ hmake ⟨rfl, rfl⟩
  exact ⟨rfl, rfl, Argument.valid_of_make hmake, rfl, rfl⟩

theorem sendHost (h : Linked c ps w₁ w₂) (ha : a₁.Alike a₂) :
    (World.sendHost c.here a₁ w₁).Foretells c.short
      (fun b₁ w₁ b₂ w₂ => Moved c ps a₁.shape b₁ w₁ b₂ w₂ ∧ ∃ bytes b,
        a₁.hostBytes = .value bytes ∧ b₁.deviceBuffer? = some b ∧ w₁.read? b = some bytes)
      (Linked c ps) (World.sendHost c.there a₂ w₂) := by
  unfold World.sendHost World.uploadAs
  rw [ha.hostBytes, ha.shape]
  refine Action.foretells_bind (R := fun bytes₁ w₁ bytes₂ w₂ => a₁.hostBytes = .value bytes₁ ∧
    bytes₁ = bytes₂ ∧ Linked c ps w₁ w₂) (Action.foretells_lift (fun _ hb => ⟨hb, rfl, h⟩) h) ?_
  rintro bytes w₁ _ w₂ ⟨hbytes, rfl, h⟩
  refine Action.foretells_bind (h.upload bytes) ?_
  rintro b₁ w₁ b₂ w₂ ⟨hfresh, h, hread⟩
  refine (Linked.place (p := (b₁, b₂)) h hfresh a₁.shape).mono id ?_ fun _ _ h => h
  rintro _ _ _ _ ⟨rfl, rfl, hvalid, rfl, rfl⟩
  exact ⟨⟨(b₁, b₂), rfl, rfl, hvalid, hfresh, h⟩, bytes, b₁, hbytes, rfl, hread⟩

theorem toDevice (h : Linked c ps w₁ w₂) (ha : a₁.Alike a₂)
    (hlinks : a₁.links a₂ ⊆ ps ++ c.shared) :
    (World.toDevice c.here a₁ w₁).Foretells c.short (Moved c ps a₁.shape) (Linked c ps)
      (World.toDevice c.there a₂ w₂) := by
  unfold World.toDevice
  rw [ha.location]
  split
  · refine Action.foretells_bind (h.toHost ha hlinks) ?_
    rintro b₁ w₁ b₂ w₂ ⟨h, hb, hshape, -⟩
    refine (h.sendHost hb).mono id (fun _ _ _ _ hmoved => ?_) fun _ _ h => h
    rw [← hshape]
    exact hmoved.1
  · exact (h.sendHost ha).mono id (fun _ _ _ _ hmoved => hmoved.1) fun _ _ h => h

end Linked
end TensorGraph
