/-
Calls on a device of a world.

A call changes the device that it is made on and nothing else of the world, so what it keeps of
the device it keeps of the world: `always_onDevice`.  `allocate_cases` says how the allocation of
a buffer ends, and what the world is then.
-/
import TensorGraph.Proofs.Device.Reached
import TensorGraph.World

namespace TensorGraph
namespace World

variable {w w' : World} {id : DeviceId} {d d' : Device} {b : DeviceBuffer} {size : Nat} {α : Type}

/-! ## Calls of a device -/

section

variable {call : Action Device α} {a : α}

theorem onDevice_of_value (hd : w.devices[id]? = some d) (hcall : call d = .value a d') :
    onDevice id call w = .value a (w.setDevice id d') := by
  unfold onDevice
  rw [hd]
  dsimp only
  rw [hcall]

theorem onDevice_of_refused {e : Error} (hd : w.devices[id]? = some d)
    (hcall : call d = .refused e d') : onDevice id call w = .refused e (w.setDevice id d') := by
  unfold onDevice
  rw [hd]
  dsimp only
  rw [hcall]

theorem onDevice_of_halted (hd : w.devices[id]? = some d) (hcall : call d = .halted) :
    onDevice id call w = .halted := by
  unfold onDevice
  rw [hd]
  dsimp only
  rw [hcall]

theorem onDevice_of_none (hd : w.devices[id]? = none) (call : Action Device α) :
    onDevice id call w = .halted := by
  unfold onDevice
  rw [hd]

theorem onDevice_eq_value (h : onDevice id call w = .value a w') :
    ∃ d d', w.devices[id]? = some d ∧ call d = .value a d' ∧ w' = w.setDevice id d' := by
  unfold onDevice at h
  split at h
  · cases h
  · next d hd =>
    split at h
    · next hcall =>
      cases h
      exact ⟨d, _, hd, hcall, rfl⟩
    · cases h
    · cases h

/-- A call keeps of the world what it keeps of its device. -/
theorem always_onDevice {post : World → Prop}
    (h : ∀ d, w.devices[id]? = some d → (call d).Always fun d' => post (w.setDevice id d')) :
    (onDevice id call w).Always post := by
  rcases Option.eq_none_or_eq_some w.devices[id]? with hd | ⟨d, hd⟩
  · rw [onDevice_of_none hd]
    exact trivial
  · have halways := h d hd
    cases hrun : call d with
    | value a d' =>
      rw [hrun] at halways
      rw [onDevice_of_value hd hrun]
      exact halways
    | refused e d' =>
      rw [hrun] at halways
      rw [onDevice_of_refused hd hrun]
      exact halways
    | halted =>
      rw [onDevice_of_halted hd hrun]
      exact trivial

end

/-! ## Fresh buffers -/

def granted (w : World) (id : DeviceId) (d : Device) (size : Nat) : World :=
  { w.setDevice id (d.granted size) with
    held := ⟨id, d.next, size⟩ :: (w.setDevice id (d.granted size)).held }

/-- A buffer is made where its device grants it, or the device refuses it and is left as it was. -/
theorem allocate_cases (id : DeviceId) (size : Nat) (w : World) :
    (∃ d, w.devices[id]? = some d ∧ d.Room size ∧
      allocate id size w = .value ⟨id, d.next, size⟩ (w.granted id d size)) ∨
      (∃ d e, w.devices[id]? = some d ∧ allocate id size w = .refused e (w.setDevice id d)) ∨
      allocate id size w = .halted := by
  rcases Option.eq_none_or_eq_some w.devices[id]? with hd | ⟨d, hd⟩
  · exact Or.inr (Or.inr (Action.bind_of_halted (onDevice_of_none hd _)))
  · rcases Device.alloc_cases d size with ⟨hvalue, hroom, -⟩ | ⟨_, -, -, hrefused⟩ | ⟨hhalt, -⟩
    · exact Or.inl ⟨d, hd, hroom, Action.bind_of_value (onDevice_of_value hd hvalue)⟩
    · exact Or.inr (Or.inl ⟨d, _, hd, Action.bind_of_refused (onDevice_of_refused hd hrefused)⟩)
    · exact Or.inr (Or.inr (Action.bind_of_halted (onDevice_of_halted hd hhalt)))

theorem allocate_eq_value (h : allocate id size w = .value b w') :
    ∃ d, w.devices[id]? = some d ∧ d.Room size ∧ b = ⟨id, d.next, size⟩ ∧
      w' = w.granted id d size := by
  rcases allocate_cases id size w with ⟨d, hd, hroom, hvalue⟩ | ⟨_, e, -, hrefused⟩ | hhalt
  · rw [hvalue] at h
    cases h
    exact ⟨d, hd, hroom, rfl, rfl⟩
  · rw [hrefused] at h
    cases h
  · rw [hhalt] at h
    cases h

end World
end TensorGraph
