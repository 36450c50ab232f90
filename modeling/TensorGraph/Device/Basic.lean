/-
The state of a simulated accelerator.

A device has its own memory of separate allocations and a queue of launches that
have been accepted but not run.  Addresses are handed out in increasing order and
never twice.
-/
import TensorGraph.Log
import TensorGraph.Operator.Basic
import TensorGraph.Outcome

namespace TensorGraph

abbrev Memory := List (Nat × Bytes)

namespace Memory

def find? (m : Memory) (address : Nat) : Option Bytes := m.lookup address

def replace (m : Memory) (address : Nat) (bytes : Bytes) : Memory :=
  m.map fun (a, b) => if a = address then (a, bytes) else (a, b)

def remove (m : Memory) (address : Nat) : Memory := m.filter fun (a, _) => a ≠ address

theorem find?_nil (address : Nat) : find? [] address = none := rfl

theorem find?_cons (a : Nat) (b : Bytes) (m : Memory) (address : Nat) :
    find? ((a, b) :: m) address = if address = a then some b else find? m address := by
  unfold find?
  by_cases h : address = a
  · rw [if_pos h, List.lookup_cons, show (address == a) = true from beq_iff_eq.mpr h]
  · rw [if_neg h, List.lookup_cons, show (address == a) = false from beq_false_of_ne h]

/-- Replacing is seen at its own address only. -/
theorem find?_replace (m : Memory) (address other : Nat) (bytes : Bytes) :
    (m.replace address bytes).find? other =
      if other = address then (m.find? other).map fun _ => bytes else m.find? other := by
  induction m with
  | nil => simp [replace, find?_nil]
  | cons p m ih =>
    obtain ⟨a, b⟩ := p
    have hm : replace ((a, b) :: m) address bytes =
        (if a = address then (a, bytes) else (a, b)) :: replace m address bytes := rfl
    rw [hm]
    by_cases ha : a = address
    · subst ha
      rw [if_pos rfl, find?_cons, find?_cons, ih]
      by_cases ho : other = a <;> simp [ho]
    · rw [if_neg ha, find?_cons, find?_cons, ih]
      by_cases ho : other = a
      · subst ho
        simp [ha]
      · simp [ho]

/-- An allocation that was removed is gone, and the others stay. -/
theorem find?_remove (m : Memory) (address other : Nat) :
    (m.remove address).find? other = if other = address then none else m.find? other := by
  induction m with
  | nil => simp [remove, find?_nil]
  | cons p m ih =>
    obtain ⟨a, b⟩ := p
    unfold remove at ih ⊢
    rw [List.filter_cons]
    by_cases ha : a = address
    · subst ha
      simp only [ne_eq, not_true_eq_false, decide_false, Bool.false_eq_true, if_false]
      rw [ih, find?_cons]
      by_cases ho : other = a <;> simp [ho]
    · simp only [ne_eq, ha, not_false_eq_true, decide_true, if_true]
      rw [find?_cons, find?_cons, ih]
      by_cases ho : other = a
      · subst ho
        simp [ha]
      · simp [ho]

end Memory

/-- A tensor in device memory: an address and the shape to read or write it as. -/
structure Operand where
  address : Nat
  shape : Shape
  deriving Repr

structure Launch where
  op : Operator
  output : Operand
  inputs : List Operand
  deriving Repr

structure DeviceStats where
  allocations : Nat := 0
  frees : Nat := 0
  live : Nat := 0
  liveBytes : Nat := 0
  launches : Nat := 0
  syncs : Nat := 0
  invalidFrees : Nat := 0
  deriving DecidableEq, Repr

/-- The state of a device.  `failure` is the first failure of a launch that no call
has reported yet; `notices` are records nobody has collected yet. -/
structure Device where
  memory : Memory := []
  next : Nat := 4096
  queue : List Launch := []
  failure : Option Error := none
  stats : DeviceStats := {}
  capacity : Option Nat := none
  unsupported : List Dtype := []
  notices : List Record := []

namespace Device

def alignment : Nat := 256

def unlimited : Device := {}

def ofCapacity (bytes : Nat) : Device := { capacity := some bytes }

def withoutDtype (d : Dtype) : Device := { unsupported := [d] }

def supports (d : Device) (op : Operator) (dtype : Dtype) : Bool :=
  if dtype ∈ d.unsupported then false
  else
    match op with
    | .contiguous => true
    | op => op.isCompute && dtype.isFloat

end Device

end TensorGraph
