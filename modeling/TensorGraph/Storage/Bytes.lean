/-
Words in byte memory, least significant byte first.

Reading past the end gives zeros and writing past the end changes nothing, so
both are total; whoever reads or writes is the one who checks sizes.
-/

-- Powers are those of the core library, whatever else is imported.
attribute [local instance (2000)] instPowNat

namespace TensorGraph

abbrev Bytes := Array UInt8

namespace Bytes

def zeros (size : Nat) : Bytes := Array.replicate size 0

def wordAt (b : Bytes) (offset : Nat) : Nat → Nat
  | 0 => 0
  | n + 1 => (b.getD offset 0).toNat + 256 * wordAt b (offset + 1) n

def firstWord (b : Bytes) (size : Nat) : Option Nat :=
  if size ≤ b.size then some (wordAt b 0 size) else none

def setWord (b : Bytes) (offset value : Nat) : Nat → Bytes
  | 0 => b
  | n + 1 => setWord (b.setIfInBounds offset (UInt8.ofNat value)) (offset + 1) (value / 256) n

def ofWord (value : Nat) : Nat → List UInt8
  | 0 => []
  | n + 1 => UInt8.ofNat value :: ofWord (value / 256) n

def ofWords (size : Nat) (values : List Nat) : Bytes :=
  (values.flatMap fun v => ofWord v size).toArray

def overwrite (b new : Bytes) : Bytes := new ++ b.extract new.size b.size

theorem wordAt_zero (b : Bytes) (offset : Nat) : wordAt b offset 0 = 0 := rfl

theorem wordAt_succ (b : Bytes) (offset n : Nat) :
    wordAt b offset (n + 1) = (b.getD offset 0).toNat + 256 * wordAt b (offset + 1) n := rfl

theorem length_ofWord (value n : Nat) : (ofWord value n).length = n := by
  induction n generalizing value with
  | zero => rfl
  | succ n ih => exact congrArg (· + 1) (ih _)

theorem size_setWord (b : Bytes) (offset value n : Nat) :
    (setWord b offset value n).size = b.size := by
  induction n generalizing b offset value with
  | zero => rfl
  | succ n ih => rw [setWord, ih, Array.size_setIfInBounds]

theorem size_zeros (size : Nat) : (zeros size).size = size := Array.size_replicate

theorem size_ofWords (size : Nat) (values : List Nat) :
    (ofWords size values).size = values.length * size := by
  induction values with
  | nil => simp [ofWords]
  | cons v vs ih =>
    simp only [ofWords, List.size_toArray, List.flatMap_cons, List.length_append,
      length_ofWord, List.length_cons] at ih ⊢
    rw [ih, Nat.add_mul, Nat.one_mul, Nat.add_comm]

/-- A word read back is below the power of 256 that its bytes span. -/
theorem wordAt_lt (b : Bytes) (offset n : Nat) : wordAt b offset n < 256 ^ n := by
  induction n generalizing offset with
  | zero => exact Nat.one_pos
  | succ n ih =>
    have h := ih (offset + 1)
    have hb : (b.getD offset 0).toNat < 256 := (b.getD offset 0).toNat_lt
    rw [wordAt_succ, Nat.pow_succ]
    omega

end Bytes
end TensorGraph
