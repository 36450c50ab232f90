/-
Reading back what was written.

A word is read from the bytes it spans and from no others, so it survives every
write that stays clear of it.  The statements to use are `wordAt_setWord_self`
and `wordAt_setWord_of_disjoint` for a write in place, `wordAt_ofWords` for a
buffer made of words of one size, and `wordAt_extract` for a buffer cut short.
-/
import TensorGraph.Storage.Bytes
import Mathlib.Tactic

namespace TensorGraph
namespace Bytes

/-- A word depends on the bytes it spans only. -/
theorem wordAt_congr {b c : Bytes} {offset n : Nat}
    (h : ∀ k, k < n → b.getD (offset + k) 0 = c.getD (offset + k) 0) :
    wordAt b offset n = wordAt c offset n := by
  induction n generalizing offset with
  | zero => rfl
  | succ n ih =>
    have h0 := h 0 (by omega)
    rw [Nat.add_zero] at h0
    have hn : wordAt b (offset + 1) n = wordAt c (offset + 1) n := ih fun k hk => by
      have hk' := h (k + 1) (by omega)
      rw [show offset + 1 + k = offset + (k + 1) by omega]
      exact hk'
    rw [wordAt_succ, wordAt_succ, h0, hn]

theorem getD_setWord_of_disjoint {b : Bytes} {offset value n k : Nat}
    (h : k < offset ∨ offset + n ≤ k) :
    (setWord b offset value n).getD k 0 = b.getD k 0 := by
  induction n generalizing b offset value with
  | zero => rfl
  | succ n ih =>
    rw [setWord, ih (by omega)]
    simp only [Array.getD_eq_getD_getElem?]
    rw [Array.getElem?_setIfInBounds_ne (by omega)]

/-- A word survives a write beside it. -/
theorem wordAt_setWord_of_disjoint {b : Bytes} {offset value n at' m : Nat}
    (h : at' + m ≤ offset ∨ offset + n ≤ at') :
    wordAt (setWord b offset value n) at' m = wordAt b at' m :=
  wordAt_congr fun _ _ => getD_setWord_of_disjoint (by omega)

theorem lowByte_add (value n : Nat) :
    value % 256 + 256 * (value / 256 % 256 ^ n) = value % 256 ^ (n + 1) := by
  rw [Nat.pow_succ', Nat.mod_mul]

/-- A word written inside a buffer is read back, up to its size. -/
theorem wordAt_setWord_self {b : Bytes} {offset value n : Nat} (h : offset + n ≤ b.size) :
    wordAt (setWord b offset value n) offset n = value % 256 ^ n := by
  induction n generalizing b offset value with
  | zero => rw [wordAt_zero, Nat.pow_zero, Nat.mod_one]
  | succ n ih =>
    have hfirst : (setWord b offset value (n + 1)).getD offset 0 = UInt8.ofNat value := by
      rw [setWord, getD_setWord_of_disjoint (by omega), Array.getD_eq_getD_getElem?,
        Array.getElem?_setIfInBounds_self_of_lt (by omega)]
      rfl
    rw [wordAt_succ, hfirst, setWord, ih (by rw [Array.size_setIfInBounds]; omega)]
    rw [UInt8.toNat_ofNat']
    exact lowByte_add value n

/-- The first bytes of a buffer hold its first words. -/
theorem wordAt_extract {b : Bytes} {m offset n : Nat} (h : offset + n ≤ m) :
    wordAt (b.extract 0 m) offset n = wordAt b offset n := by
  refine wordAt_congr fun k hk => ?_
  simp only [Array.getD_eq_getD_getElem?, Array.getElem?_extract, Nat.zero_add, Nat.sub_zero]
  by_cases hs : offset + k < b.size
  · rw [if_pos (by omega)]
  · rw [if_neg (by omega), Array.getElem?_eq_none (by omega)]

/-- Bytes as long as the buffer they are copied to replace it. -/
theorem overwrite_of_size_eq {b new : Bytes} (h : new.size = b.size) : overwrite b new = new := by
  rw [overwrite, h, Array.extract_eq_empty_of_le (by omega), Array.append_empty]

theorem size_overwrite {b new : Bytes} (h : new.size ≤ b.size) :
    (overwrite b new).size = b.size := by
  rw [overwrite, Array.size_append, Array.size_extract]
  omega

/-! ## Buffers of words -/

theorem getD_ofWord (value n k : Nat) :
    (ofWord value n).getD k 0 = if k < n then UInt8.ofNat (value / 256 ^ k) else 0 := by
  induction n generalizing value k with
  | zero => rfl
  | succ n ih =>
    cases k with
    | zero => simp [ofWord]
    | succ k =>
      rw [ofWord, List.getD_cons_succ, ih, Nat.div_div_eq_div_mul, ← Nat.pow_succ']
      simp only [Nat.add_lt_add_iff_right]

theorem wordAt_toArray_ofWord (value n m k : Nat) (rest : List UInt8) (h : k + m ≤ n) :
    wordAt (ofWord value n ++ rest).toArray k m = value / 256 ^ k % 256 ^ m := by
  induction m generalizing k with
  | zero => rw [wordAt_zero, Nat.pow_zero, Nat.mod_one]
  | succ m ih =>
    have hk : (ofWord value n ++ rest).toArray.getD k 0 = UInt8.ofNat (value / 256 ^ k) := by
      rw [Array.getD_eq_getD_getElem?, List.getElem?_toArray,
        List.getElem?_append_left (by rw [length_ofWord]; omega), ← List.getD_eq_getElem?_getD,
        getD_ofWord, if_pos (by omega)]
    rw [wordAt_succ, hk, ih (k + 1) (by omega), UInt8.toNat_ofNat', Nat.pow_succ 256 k,
      ← Nat.div_div_eq_div_mul]
    exact lowByte_add (value / 256 ^ k) m

/-- A word behind a list of bytes does not see them. -/
theorem wordAt_toArray_append (xs ys : List UInt8) (offset n : Nat) :
    wordAt (xs ++ ys).toArray (xs.length + offset) n = wordAt ys.toArray offset n := by
  induction n generalizing offset with
  | zero => rfl
  | succ n ih =>
    have h : (xs ++ ys).toArray.getD (xs.length + offset) 0 = ys.toArray.getD offset 0 := by
      simp only [Array.getD_eq_getD_getElem?, List.getElem?_toArray]
      rw [List.getElem?_append_right (by omega), Nat.add_sub_cancel_left]
    rw [wordAt_succ, wordAt_succ, h, Nat.add_assoc, ih]

/-- The words of a buffer of words, as far as their size keeps them. -/
theorem wordAt_ofWords {size : Nat} {values : List Nat} {k : Nat} (h : k < values.length) :
    wordAt (ofWords size values) (k * size) size = values[k] % 256 ^ size := by
  induction values generalizing k with
  | nil => exact absurd h (Nat.not_lt_zero k)
  | cons v vs ih =>
    rw [ofWords, List.flatMap_cons]
    cases k with
    | zero =>
      rw [Nat.zero_mul, wordAt_toArray_ofWord _ _ _ _ _ (by omega), Nat.pow_zero, Nat.div_one]
      rfl
    | succ k =>
      have hk : (k + 1) * size = (ofWord v size).length + k * size := by
        rw [length_ofWord, Nat.add_mul, Nat.one_mul, Nat.add_comm]
      rw [hk, wordAt_toArray_append]
      exact ih (Nat.lt_of_succ_lt_succ h)

end Bytes
end TensorGraph
