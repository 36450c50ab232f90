/-
Single precision within double precision.

A number whose bits all fit into a format is rounded to itself.  Double precision has so many more
bits than single precision that this holds of every number of single precision, which is why
widening is exact, and of the middles between two of them.  What rounds to a number in single
precision therefore still lies between the same middles after it was rounded to double precision.
-/
import TensorGraph.Proofs.Binary.Nearest

namespace TensorGraph
namespace Format

variable {f : Format} {bits c m m' : Nat} {e : ℤ} {x : ℚ} {negative : Bool}

/-! ## Signs -/

theorem isNegative_withSign (hm : m < f.signWeight) :
    f.isNegative (f.withSign negative m) = negative := by
  unfold isNegative withSign
  cases negative with
  | true =>
    rw [if_pos rfl, Nat.add_div_left m (show 0 < f.signWeight from Nat.two_pow_pos _),
      Nat.div_eq_of_lt hm]
    rfl
  | false =>
    rw [if_neg Bool.false_ne_true, Nat.div_eq_of_lt hm]
    rfl

theorem magnitude_withSign (hm : m < f.signWeight) :
    f.magnitude (f.withSign negative m) = m := by
  unfold magnitude withSign
  split
  · rw [Nat.add_mod_left, Nat.mod_eq_of_lt hm]
  · exact Nat.mod_eq_of_lt hm

/-! ## Rounding what fits -/

/-- The number of a magnitude that is given by its coefficient and its binade. -/
theorem number_add_mul_fractions (hlow : f.fractions ≤ c) (hhigh : c < 2 * f.fractions) (k : Nat) :
    f.number (c + k * f.fractions) = c * 2 ^ (f.minExponent + k) := by
  have hpos := f.fractions_pos
  obtain ⟨r, rfl⟩ := Nat.exists_eq_add_of_le hlow
  have hsplit : f.fractions + r + k * f.fractions = f.fractions * (k + 1) + r := by ring
  unfold number coefficient quantum exponentOf
  rw [hsplit, Nat.mul_add_div hpos, Nat.mul_add_mod, Nat.div_eq_of_lt (by omega),
    Nat.mod_eq_of_lt (by omega), Nat.add_zero, Nat.add_sub_cancel, if_neg (Nat.succ_ne_zero k),
    Nat.add_comm r]

theorem filled_bounds (hc : c ≠ 0) (hbits : c.log2 ≤ f.fractionBits) :
    f.fractions ≤ c * 2 ^ (f.fractionBits - c.log2) ∧
      c * 2 ^ (f.fractionBits - c.log2) < 2 * f.fractions := by
  have hwidth : f.fractions = 2 ^ c.log2 * 2 ^ (f.fractionBits - c.log2) := by
    rw [fractions, ← Nat.pow_add, Nat.add_sub_of_le hbits]
  have hlow := Nat.mul_le_mul_right (2 ^ (f.fractionBits - c.log2)) (Nat.log2_self_le hc)
  have hhigh := Nat.mul_lt_mul_of_pos_right (Nat.lt_log2_self (n := c))
    (Nat.two_pow_pos (f.fractionBits - c.log2))
  rw [Nat.pow_succ', Nat.mul_assoc] at hhigh
  rw [hwidth]
  exact ⟨hlow, hhigh⟩

/-- Rounding a number whose bits all fit only fills them up. -/
theorem roundMagnitude_of_fits (hc : c ≠ 0) (hbits : c.log2 ≤ f.fractionBits) {k : Nat}
    (hk : e + c.log2 - f.fractionBits = f.minExponent + k) (hfinite : k + 2 < 2 ^ f.exponentBits) :
    f.roundMagnitude c e = c * 2 ^ (f.fractionBits - c.log2) + k * f.fractions ∧
      f.roundMagnitude c e < f.infinity := by
  have hquantum : max (e + c.log2 - f.fractionBits) f.minExponent = f.minExponent + k := by omega
  have hplaces : (e - (f.minExponent + k)).toNat = f.fractionBits - c.log2 := by omega
  have hbinade : (f.minExponent + k - f.minExponent).toNat = k := by omega
  have hlt : c * 2 ^ (f.fractionBits - c.log2) + k * f.fractions < f.infinity := by
    have hhigh := (filled_bounds hc hbits).2
    have hroom : (k + 2) * f.fractions ≤ f.infinity := Nat.mul_le_mul_right _ (by omega)
    rw [Nat.add_mul] at hroom
    omega
  have hround : f.roundMagnitude c e = c * 2 ^ (f.fractionBits - c.log2) + k * f.fractions := by
    unfold roundMagnitude
    dsimp only
    rw [if_neg hc, hquantum, if_pos (by omega), hplaces, hbinade, Nat.min_eq_left hlt.le]
  exact ⟨hround, hround ▸ hlt⟩

/-- A number whose bits all fit is rounded to itself. -/
theorem number_roundMagnitude_of_fits (hc : c ≠ 0) (hbits : c.log2 ≤ f.fractionBits) {k : Nat}
    (hk : e + c.log2 - f.fractionBits = f.minExponent + k) (hfinite : k + 2 < 2 ^ f.exponentBits) :
    f.number (f.roundMagnitude c e) = c * 2 ^ e := by
  obtain ⟨hlow, hhigh⟩ := filled_bounds hc hbits
  rw [(roundMagnitude_of_fits hc hbits hk hfinite).1, number_add_mul_fractions hlow hhigh, ← hk]
  push_cast
  rw [mul_assoc, ← zpow_natCast, ← zpow_add₀ (by norm_num)]
  congr 2
  omega

/-! ## Double precision -/

/-- A double that stands for a number, with room behind its last bit. -/
structure IsDouble (x : ℚ) (m : Nat) : Prop where
  finite : m < double.infinity
  even : m % 2 = 0
  number : double.number m = x

/-- Fifty-two bits fit, and one more of double precision is left. -/
theorem isDouble_roundMagnitude (hc : c < 2 ^ 52) (hlow : -1022 ≤ e) (hhigh : e ≤ 971) :
    IsDouble (c * 2 ^ e) (double.roundMagnitude c e) := by
  rcases eq_or_ne c 0 with rfl | hne
  · rw [roundMagnitude_zero]
    exact ⟨by decide, rfl, by rw [number_zero, Nat.cast_zero, zero_mul]⟩
  · have hlog : c.log2 < 52 := (Nat.log2_lt hne).mpr hc
    have hbits : c.log2 ≤ double.fractionBits := hlog.le
    have hk : e + c.log2 - (double.fractionBits : ℤ) =
        double.minExponent + ((e + c.log2 + 1022).toNat : ℤ) := by
      rw [show double.fractionBits = 52 from rfl, show double.minExponent = -1074 from rfl]
      omega
    have hfinite : (e + c.log2 + 1022).toNat + 2 < 2 ^ double.exponentBits := by
      rw [show 2 ^ double.exponentBits = 2048 from rfl]
      omega
    obtain ⟨hround, hlt⟩ := roundMagnitude_of_fits hne hbits hk hfinite
    refine ⟨hlt, ?_, number_roundMagnitude_of_fits hne hbits hk hfinite⟩
    rw [hround]
    have hfilled : 2 ∣ c * 2 ^ (double.fractionBits - c.log2) :=
      dvd_mul_of_dvd_right (dvd_pow_self 2 (Nat.sub_ne_zero_of_lt hlog)) _
    have hbinade : 2 ∣ (e + c.log2 + 1022).toNat * double.fractions :=
      dvd_mul_of_dvd_right (by decide) _
    exact Nat.mod_eq_zero_of_dvd (dvd_add hfilled hbinade)

theorem coefficient_single_lt (m : Nat) : single.coefficient m < 2 ^ 24 := single.coefficient_lt m

theorem exponentOf_single (hm : m < single.infinity) :
    -149 ≤ single.exponentOf m ∧ single.exponentOf m ≤ 104 := by
  have hdiv : m / single.fractions < 255 := Nat.div_lt_of_lt_mul hm
  unfold exponentOf
  rw [show single.minExponent = -149 from rfl]
  omega

/-- Widening is exact. -/
theorem isDouble_widened (h : single.magnitude bits < single.infinity) :
    IsDouble (single.number (single.magnitude bits))
      (double.magnitude (convert .single .double bits)) := by
  obtain ⟨hlow, hhigh⟩ := exponentOf_single h
  unfold convert
  rw [decode_of_lt h]
  show IsDouble _ (double.magnitude (double.withSign _ _))
  rw [magnitude_withSign (Nat.lt_of_le_of_lt (roundMagnitude_le ..) double.infinity_lt)]
  exact isDouble_roundMagnitude ((coefficient_single_lt _).trans (by norm_num)) (by omega)
    (by omega)

theorem isNegative_widened (h : single.magnitude bits < single.infinity) :
    double.isNegative (convert .single .double bits) = single.isNegative bits := by
  unfold convert
  rw [decode_of_lt h]
  exact isNegative_withSign (Nat.lt_of_le_of_lt (roundMagnitude_le ..) double.infinity_lt)

/-- The middle between two numbers of single precision is a number of double precision. -/
theorem exists_middle (hm : m < single.infinity) :
    ∃ m', IsDouble (single.number m + single.quantum m / 2) m' := by
  obtain ⟨hlow, hhigh⟩ := exponentOf_single hm
  have hc := coefficient_single_lt m
  have hvalue : single.number m + single.quantum m / 2 =
      (2 * single.coefficient m + 1 : Nat) * 2 ^ (single.exponentOf m - 1) := by
    rw [number, quantum, zpow_sub_one₀ (by norm_num)]
    push_cast
    ring
  rw [hvalue]
  exact ⟨_, isDouble_roundMagnitude (by omega) (by omega) (by omega)⟩

/-- What rounds to a number in single precision is still between the middles to its neighbours when
it was rounded to double precision first. -/
theorem between_of_nearest_double (hm : m < single.infinity) (h : single.Between x m)
    (hnearest : double.Nearest x m') : single.Between (double.number m') m where
  low := by
    rcases Nat.eq_zero_or_pos m with rfl | hpos
    · have hquantum := single.quantum_pos (0 - 1)
      have hnumber := double.number_nonneg m'
      rw [number_zero]
      linarith
    · obtain ⟨middle, hmiddle⟩ := exists_middle (m := m - 1) (by omega)
      have hprev := number_pred (f := single) hpos
      have hlow := h.low
      have hle := hnearest.le_number hmiddle.finite.le (by rw [hmiddle.number]; linarith)
      rw [hmiddle.number] at hle
      linarith
  high := by
    obtain ⟨middle, hmiddle⟩ := exists_middle hm
    have hle := hnearest.number_le hmiddle.finite.le (by rw [hmiddle.number]; exact h.high)
    rwa [hmiddle.number] at hle

end Format
end TensorGraph
