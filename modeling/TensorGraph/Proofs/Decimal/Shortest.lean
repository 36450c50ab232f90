/-
The shortest decimal rounds back.

`Target.holds` compares naturals; over the rationals it says that a decimal lies between the middles
to the neighbours of a number, which are not included if the number is odd, so the decimal rounds to
that number: `nearest_of_holds`.  The search for the shortest decimal ends with one that lies there:
at the lowest power that it looks at, the number is itself a multiple of the power.  It ends no later
than at a power that the number is a multiple of, so a number that is itself a decimal, with not too
many digits, is written as it is: `value_written`.
-/
import TensorGraph.Decimal.Shortest
import TensorGraph.Proofs.Binary.Nearest

namespace TensorGraph
namespace Decimal

variable {f : Format} {t : Target} {d : Decimal} {m digits steps : Nat} {power unit : ℤ}

def value (d : Decimal) : ℚ := d.digits * 10 ^ d.exponent

theorem value_nonneg (d : Decimal) : 0 ≤ d.value :=
  mul_nonneg (Nat.cast_nonneg _) (zpow_nonneg (by norm_num) _)

/-! ## Intervals -/

theorem zpow_mul_pow_toNat {b : ℚ} (hb : b ≠ 0) (z : ℤ) : b ^ z * b ^ (-z).toNat = b ^ z.toNat := by
  rw [← zpow_natCast, ← zpow_natCast, ← zpow_add₀ hb]
  congr 1
  omega

/-- Both scales are the powers that they stand for, times the same factor. -/
theorem exists_scales (unit power : ℤ) : ∃ k : ℚ, 0 < k ∧
    ((scales unit power).1 : ℚ) = 10 ^ power * k ∧ ((scales unit power).2 : ℚ) = 2 ^ unit * k := by
  refine ⟨2 ^ (-unit).toNat * 10 ^ (-power).toNat, by positivity, ?_, ?_⟩
  · have h := zpow_mul_pow_toNat (b := 10) (by norm_num) power
    unfold scales
    push_cast
    rw [← h]
    ring
  · have h := zpow_mul_pow_toNat (b := 2) (by norm_num) unit
    unfold scales
    push_cast
    rw [← h]
    ring

/-- A decimal that lies in the interval, its ends being included if it is closed. -/
theorem Target.holds_iff : t.holds d.digits d.exponent = true ↔
    (t.low * 2 ^ t.unit ≤ d.value ∧ d.value ≤ t.high * 2 ^ t.unit) ∧
      (t.closed = false → t.low * 2 ^ t.unit ≠ d.value ∧ d.value ≠ t.high * 2 ^ t.unit) := by
  obtain ⟨k, hk, htens, htwos⟩ := exists_scales t.unit d.exponent
  have hcast : ∀ n : Nat, ((n * (scales t.unit d.exponent).2 : Nat) : ℚ) = n * 2 ^ t.unit * k := by
    intro n
    push_cast [htwos]
    ring
  have hdigits : ((d.digits * (scales t.unit d.exponent).1 : Nat) : ℚ) = d.value * k := by
    rw [Nat.cast_mul, htens, Decimal.value]
    ring
  have hlow : t.low * (scales t.unit d.exponent).2 ≤ d.digits * (scales t.unit d.exponent).1 ↔
      t.low * 2 ^ t.unit ≤ d.value := by
    rw [← Nat.cast_le (α := ℚ), hcast, hdigits, mul_le_mul_iff_left₀ hk]
  have hhigh : d.digits * (scales t.unit d.exponent).1 ≤ t.high * (scales t.unit d.exponent).2 ↔
      d.value ≤ t.high * 2 ^ t.unit := by
    rw [← Nat.cast_le (α := ℚ), hcast, hdigits, mul_le_mul_iff_left₀ hk]
  have hlow' : t.low * (scales t.unit d.exponent).2 = d.digits * (scales t.unit d.exponent).1 ↔
      t.low * 2 ^ t.unit = d.value := by
    rw [← Nat.cast_inj (R := ℚ), hcast, hdigits, mul_left_inj' hk.ne']
  have hhigh' : d.digits * (scales t.unit d.exponent).1 = t.high * (scales t.unit d.exponent).2 ↔
      d.value = t.high * 2 ^ t.unit := by
    rw [← Nat.cast_inj (R := ℚ), hcast, hdigits, mul_left_inj' hk.ne']
  unfold Target.holds
  dsimp only
  cases t.closed with
  | true =>
    rw [if_pos rfl, Bool.and_eq_true, decide_eq_true_iff, decide_eq_true_iff, hlow, hhigh]
    exact ⟨fun h => ⟨h, fun hopen => nomatch hopen⟩, fun h => h.1⟩
  | false =>
    rw [if_neg Bool.false_ne_true, Bool.and_eq_true, decide_eq_true_iff, decide_eq_true_iff,
      Nat.lt_iff_le_and_ne, Nat.lt_iff_le_and_ne, hlow, hhigh, Ne, Ne, hlow', hhigh']
    tauto

/-! ## The interval of a magnitude -/

theorem coefficient_pos (hm : 0 < m) : 0 < f.coefficient m := by
  have hpos := f.fractions_pos
  unfold Format.coefficient
  split
  · next h =>
    rw [Nat.div_eq_zero_iff_lt hpos] at h
    rw [Nat.mod_eq_of_lt h]
    omega
  · omega

theorem coefficient_mod_two (hf : 0 < f.fractionBits) : f.coefficient m % 2 = m % 2 := by
  have heven : 2 ∣ f.fractions := dvd_pow_self 2 hf.ne'
  have hmod : m % f.fractions % 2 = m % 2 := Nat.mod_mod_of_dvd m heven
  unfold Format.coefficient
  split <;> omega

theorem two_zpow_unit (f : Format) (m : Nat) :
    (2 : ℚ) ^ (f.exponentOf m - 2) = f.quantum m / 4 := by
  rw [Format.quantum, zpow_sub₀ (by norm_num)]
  norm_num

/-- A power of two is twice as near to the number below it, except at the bottom of the range. -/
theorem quantum_pred (hm : 0 < m) : f.quantum (m - 1) =
    if f.coefficient m = f.fractions ∧ f.exponentOf m > f.minExponent then f.quantum m / 2
    else f.quantum m := by
  have hpos := f.fractions_pos
  have hdiv := Nat.div_add_mod m f.fractions
  have hmod := Nat.mod_lt m hpos
  have hexponent : f.exponentOf m = f.minExponent + ((m / f.fractions - 1 : Nat) : ℤ) := rfl
  by_cases h : f.coefficient m = f.fractions ∧ f.exponentOf m > f.minExponent
  · rw [if_pos h]
    obtain ⟨hc, he⟩ := h
    unfold Format.coefficient at hc
    obtain ⟨q, hq⟩ : ∃ q, m / f.fractions = q + 2 := ⟨m / f.fractions - 2, by omega⟩
    rw [hq, if_neg (Nat.succ_ne_zero _)] at hc
    have hm' : m = f.fractions * (q + 2) := by
      rw [hq] at hdiv
      omega
    have hpred : m - 1 = f.fractions * (q + 1) + (f.fractions - 1) := by
      rw [hm', Nat.mul_succ]
      omega
    rw [hpred, hm', Format.quantum_add_fractions f (r := f.fractions - 1) (by omega)]
    ring
  · rw [if_neg h]
    refine Format.quantum_of_div_eq ?_
    unfold Format.coefficient at h
    rcases Nat.eq_zero_or_pos (m % f.fractions) with hzero | hfraction
    · -- the first of its binade, which is the lowest or the one above it
      have hone : m / f.fractions = 1 := by
        rw [hzero] at h
        have hne : m / f.fractions ≠ 0 := by
          intro hq
          rw [hq, hzero] at hdiv
          omega
        rw [if_neg hne, Nat.zero_add] at h
        simp only [true_and, gt_iff_lt, not_lt] at h
        generalize m / f.fractions = q at h hexponent hne ⊢
        omega
      have hlt : m - 1 < f.fractions := by
        rw [hone, hzero] at hdiv
        omega
      rw [hone, Nat.div_eq_of_lt hlt]
    · have hpred : m - 1 = f.fractions * (m / f.fractions) + (m % f.fractions - 1) := by omega
      rw [hpred, Nat.mul_add_div hpos,
        Nat.div_eq_of_lt (show m % f.fractions - 1 < f.fractions by omega), Nat.add_zero]

theorem low_of (hm : 0 < m) :
    ((Target.of f (f.coefficient m) (f.exponentOf m)).low : ℚ) *
        2 ^ (Target.of f (f.coefficient m) (f.exponentOf m)).unit =
      f.number m - f.quantum (m - 1) / 2 := by
  have hc : 0 < f.coefficient m := coefficient_pos hm
  unfold Target.of
  dsimp only
  rw [two_zpow_unit, quantum_pred hm, Format.number]
  split
  · rw [Nat.cast_sub (by omega)]
    push_cast
    ring
  · rw [Nat.cast_sub (by omega)]
    push_cast
    ring

theorem high_of (f : Format) (m : Nat) :
    ((Target.of f (f.coefficient m) (f.exponentOf m)).high : ℚ) *
        2 ^ (Target.of f (f.coefficient m) (f.exponentOf m)).unit =
      f.number m + f.quantum m / 2 := by
  unfold Target.of
  dsimp only
  rw [two_zpow_unit, Format.number]
  push_cast
  ring

/-- What lies in the interval of a magnitude rounds to it. -/
theorem nearest_of_holds (hf : 0 < f.fractionBits) (hm : 0 < m) (hlt : m < f.infinity)
    (h : (Target.of f (f.coefficient m) (f.exponentOf m)).holds d.digits d.exponent = true) :
    f.Nearest d.value m := by
  obtain ⟨⟨hlow, hhigh⟩, hopen⟩ := Target.holds_iff.mp h
  rw [low_of hm] at hlow hopen
  rw [high_of] at hhigh hopen
  refine (Format.nearest_iff d.value_nonneg hlt).mpr ⟨⟨hlow, hhigh⟩, fun hodd => hopen ?_⟩
  refine decide_eq_false ?_
  rw [coefficient_mod_two hf]
  omega

/-! ## The search -/

theorem Target.holds_of_atPower (h : t.atPower power = some digits) :
    t.holds digits power = true := by
  unfold Target.atPower at h
  dsimp only at h
  split at h
  · next hlower =>
    cases h
    exact hlower.1.2
  · split at h
    · next hupper =>
      cases h
      exact hupper
    · cases h

/-- A search that comes to a power with a multiple in the interval ends there at the latest. -/
theorem Target.holds_search {p : ℤ} (hle : p ≤ power) (hlt : power < p + steps)
    (h : t.atPower p ≠ none) :
    t.holds (t.search power steps).digits (t.search power steps).exponent = true ∧
      p ≤ (t.search power steps).exponent := by
  induction steps generalizing power with
  | zero => omega
  | succ steps ih =>
    unfold Target.search
    cases hat : t.atPower power with
    | some digits => exact ⟨Target.holds_of_atPower hat, hle⟩
    | none =>
      have hne : p ≠ power := by
        rintro rfl
        exact h hat
      exact ih (by omega) (by omega)

/-- Where the number is a multiple of the power it stands for itself. -/
theorem Target.atPower_ne_none {n : Nat} (hn : n ≠ 0)
    (hscale : t.value * (scales t.unit power).2 = n * (scales t.unit power).1)
    (hlow : t.low < t.value) (hhigh : t.value < t.high) : t.atPower power ≠ none := by
  obtain ⟨htens, htwos⟩ : 0 < (scales t.unit power).1 ∧ 0 < (scales t.unit power).2 := by
    unfold scales
    exact ⟨by positivity, by positivity⟩
  have hlow' := Nat.mul_lt_mul_of_pos_right hlow htwos
  have hhigh' := Nat.mul_lt_mul_of_pos_right hhigh htwos
  have hholds : t.holds n power = true := by
    unfold Target.holds
    dsimp only
    split
    · rw [Bool.and_eq_true, decide_eq_true_iff, decide_eq_true_iff]
      omega
    · rw [Bool.and_eq_true, decide_eq_true_iff, decide_eq_true_iff]
      omega
  unfold Target.atPower
  dsimp only
  rw [hscale, Nat.mul_div_cancel _ htens, Nat.mul_mod_left, if_pos ⟨⟨hn, hholds⟩, Or.inr htens⟩]
  exact Option.some_ne_none n

/-- Far enough down every number is a multiple of the power. -/
theorem exists_multiple {c : Nat} (hc : c ≠ 0) (unit : ℤ) : ∃ n : Nat, n ≠ 0 ∧
    c * (scales unit (min 0 unit)).2 = n * (scales unit (min 0 unit)).1 := by
  unfold scales
  dsimp only
  rcases le_total 0 unit with hle | hle
  · rw [min_eq_left hle]
    refine ⟨c * 2 ^ unit.toNat, by positivity, ?_⟩
    rw [show (-unit).toNat = 0 by omega]
    simp
  · rw [min_eq_right hle]
    refine ⟨c * 5 ^ (-unit).toNat, by positivity, ?_⟩
    rw [show unit.toNat = 0 by omega, show (10 : Nat) = 5 * 2 from rfl, Nat.mul_pow]
    ring

def start (c : Nat) (e : ℤ) : ℤ :=
  if e + c.log2 + 1 ≥ 0 then e + c.log2 + 1 else -(-(e + c.log2 + 1) / 4)

theorem shortest_eq (f : Format) (c : Nat) (e : ℤ) : shortest f c e =
    (Target.of f c e).search (start c e) (start c e - min 0 (e - 2) + 1).toNat := rfl

theorem le_start (c : Nat) (e : ℤ) : min 0 (e - 2) ≤ start c e := by
  unfold start
  split <;> omega

theorem lt_start (c : Nat) (e : ℤ) : c * (2 : ℚ) ^ e < 10 ^ start c e := by
  have hbits : (c : ℚ) < 2 ^ (c.log2 + 1) := by exact_mod_cast Nat.lt_log2_self
  have htop : c * (2 : ℚ) ^ e < 2 ^ (e + c.log2 + 1) := by
    have h := mul_lt_mul_of_pos_right hbits (zpow_pos (by norm_num : (0 : ℚ) < 2) e)
    rw [← zpow_natCast, ← zpow_add₀ (by norm_num)] at h
    rwa [show e + c.log2 + 1 = ((c.log2 + 1 : Nat) : ℤ) + e by push_cast; ring]
  refine htop.trans_le ?_
  unfold start
  generalize e + c.log2 + 1 = top
  split
  · next hle => exact zpow_le_zpow_left₀ hle (by norm_num) (by norm_num)
  · next hlt =>
    -- sixteen is more than ten
    calc (2 : ℚ) ^ top ≤ 2 ^ (4 * -(-top / 4)) :=
          zpow_le_zpow_right₀ (by norm_num) (by omega)
      _ = (16 ^ (-top / 4))⁻¹ := by
          rw [zpow_mul, zpow_neg]
          norm_num
      _ ≤ (10 ^ (-top / 4))⁻¹ :=
          inv_anti₀ (zpow_pos (by norm_num) _)
            (zpow_le_zpow_left₀ (by omega) (by norm_num) (by norm_num))
      _ = 10 ^ (-(-top / 4)) := (zpow_neg ..).symm

theorem scale_of_eq {c n : Nat} {e : ℤ} (h : c * (2 : ℚ) ^ e = n * 10 ^ power) :
    4 * c * (scales (e - 2) power).2 = n * (scales (e - 2) power).1 := by
  obtain ⟨k, hk, htens, htwos⟩ := exists_scales (e - 2) power
  have hunit : (2 : ℚ) ^ e = 4 * 2 ^ (e - 2) := by
    rw [zpow_sub₀ (by norm_num)]
    norm_num
    ring
  rw [← Nat.cast_inj (R := ℚ)]
  push_cast
  rw [htens, htwos, ← mul_assoc, ← mul_assoc, ← h, hunit]
  ring

/-- The shortest decimal lies in the interval, and has no digits below a power that the number is a
multiple of. -/
theorem shortest_spec {c : Nat} (hc : c ≠ 0) (e : ℤ) :
    (Target.of f c e).holds (shortest f c e).digits (shortest f c e).exponent = true ∧
      ∀ (n : Nat) (power : ℤ), c * (2 : ℚ) ^ e = n * 10 ^ power →
        power ≤ (shortest f c e).exponent := by
  have hlow : (Target.of f c e).low < (Target.of f c e).value := by
    show (if c = f.fractions ∧ e > f.minExponent then 4 * c - 1 else 4 * c - 2) < 4 * c
    split <;> omega
  have hhigh : (Target.of f c e).value < (Target.of f c e).high :=
    Nat.lt_add_of_pos_right (by norm_num)
  have hsearch : ∀ power n, min 0 (e - 2) ≤ power → power ≤ start c e → n ≠ 0 →
      4 * c * (scales (e - 2) power).2 = n * (scales (e - 2) power).1 →
      (Target.of f c e).holds (shortest f c e).digits (shortest f c e).exponent = true ∧
        power ≤ (shortest f c e).exponent := by
    intro power n hle hstart hn hscale
    rw [shortest_eq]
    have hat : (Target.of f c e).atPower power ≠ none :=
      Target.atPower_ne_none hn hscale hlow hhigh
    exact Target.holds_search hstart (by omega) hat
  obtain ⟨n, hn, hscale⟩ := exists_multiple (c := 4 * c) (by omega) (e - 2)
  obtain ⟨hholds, hfloor⟩ := hsearch _ n le_rfl (le_start c e) hn hscale
  refine ⟨hholds, fun n power h => ?_⟩
  rcases le_total power (min 0 (e - 2)) with hle | hle
  · exact hle.trans hfloor
  · have hn : n ≠ 0 := by
      rintro rfl
      rw [Nat.cast_zero, zero_mul] at h
      exact (mul_pos (by exact_mod_cast Nat.pos_of_ne_zero hc)
        (zpow_pos (by norm_num) e)).ne' h
    have hstart : (10 : ℚ) ^ power < 10 ^ start c e := by
      have hone : (1 : ℚ) ≤ n := by exact_mod_cast Nat.pos_of_ne_zero hn
      have hpower : (0 : ℚ) < 10 ^ power := zpow_pos (by norm_num) _
      have hlt := lt_start c e
      rw [h] at hlt
      nlinarith
    exact (hsearch power n hle ((zpow_lt_zpow_iff_right₀ (by norm_num)).mp hstart).le hn
      (scale_of_eq h)).2

/-! ## What is written -/

/-- The decimal that is written for a magnitude. -/
def written (f : Format) (m : Nat) : Decimal :=
  if f.coefficient m = 0 then ⟨0, 0⟩ else shortest f (f.coefficient m) (f.exponentOf m)

/-- It rounds back to the magnitude. -/
theorem nearest_written (hf : 0 < f.fractionBits) (hlt : m < f.infinity) :
    f.Nearest (written f m).value m := by
  unfold written
  rcases Nat.eq_zero_or_pos m with rfl | hm
  · rw [if_pos (by simp [Format.coefficient]), Decimal.value, Nat.cast_zero, zero_mul]
    exact Format.nearest_zero hlt
  · have hc := (coefficient_pos (f := f) hm).ne'
    rw [if_neg hc]
    exact nearest_of_holds hf hm hlt (shortest_spec hc _).1

theorem quantum_pred_le (hm : 0 < m) : f.quantum (m - 1) ≤ f.quantum m := by
  have hpos := f.quantum_pos m
  rw [quantum_pred hm]
  split <;> linarith

/-- A number that is itself a decimal, with no digits below the distance to the next number, is
written as it is. -/
theorem value_written (hf : 0 < f.fractionBits) (hlt : m < f.infinity) {n : Nat}
    (hn : f.number m = n * 10 ^ power) (hquantum : f.quantum m ≤ 10 ^ power) :
    (written f m).value = f.number m := by
  have hbetween := (nearest_written hf hlt).between (written f m).value_nonneg hlt
  rcases Nat.eq_zero_or_pos m with rfl | hm
  · rw [written, if_pos (by simp [Format.coefficient]), Format.number_zero, Decimal.value,
      Nat.cast_zero, zero_mul]
  · have hc := (coefficient_pos (f := f) hm).ne'
    obtain ⟨k, hk⟩ : ∃ k : Nat, (written f m).value = k * 10 ^ power := by
      unfold written
      rw [if_neg hc]
      have hle := (shortest_spec (f := f) hc (f.exponentOf m)).2 n power hn
      generalize shortest f (f.coefficient m) (f.exponentOf m) = d at hle
      refine ⟨d.digits * 10 ^ (d.exponent - power).toNat, ?_⟩
      rw [Decimal.value, Nat.cast_mul, Nat.cast_pow, Nat.cast_ofNat, mul_assoc, ← zpow_natCast,
        ← zpow_add₀ (by norm_num), Int.toNat_of_nonneg (Int.sub_nonneg_of_le hle),
        Int.sub_add_cancel]
    -- two multiples of the power that are less than the power apart
    have hpower : (0 : ℚ) < 10 ^ power := zpow_pos (by norm_num) _
    have hpred := quantum_pred_le (f := f) hm
    have hlow := hbetween.low
    have hhigh := hbetween.high
    rw [hk, hn] at hlow hhigh
    have hbelow : (k : ℚ) < (n + 1 : Nat) := by
      push_cast
      nlinarith
    have habove : (n : ℚ) < (k + 1 : Nat) := by
      push_cast
      nlinarith
    have hkn : k = n := by
      rw [Nat.cast_lt] at hbelow habove
      omega
    rw [hk, hn, hkn]

end Decimal
end TensorGraph
