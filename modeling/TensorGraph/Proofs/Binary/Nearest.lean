/-
The pattern nearest to a number.

The patterns of one sign are ordered like the numbers they stand for: `number` goes up by one
`quantum` from each magnitude to the next.  Behind the largest finite number this leads to
infinity, which stands for the power of two that would come next, so a number rounds to it from
half a quantum on.  `Nearest` is rounding to the nearest pattern, a tie going to the even one, and
`nearest_iff` bounds the numbers that round to a magnitude by the middles between it and its
neighbours.
-/
import TensorGraph.Binary.Arithmetic
import TensorGraph.Proofs.Binary.Patterns

namespace TensorGraph
namespace Format

variable {f : Format} {m n : Nat} {x : ℚ}

/-! ## Magnitudes as numbers -/

/-- The exponent of a magnitude; the lowest two binades share theirs. -/
def exponentOf (f : Format) (m : Nat) : ℤ := f.minExponent + ((m / f.fractions - 1 : Nat) : ℤ)

def quantum (f : Format) (m : Nat) : ℚ := 2 ^ f.exponentOf m

/-- The fraction of a magnitude, with the bit before the point that normal numbers have. -/
def coefficient (f : Format) (m : Nat) : Nat :=
  m % f.fractions + if m / f.fractions = 0 then 0 else f.fractions

/-- The number that a magnitude stands for. -/
def number (f : Format) (m : Nat) : ℚ := f.coefficient m * f.quantum m

theorem quantum_pos (f : Format) (m : Nat) : 0 < f.quantum m := zpow_pos (by norm_num) _

theorem quantum_of_div_eq (h : m / f.fractions - 1 = n / f.fractions - 1) :
    f.quantum m = f.quantum n := by
  unfold quantum exponentOf
  rw [h]

/-- The binades double. -/
theorem quantum_add_fractions (f : Format) {q r : Nat} (hr : r < f.fractions) :
    f.quantum (f.fractions * (q + 2)) = 2 * f.quantum (f.fractions * (q + 1) + r) := by
  have hpos := f.fractions_pos
  unfold quantum exponentOf
  rw [Nat.mul_div_cancel_left _ hpos, Nat.mul_add_div hpos, Nat.div_eq_of_lt hr, ← zpow_one_add₀
    (by norm_num : (2 : ℚ) ≠ 0)]
  congr 1
  push_cast [show q + 2 - 1 = q + 1 from rfl, show q + 1 + 0 - 1 = q from rfl]
  ring

theorem number_zero (f : Format) : f.number 0 = 0 := by
  simp [number, coefficient]

theorem number_nonneg (f : Format) (m : Nat) : 0 ≤ f.number m :=
  mul_nonneg (Nat.cast_nonneg _) (f.quantum_pos m).le

theorem coefficient_lt (f : Format) (m : Nat) : f.coefficient m < 2 * f.fractions := by
  have hmod := Nat.mod_lt m f.fractions_pos
  unfold coefficient
  split <;> omega

theorem decode_of_lt {bits : Nat} (h : f.magnitude bits < f.infinity) :
    f.decode bits = .finite (f.isNegative bits) (f.coefficient (f.magnitude bits))
      (f.exponentOf (f.magnitude bits)) := by
  unfold decode coefficient exponentOf
  dsimp only
  rw [if_neg (Nat.not_lt.mpr h.le), if_neg h.ne]
  split
  · next hfield => rw [hfield, Nat.add_zero, Nat.zero_sub, Nat.cast_zero, Int.add_zero]
  · next hfield =>
    rw [Nat.add_comm, Nat.cast_sub (Nat.one_le_iff_ne_zero.mpr hfield), Nat.cast_one]

/-- From one magnitude to the next the number goes up by one quantum, into the next binade too. -/
theorem number_succ (f : Format) (m : Nat) : f.number (m + 1) = f.number m + f.quantum m := by
  have hpos := f.fractions_pos
  obtain ⟨q, r, hr, rfl⟩ : ∃ q r, r < f.fractions ∧ m = f.fractions * q + r :=
    ⟨m / f.fractions, m % f.fractions, Nat.mod_lt _ hpos, (Nat.div_add_mod ..).symm⟩
  unfold number coefficient
  rw [Nat.mul_add_div hpos, Nat.mul_add_mod, Nat.div_eq_of_lt hr, Nat.mod_eq_of_lt hr, Nat.add_zero]
  rcases Nat.lt_or_ge (r + 1) f.fractions with hlt | hge
  · -- within one binade
    rw [Nat.add_assoc, Nat.mul_add_div hpos, Nat.mul_add_mod, Nat.div_eq_of_lt hlt,
      Nat.mod_eq_of_lt hlt, Nat.add_zero, quantum_of_div_eq (n := f.fractions * q + r)]
    · push_cast
      ring
    · rw [Nat.mul_add_div hpos, Nat.mul_add_div hpos, Nat.div_eq_of_lt hlt, Nat.div_eq_of_lt hr]
  · -- from the last of a binade
    have hnext : f.fractions * q + r + 1 = f.fractions * (q + 1) := by
      rw [Nat.mul_succ]
      omega
    have hr' : (r : ℚ) + 1 = f.fractions := by
      exact_mod_cast (show r + 1 = f.fractions by omega)
    rw [hnext, Nat.mul_div_cancel_left _ hpos, Nat.mul_mod_right, if_neg (Nat.succ_ne_zero q)]
    rcases q with _ | q
    · have hquantum : f.quantum (f.fractions * (0 + 1)) = f.quantum (f.fractions * 0 + r) :=
        quantum_of_div_eq (by rw [Nat.mul_div_cancel_left _ hpos, Nat.mul_zero, Nat.zero_add,
          Nat.zero_add, Nat.div_eq_of_lt hr])
      rw [hquantum, if_pos rfl]
      push_cast
      rw [← hr']
      ring
    · rw [quantum_add_fractions f hr, if_neg (Nat.succ_ne_zero q)]
      push_cast
      rw [← hr']
      ring

theorem number_strictMono (f : Format) : StrictMono f.number :=
  strictMono_nat_of_lt_succ fun m => by
    rw [number_succ]
    exact lt_add_of_pos_right _ (f.quantum_pos m)

theorem number_pred (hm : 0 < m) : f.number (m - 1) = f.number m - f.quantum (m - 1) := by
  have h := f.number_succ (m - 1)
  rw [Nat.sub_add_cancel hm] at h
  rw [h, add_sub_cancel_right]

/-! ## The nearest magnitude -/

/-- Whether a magnitude is the nearest to a number, a tie going to the even one. -/
def Nearest (f : Format) (x : ℚ) (m : Nat) : Prop :=
  m ≤ f.infinity ∧ ∀ n ≤ f.infinity, n ≠ m → |x - f.number m| < |x - f.number n| ∨
    |x - f.number m| = |x - f.number n| ∧ m % 2 = 0

structure Between (f : Format) (x : ℚ) (m : Nat) : Prop where
  low : f.number m - f.quantum (m - 1) / 2 ≤ x
  high : x ≤ f.number m + f.quantum m / 2

theorem between_number (f : Format) (m : Nat) : f.Between (f.number m) m where
  low := by
    have hquantum := f.quantum_pos (m - 1)
    linarith
  high := by
    have hquantum := f.quantum_pos m
    linarith

theorem Between.nearer_of_lt (h : f.Between x m) (hlt : m < n) :
    |x - f.number m| < |x - f.number n| ∨
      |x - f.number m| = |x - f.number n| ∧ x = f.number m + f.quantum m / 2 := by
  have hnext : f.number m + f.quantum m ≤ f.number n := by
    rw [← number_succ]
    exact f.number_strictMono.monotone hlt
  have hpos := f.quantum_pos m
  have hhigh := h.high
  rw [abs_of_nonpos (a := x - f.number n) (by linarith)]
  rcases le_total (f.number m) x with hle | hle
  · rw [abs_of_nonneg (sub_nonneg.mpr hle)]
    rcases lt_or_eq_of_le (show x - f.number m ≤ -(x - f.number n) by linarith) with hlt | heq
    · exact Or.inl hlt
    · exact Or.inr ⟨heq, by linarith⟩
  · rw [abs_of_nonpos (sub_nonpos.mpr hle)]
    exact Or.inl (by linarith)

theorem Between.nearer_of_gt (h : f.Between x m) (hlt : n < m) :
    |x - f.number m| < |x - f.number n| ∨
      |x - f.number m| = |x - f.number n| ∧ x = f.number m - f.quantum (m - 1) / 2 := by
  have hprev : f.number n ≤ f.number m - f.quantum (m - 1) := by
    rw [← number_pred (Nat.zero_lt_of_lt hlt)]
    exact f.number_strictMono.monotone (Nat.le_pred_of_lt hlt)
  have hpos := f.quantum_pos (m - 1)
  have hlow := h.low
  rw [abs_of_nonneg (a := x - f.number n) (by linarith)]
  rcases le_total (f.number m) x with hle | hle
  · rw [abs_of_nonneg (sub_nonneg.mpr hle)]
    exact Or.inl (by linarith)
  · rw [abs_of_nonpos (sub_nonpos.mpr hle)]
    rcases lt_or_eq_of_le (show -(x - f.number m) ≤ x - f.number n by linarith) with hlt | heq
    · exact Or.inl hlt
    · exact Or.inr ⟨heq, by linarith⟩

/-- What is at least as near to the upper of two numbers is not below their middle. -/
theorem middle_le {a b : ℚ} (hab : b < a) (h : |x - a| ≤ |x - b|) : (a + b) / 2 ≤ x := by
  have hsq : (x - a) ^ 2 ≤ (x - b) ^ 2 := sq_le_sq.mpr h
  by_contra hlt
  rw [not_le] at hlt
  nlinarith

/-- What is at least as near to the lower of two numbers is not above their middle. -/
theorem le_middle {a b : ℚ} (hab : a < b) (h : |x - a| ≤ |x - b|) : x ≤ (a + b) / 2 := by
  have hsq : (x - a) ^ 2 ≤ (x - b) ^ 2 := sq_le_sq.mpr h
  by_contra hlt
  rw [not_le] at hlt
  nlinarith

theorem Nearest.abs_le (h : f.Nearest x m) (hn : n ≤ f.infinity) :
    |x - f.number m| ≤ |x - f.number n| := by
  rcases eq_or_ne n m with rfl | hne
  · exact le_rfl
  · exact (h.2 n hn hne).elim le_of_lt fun heq => heq.1.le

/-- Rounding does not pass a number of the format. -/
theorem Nearest.number_le (h : f.Nearest x m) (hn : n ≤ f.infinity) (hx : x ≤ f.number n) :
    f.number m ≤ f.number n := by
  by_contra hlt
  rw [not_le] at hlt
  have hle := h.abs_le hn
  rw [abs_of_nonpos (by linarith), abs_of_nonpos (by linarith)] at hle
  linarith

theorem Nearest.le_number (h : f.Nearest x m) (hn : n ≤ f.infinity) (hx : f.number n ≤ x) :
    f.number n ≤ f.number m := by
  by_contra hlt
  rw [not_le] at hlt
  have hle := h.abs_le hn
  rw [abs_of_nonneg (by linarith), abs_of_nonneg (by linarith)] at hle
  linarith

theorem Nearest.between (h : f.Nearest x m) (hx : 0 ≤ x) (hm : m < f.infinity) :
    f.Between x m where
  low := by
    rcases Nat.eq_zero_or_pos m with rfl | hpos
    · have hquantum := f.quantum_pos (0 - 1)
      rw [number_zero]
      linarith
    · have hprev := number_pred (f := f) hpos
      have hquantum := f.quantum_pos (m - 1)
      have hmiddle := middle_le (by linarith) (h.abs_le (n := m - 1) (by omega))
      rw [hprev] at hmiddle
      linarith
  high := by
    have hnext := f.number_succ m
    have hquantum := f.quantum_pos m
    have hmiddle := le_middle (by linarith) (h.abs_le (n := m + 1) hm)
    rw [hnext] at hmiddle
    linarith

/-- An odd magnitude is not the nearest to a middle. -/
theorem Nearest.ne_middle (h : f.Nearest x m) (hodd : m % 2 = 1) (hn : n ≤ f.infinity)
    (hne : n ≠ m) : |x - f.number m| ≠ |x - f.number n| := by
  intro heq
  rcases h.2 n hn hne with hlt | ⟨-, heven⟩
  · exact absurd heq hlt.ne
  · omega

theorem Nearest.not_lt (h : f.Nearest x m) (h' : f.Nearest x n) : ¬m < n := by
  intro hlt
  have heq : |x - f.number m| = |x - f.number n| := le_antisymm (h.abs_le h'.1) (h'.abs_le h.1)
  have heven := ((h.2 n h'.1 (by omega)).resolve_left heq.not_lt).2
  have heven' := ((h'.2 m h.1 (by omega)).resolve_left heq.symm.not_lt).2
  -- between two even magnitudes there is one that is nearer to their middle
  have hbelow : f.number m < f.number (m + 1) := f.number_strictMono (Nat.lt_succ_self m)
  have habove : f.number (m + 1) < f.number n := f.number_strictMono (by omega)
  have hlow := middle_le (hbelow.trans habove) heq.ge
  have hhigh := le_middle (hbelow.trans habove) heq.le
  have hnearer : |x - f.number (m + 1)| < |x - f.number m| := by
    rw [abs_of_nonneg (a := x - f.number m) (by linarith), abs_lt]
    constructor <;> linarith
  exact absurd (h.abs_le (n := m + 1) (by have := h'.1; omega)) hnearer.not_ge

/-- No number has two nearest magnitudes. -/
theorem Nearest.unique (h : f.Nearest x m) (h' : f.Nearest x n) : m = n :=
  Nat.le_antisymm (Nat.not_lt.mp (h'.not_lt h)) (Nat.not_lt.mp (h.not_lt h'))

/-- The numbers that round to a finite magnitude: those between the middles to its neighbours, and
the middles themselves if it is even. -/
theorem nearest_iff (hx : 0 ≤ x) (hm : m < f.infinity) :
    f.Nearest x m ↔ f.Between x m ∧ (m % 2 = 1 →
      f.number m - f.quantum (m - 1) / 2 ≠ x ∧ x ≠ f.number m + f.quantum m / 2) := by
  constructor
  · refine fun h => ⟨h.between hx hm, fun hodd => ⟨?_, ?_⟩⟩
    · rintro rfl
      have hprev := number_pred (f := f) (m := m) (by omega)
      refine h.ne_middle hodd (n := m - 1) (by omega) (by omega) ?_
      rw [hprev, ← abs_neg]
      congr 1
      ring
    · rintro rfl
      refine h.ne_middle hodd (n := m + 1) hm (by omega) ?_
      rw [number_succ, ← abs_neg]
      congr 1
      ring
  · rintro ⟨hbetween, hodd⟩
    refine ⟨hm.le, fun n _ hne => ?_⟩
    have heven : ∀ y, x = y → (m % 2 = 1 → x ≠ y) → m % 2 = 0 := fun y hy hne =>
      (Nat.mod_two_eq_zero_or_one m).resolve_right fun h => hne h hy
    rcases lt_or_gt_of_ne hne with hlt | hgt
    · exact (hbetween.nearer_of_gt hlt).imp_right fun ⟨heq, hmiddle⟩ =>
        ⟨heq, heven _ hmiddle fun h => (hodd h).1.symm⟩
    · exact (hbetween.nearer_of_lt hgt).imp_right fun ⟨heq, hmiddle⟩ =>
        ⟨heq, heven _ hmiddle fun h => (hodd h).2⟩

theorem nearest_zero (h : 0 < f.infinity) : f.Nearest 0 0 := by
  have hbetween := between_number f 0
  rw [number_zero] at hbetween
  exact (nearest_iff le_rfl h).mpr ⟨hbetween, fun hodd => by cases hodd⟩

end Format
end TensorGraph
