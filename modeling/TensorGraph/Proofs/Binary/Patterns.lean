/-
Operations on bit patterns give bit patterns.

A format has `2 * signWeight` patterns, and every operation on patterns gives one of
them.  For an element type this is `Dtype.closed_arithmetic`: what a kernel computes
from stored elements can be stored again without losing a bit.
-/
import TensorGraph.Binary.Elementary
import Mathlib.Tactic

namespace TensorGraph

namespace Format

variable {f g : Format}

def IsPattern (f : Format) (a : Nat) : Prop := a < 2 * f.signWeight

theorem two_mul_signWeight (f : Format) :
    2 * f.signWeight = 2 ^ (f.exponentBits + f.fractionBits + 1) := by
  rw [signWeight, Nat.pow_succ']

theorem infinity_add_fractions (f : Format) : f.infinity + f.fractions = f.signWeight := by
  rw [infinity, signWeight, fractions, ← Nat.succ_mul, Nat.succ_eq_add_one,
    Nat.sub_add_cancel (Nat.two_pow_pos _), ← Nat.pow_add]

theorem fractions_pos (f : Format) : 0 < f.fractions := Nat.two_pow_pos _

theorem infinity_lt (f : Format) : f.infinity < f.signWeight := by
  have h := f.infinity_add_fractions
  have hpos := f.fractions_pos
  omega

theorem magnitude_lt (f : Format) (a : Nat) : f.magnitude a < f.signWeight :=
  Nat.mod_lt _ (Nat.two_pow_pos _)

theorem isPattern_withSign {m : Nat} (h : m < f.signWeight) (negative : Bool) :
    f.IsPattern (f.withSign negative m) := by
  unfold IsPattern withSign
  split <;> omega

theorem isPattern_round (f : Format) (negative : Bool) (c : Nat) (e : Int) :
    f.IsPattern (f.round negative c e) :=
  isPattern_withSign (Nat.lt_of_le_of_lt (f.roundMagnitude_le c e) f.infinity_lt) negative

theorem isPattern_quieted {a : Nat} (h : f.IsPattern a) : f.IsPattern (f.quieted a) := by
  unfold IsPattern at h ⊢
  rw [two_mul_signWeight] at h ⊢
  exact Nat.or_lt_two_pow h (Nat.pow_lt_pow_right (by omega) (by omega))

theorem infinity_add_quietBit_lt (hf : 0 < f.fractionBits) {x : Nat} (hx : x < f.fractions) :
    f.infinity + (x ||| f.quietBit) < f.signWeight := by
  have hor : x ||| f.quietBit < f.fractions :=
    Nat.or_lt_two_pow hx (Nat.pow_lt_pow_right (by omega) (by omega))
  have h := f.infinity_add_fractions
  omega

theorem isPattern_invalid (hf : 0 < f.fractionBits) : f.IsPattern f.invalid := by
  have h := infinity_add_quietBit_lt hf f.fractions_pos
  rw [Nat.zero_or] at h
  exact isPattern_withSign h true

theorem isPattern_infinity (f : Format) (negative : Bool) :
    f.IsPattern (f.withSign negative f.infinity) := isPattern_withSign f.infinity_lt negative

theorem isPattern_zero (f : Format) (negative : Bool) : f.IsPattern (f.withSign negative 0) :=
  isPattern_withSign (Nat.two_pow_pos _) negative

theorem isPattern_add {a b : Nat} (ha : f.IsPattern a) (hb : f.IsPattern b)
    (hf : 0 < f.fractionBits) : f.IsPattern (f.add a b) := by
  unfold add
  split
  · exact isPattern_quieted ha
  · exact isPattern_quieted hb
  · split
    · exact ha
    · exact isPattern_invalid hf
  · exact ha
  · exact hb
  · dsimp only
    split
    · exact isPattern_zero f _
    · exact isPattern_round f _ _ _

theorem isPattern_negate (f : Format) (a : Nat) : f.IsPattern (f.negate a) :=
  isPattern_withSign (f.magnitude_lt a) _

theorem isPattern_sub {a b : Nat} (ha : f.IsPattern a) (hb : f.IsPattern b)
    (hf : 0 < f.fractionBits) : f.IsPattern (f.sub a b) := by
  unfold sub
  split
  · exact isPattern_add ha hb hf
  · exact isPattern_add ha (isPattern_negate f b) hf

theorem isPattern_mul {a b : Nat} (ha : f.IsPattern a) (hb : f.IsPattern b)
    (hf : 0 < f.fractionBits) : f.IsPattern (f.mul a b) := by
  unfold mul
  split
  · exact isPattern_quieted ha
  · exact isPattern_quieted hb
  · exact isPattern_infinity f _
  · split
    · exact isPattern_invalid hf
    · exact isPattern_infinity f _
  · split
    · exact isPattern_invalid hf
    · exact isPattern_infinity f _
  · exact isPattern_round f _ _ _

theorem isPattern_div {a b : Nat} (ha : f.IsPattern a) (hb : f.IsPattern b)
    (hf : 0 < f.fractionBits) : f.IsPattern (f.div a b) := by
  unfold div
  split
  · exact isPattern_quieted ha
  · exact isPattern_quieted hb
  · exact isPattern_invalid hf
  · exact isPattern_infinity f _
  · exact isPattern_zero f _
  · split
    · split
      · exact isPattern_invalid hf
      · exact isPattern_infinity f _
    · exact isPattern_round f _ _ _

theorem isPattern_maximum {a b : Nat} (ha : f.IsPattern a) (hb : f.IsPattern b) :
    f.IsPattern (f.maximum a b) := by
  unfold maximum
  repeat' split
  all_goals assumption

theorem payload_lt {a : Nat} {negative : Bool} {payload : Nat}
    (h : f.decode a = .nan negative payload) : payload < f.fractions := by
  unfold decode at h
  dsimp only at h
  split at h
  · cases h
    exact Nat.mod_lt _ f.fractions_pos
  · split at h
    · cases h
    · split at h <;> cases h

theorem isPattern_convert (f : Format) {g : Format} (hg : 0 < g.fractionBits) (a : Nat) :
    g.IsPattern (f.convert g a) := by
  unfold convert
  split
  · next s payload hd =>
    have hp := payload_lt hd
    have hq : payload * g.fractions / f.fractions < g.fractions := by
      rw [Nat.div_lt_iff_lt_mul f.fractions_pos, Nat.mul_comm]
      exact Nat.mul_lt_mul_of_pos_left hp g.fractions_pos
    exact isPattern_withSign (infinity_add_quietBit_lt hg hq) s
  · exact isPattern_infinity g _
  · exact isPattern_round g _ _ _

end Format

namespace Elementary

theorem isPattern_guarded {f : Format} (hf : 0 < f.fractionBits) {compute : Nat → Nat}
    (hc : ∀ a, f.IsPattern (compute a)) {a : Nat} (ha : f.IsPattern a) :
    f.IsPattern (guarded f compute a) := by
  unfold guarded
  split
  · exact Format.isPattern_quieted ha
  · dsimp only
    split
    · exact Format.isPattern_invalid hf
    · exact hc a

theorem isPattern_single (fn : Elementary) {a : Nat} (ha : Format.single.IsPattern a) :
    Format.single.IsPattern (fn.single a) := by
  refine isPattern_guarded (by decide) (fun b => ?_) ha
  exact UInt32.toNat_lt (fn.onSingle (Float32.ofBits (UInt32.ofNat b))).toBits

theorem isPattern_double (fn : Elementary) {a : Nat} (ha : Format.double.IsPattern a) :
    Format.double.IsPattern (fn.double a) := by
  refine isPattern_guarded (by decide) (fun b => ?_) ha
  exact UInt64.toNat_lt (fn.onDouble (Float.ofBits (UInt64.ofNat b))).toBits

end Elementary

namespace Arithmetic

/-- The operations of an element type of `size` bytes stay among its patterns, with double
precision in between. -/
structure Closed (num : Arithmetic) (size : Nat) : Prop where
  add : ∀ {a b}, a < 256 ^ size → b < 256 ^ size → num.add a b < 256 ^ size
  mul : ∀ {a b}, a < 256 ^ size → b < 256 ^ size → num.mul a b < 256 ^ size
  apply : ∀ fn {a}, a < 256 ^ size → num.apply fn a < 256 ^ size
  widen : ∀ {a}, a < 256 ^ size → Format.double.IsPattern (num.widen a)
  narrow : ∀ {a}, Format.double.IsPattern a → num.narrow a < 256 ^ size

theorem closed_single : single.Closed 4 where
  add ha hb := Format.isPattern_add (f := .single) ha hb (by decide)
  mul ha hb := Format.isPattern_mul (f := .single) ha hb (by decide)
  apply fn _ ha := fn.isPattern_single ha
  widen _ := Format.isPattern_convert _ (by decide) _
  narrow _ := Format.isPattern_convert .double (g := .single) (by decide) _

theorem closed_double : double.Closed 8 where
  add ha hb := Format.isPattern_add (f := .double) ha hb (by decide)
  mul ha hb := Format.isPattern_mul (f := .double) ha hb (by decide)
  apply fn _ ha := fn.isPattern_double ha
  widen ha := ha
  narrow ha := ha

theorem closed_half : half.Closed 2 where
  add _ _ := Format.isPattern_convert .single (g := .half) (by decide) _
  mul _ _ := Format.isPattern_convert .single (g := .half) (by decide) _
  apply _ _ _ := Format.isPattern_convert .single (g := .half) (by decide) _
  widen _ := Format.isPattern_convert _ (by decide) _
  narrow _ := Format.isPattern_convert .single (g := .half) (by decide) _

end Arithmetic

namespace Dtype

/-- What a kernel computes from stored elements can be stored. -/
theorem closed_arithmetic {d : Dtype} {num : Arithmetic} (h : d.arithmetic = some num) :
    num.Closed d.size := by
  cases d with
  | half => cases h; exact Arithmetic.closed_half
  | float => cases h; exact Arithmetic.closed_single
  | double => cases h; exact Arithmetic.closed_double
  | _ => cases h

end Dtype

end TensorGraph
