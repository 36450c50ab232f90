/-
Binary floating-point formats.

An element of a float type is a bit pattern: a sign, a biased exponent and a
fraction.  `decode` gives the number a pattern stands for as
`coefficient * 2 ^ exponent`, and `round` finds the pattern nearest to such a
number, a tie going to the even pattern.  Everything is exact arithmetic on
naturals and integers, so the operations built on it reduce in the kernel.

Patterns of one sign are ordered like the numbers they stand for and without
gaps.  That is why `roundMagnitude` is one sum: rounding up to the next binade,
or from the largest finite number to infinity, is a carry into the exponent.
-/

-- Powers are those of the core library, whatever else is imported.
attribute [local instance (2000)] instPowNat

namespace TensorGraph

structure Format where
  exponentBits : Nat
  fractionBits : Nat
  deriving DecidableEq, Repr

inductive Datum where
  | nan (negative : Bool) (payload : Nat)
  | infinite (negative : Bool)
  | finite (negative : Bool) (coefficient : Nat) (exponent : Int)
  deriving DecidableEq, Repr

/-- The quotient `n / 2 ^ k` to the nearest natural, a tie to the even one. -/
def shiftRound (n k : Nat) : Nat :=
  let quotient := n / 2 ^ k
  let rest := n % 2 ^ k
  if 2 * rest > 2 ^ k ∨ (2 * rest = 2 ^ k ∧ quotient % 2 = 1) then quotient + 1 else quotient

namespace Format

def half : Format := ⟨5, 10⟩

def single : Format := ⟨8, 23⟩

def double : Format := ⟨11, 52⟩

def fractions (f : Format) : Nat := 2 ^ f.fractionBits

/-- The weight of the sign bit; a pattern below it is its own magnitude. -/
def signWeight (f : Format) : Nat := 2 ^ (f.exponentBits + f.fractionBits)

def infinity (f : Format) : Nat := (2 ^ f.exponentBits - 1) * f.fractions

/-- The fraction bit that tells a quiet NaN from a signalling one. -/
def quietBit (f : Format) : Nat := 2 ^ (f.fractionBits - 1)

def minExponent (f : Format) : Int := 2 - 2 ^ (f.exponentBits - 1) - f.fractionBits

def isNegative (f : Format) (bits : Nat) : Bool := bits / f.signWeight % 2 = 1

def magnitude (f : Format) (bits : Nat) : Nat := bits % f.signWeight

def withSign (f : Format) (negative : Bool) (magnitude : Nat) : Nat :=
  if negative then f.signWeight + magnitude else magnitude

def isNan (f : Format) (bits : Nat) : Bool := f.magnitude bits > f.infinity

def decode (f : Format) (bits : Nat) : Datum :=
  let negative := f.isNegative bits
  let magnitude := f.magnitude bits
  let field := magnitude / f.fractions
  let fraction := magnitude % f.fractions
  if magnitude > f.infinity then .nan negative fraction
  else if magnitude = f.infinity then .infinite negative
  else if field = 0 then .finite negative fraction f.minExponent
  else .finite negative (f.fractions + fraction) (f.minExponent + (field - 1))

/-- The magnitude nearest to `coefficient * 2 ^ exponent`.  The quantum is the
weight of the last fraction bit in the binade of the number. -/
def roundMagnitude (f : Format) (coefficient : Nat) (exponent : Int) : Nat :=
  if coefficient = 0 then 0
  else
    let quantum := max (exponent + coefficient.log2 - f.fractionBits) f.minExponent
    let steps :=
      if quantum ≤ exponent then coefficient * 2 ^ (exponent - quantum).toNat
      else shiftRound coefficient (quantum - exponent).toNat
    min (steps + (quantum - f.minExponent).toNat * f.fractions) f.infinity

def round (f : Format) (negative : Bool) (coefficient : Nat) (exponent : Int) : Nat :=
  f.withSign negative (f.roundMagnitude coefficient exponent)

/-- The NaN that stands for an operation without a result: quiet and negative,
with no payload. -/
def invalid (f : Format) : Nat := f.withSign true (f.infinity + f.quietBit)

def quieted (f : Format) (bits : Nat) : Nat := bits ||| f.quietBit

theorem roundMagnitude_zero (f : Format) (exponent : Int) : f.roundMagnitude 0 exponent = 0 :=
  if_pos rfl

/-- No rounding passes infinity. -/
theorem roundMagnitude_le (f : Format) (coefficient : Nat) (exponent : Int) :
    f.roundMagnitude coefficient exponent ≤ f.infinity := by
  unfold roundMagnitude
  split
  · exact Nat.zero_le _
  · exact Nat.min_le_right _ _

end Format

end TensorGraph
