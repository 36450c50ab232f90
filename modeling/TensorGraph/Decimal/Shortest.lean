/-
The shortest decimal of a binary floating-point number.

A finite number of a format is the nearest one to every real in some interval
around it; the interval includes its ends when the coefficient is even, since a
tie goes to the even pattern.  `shortest` walks down the powers of ten and stops
at the first whose multiples just below or just above the number lie in that
interval.  Of two such multiples it takes the nearer, and the upper one of two
that are equally near.

Quantities are compared as multiples of `2 ^ (exponent - 2)`: there the number is
`4 * coefficient` and both ends of the interval are naturals.
-/
import TensorGraph.Binary.Format

-- Powers are those of the core library, whatever else is imported.
attribute [local instance (2000)] instPowNat

namespace TensorGraph

structure Decimal where
  digits : Nat
  exponent : Int
  deriving DecidableEq, Repr

namespace Decimal

/-- A positive number with the interval of reals that round to it, in units of
`2 ^ unit`. -/
structure Target where
  low : Nat
  value : Nat
  high : Nat
  closed : Bool
  unit : Int

/-- The interval around `coefficient * 2 ^ exponent`.  Below a power of two the
patterns lie twice as close, except at the bottom of the range. -/
def Target.of (f : Format) (coefficient : Nat) (exponent : Int) : Target where
  low :=
    if coefficient = f.fractions ∧ exponent > f.minExponent then 4 * coefficient - 1
    else 4 * coefficient - 2
  value := 4 * coefficient
  high := 4 * coefficient + 2
  closed := coefficient % 2 = 0
  unit := exponent - 2

def scales (unit power : Int) : Nat × Nat :=
  (10 ^ power.toNat * 2 ^ (-unit).toNat, 2 ^ unit.toNat * 10 ^ (-power).toNat)

def Target.holds (t : Target) (digits : Nat) (power : Int) : Bool :=
  let (tens, twos) := scales t.unit power
  let x := digits * tens
  if t.closed then t.low * twos ≤ x && x ≤ t.high * twos
  else t.low * twos < x && x < t.high * twos

/-- The multiple of `10 ^ power` that stands for the number, if one of its two
neighbours among them does. -/
def Target.atPower (t : Target) (power : Int) : Option Nat :=
  let (tens, twos) := scales t.unit power
  let below := t.value * twos / tens
  let rest := t.value * twos % tens
  let lower := below ≠ 0 ∧ t.holds below power = true
  let upper := t.holds (below + 1) power = true
  if lower ∧ (¬ upper ∨ 2 * rest < tens) then some below
  else if upper then some (below + 1)
  else none

/-- The first power of ten, going down from `power`, that has a multiple in the
interval. -/
def Target.search (t : Target) (power : Int) : Nat → Decimal
  | 0 => ⟨t.value, power⟩
  | steps + 1 =>
    match t.atPower power with
    | some digits => ⟨digits, power⟩
    | none => t.search (power - 1) steps

/-- The shortest decimal of the positive number `coefficient * 2 ^ exponent`.
The search begins above the number, and ends at the latest where the number
itself is a multiple of the power of ten. -/
def shortest (f : Format) (coefficient : Nat) (exponent : Int) : Decimal :=
  let top := exponent + coefficient.log2 + 1
  let start := if top ≥ 0 then top else -(-top / 4)
  (Target.of f coefficient exponent).search start (start - min 0 (exponent - 2) + 1).toNat

end Decimal

end TensorGraph
