/-
Uniform random elements of a type.

A float element is drawn in double precision from the multiples of `2 ^ -51` in
`[-1, 1)` and then narrowed to its type as kernels narrow their results; an
integer element is drawn from `0` to `15`.
-/
import TensorGraph.Binary.Elementary
import TensorGraph.Random.Keystream

-- Powers are those of the core library, whatever else is imported.
attribute [local instance (2000)] instPowNat

namespace TensorGraph
namespace Random

/-- A real in `[-1, 1)` from 52 random bits: `(bits - 2 ^ 51) / 2 ^ 51`, given by
its sign and the magnitude of the numerator. -/
def centred (bits : Nat) : Bool × Nat :=
  if bits < 2 ^ (51 : Nat) then (true, 2 ^ (51 : Nat) - bits) else (false, bits - 2 ^ (51 : Nat))

def float (num : Arithmetic) (key : List UInt32) (position : Nat) : Nat :=
  let (negative, numerator) := centred (longWord key position / 2 ^ (12 : Nat))
  num.narrow (Format.double.round negative numerator (-51))

/-- Whether a word is taken for a draw below 16.  Only words whose product with 16
has a low half below `2 ^ 31` are, so half of them are passed over. -/
def accepts (w : UInt32) : Bool := w.toNat * 16 % 2 ^ (32 : Nat) < 2 ^ (31 : Nat)

def ofWord (w : UInt32) : Nat := w.toNat * 16 / 2 ^ (32 : Nat)

/-- The first word taken from a position on, among the next `tries`, as a number
below 16 with the position after it. -/
def draw (key : List UInt32) (position : Nat) : Nat → Nat × Nat
  | 0 => (0, position)
  | tries + 1 =>
    let w := word key position
    if accepts w then (ofWord w, position + 1) else draw key (position + 1) tries

/-- The number of words in a keystream, after which it repeats. -/
@[irreducible]
def period : Nat := 2 ^ (68 : Nat)

def naturals (key : List UInt32) (position : Nat) : Nat → List Nat
  | 0 => []
  | n + 1 =>
    let drawn := draw key position period
    drawn.1 :: naturals key drawn.2 n

def elements (dtype : Dtype) (seed : UInt64) (count : Nat) : List Nat :=
  let stream := key seed
  match dtype.arithmetic with
  | some num => (List.range count).map fun i => float num stream (2 * i)
  | none => naturals stream 0 count

theorem length_naturals (key : List UInt32) (position n : Nat) :
    (naturals key position n).length = n := by
  induction n generalizing position with
  | zero => rfl
  | succ n ih => exact congrArg (· + 1) (ih _)

theorem length_elements (dtype : Dtype) (seed : UInt64) (count : Nat) :
    (elements dtype seed count).length = count := by
  unfold elements
  cases dtype.arithmetic with
  | none => exact length_naturals _ _ _
  | some num => simp

end Random
end TensorGraph
