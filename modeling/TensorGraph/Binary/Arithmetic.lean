/-
Arithmetic on bit patterns of one binary format, and conversion between formats.

Each operation forms the exact result and rounds it once.  A NaN operand is
passed on quiet, the left one first; an operation that has no result gives the
format's invalid NaN.
-/
import TensorGraph.Binary.Format

-- Powers are those of the core library, whatever else is imported.
attribute [local instance (2000)] instPowNat

namespace TensorGraph
namespace Format

def signed (negative : Bool) (n : Nat) : Int := if negative then -(n : Int) else n

/-- The sum of two patterns.  A sum that cancels is positive zero; two negative
zeros keep their sign. -/
def add (f : Format) (a b : Nat) : Nat :=
  match f.decode a, f.decode b with
  | .nan .., _ => f.quieted a
  | _, .nan .. => f.quieted b
  | .infinite s, .infinite t => if s = t then a else f.invalid
  | .infinite _, .finite .. => a
  | .finite .., .infinite _ => b
  | .finite s m p, .finite t n q =>
    let e := min p q
    let total := signed s (m * 2 ^ (p - e).toNat) + signed t (n * 2 ^ (q - e).toNat)
    if total = 0 then f.withSign (s && t) 0
    else f.round (total < 0) total.natAbs e

def negate (f : Format) (a : Nat) : Nat := f.withSign (!f.isNegative a) (f.magnitude a)

def sub (f : Format) (a b : Nat) : Nat :=
  if f.isNan b then f.add a b else f.add a (f.negate b)

def mul (f : Format) (a b : Nat) : Nat :=
  match f.decode a, f.decode b with
  | .nan .., _ => f.quieted a
  | _, .nan .. => f.quieted b
  | .infinite s, .infinite t => f.withSign (s ^^ t) f.infinity
  | .infinite s, .finite t n _ => if n = 0 then f.invalid else f.withSign (s ^^ t) f.infinity
  | .finite s m _, .infinite t => if m = 0 then f.invalid else f.withSign (s ^^ t) f.infinity
  | .finite s m p, .finite t n q => f.round (s ^^ t) (m * n) (p + q)

/-- The quotient of two patterns.  The dividend is scaled until the integer
quotient has more bits than the format, and a last bit says whether there is a
remainder, so rounding that quotient rounds the exact one. -/
def div (f : Format) (a b : Nat) : Nat :=
  match f.decode a, f.decode b with
  | .nan .., _ => f.quieted a
  | _, .nan .. => f.quieted b
  | .infinite _, .infinite _ => f.invalid
  | .infinite s, .finite t _ _ => f.withSign (s ^^ t) f.infinity
  | .finite s _ _, .infinite t => f.withSign (s ^^ t) 0
  | .finite s m p, .finite t n q =>
    if n = 0 then (if m = 0 then f.invalid else f.withSign (s ^^ t) f.infinity)
    else
      let places := f.fractionBits + 3 + n.log2
      let scaled := m * 2 ^ places
      let sticky := if scaled % n = 0 then 0 else 1
      f.round (s ^^ t) (2 * (scaled / n) + sticky) (p - q - places - 1)

/-- The pattern of format `g` nearest to a pattern of format `f`.  The leading
bits of a NaN's payload are kept. -/
def convert (f g : Format) (a : Nat) : Nat :=
  match f.decode a with
  | .nan s payload =>
    g.withSign s
      (g.infinity + (payload * g.fractions / f.fractions ||| g.quietBit))
  | .infinite s => g.withSign s g.infinity
  | .finite s m p => g.round s m p

/-- Where a pattern that is no NaN stands in the order of numbers; both zeros
stand at the same place. -/
def rank (f : Format) (a : Nat) : Int := signed (f.isNegative a) (f.magnitude a)

def equal (f : Format) (a b : Nat) : Bool :=
  !f.isNan a && !f.isNan b && f.rank a = f.rank b

/-- The larger of two patterns, a NaN counting for nothing beside a number. -/
def maximum (f : Format) (a b : Nat) : Nat :=
  if f.isNan b then a
  else if f.isNan a then b
  else if f.rank a < f.rank b then b
  else a

def one (f : Format) : Nat := f.round false 1 0

def negativeZero (f : Format) : Nat := f.withSign true 0

def negativeInfinity (f : Format) : Nat := f.withSign true f.infinity

end Format
end TensorGraph
