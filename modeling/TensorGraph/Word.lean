/-
Arithmetic on 64-bit sizes.

Extents, strides, offsets and byte counts are machine words.  An operation whose
exact result is `2 ^ 64` or more has no answer, and the functions here return
`none` for it.  Sums and products of lists are taken from the left and every
intermediate result has to fit, so `0, 2 ^ 32, 2 ^ 32` has a product and
`2 ^ 32, 2 ^ 32, 0` has none.

The statement to use is `product_eq_some`: a product that is returned is the
product of the list.
-/

-- Powers, products and sums are those of the core library, whatever else is imported.
attribute [local instance (2000)] instPowNat One.ofOfNat1 Zero.ofOfNat0

namespace TensorGraph
namespace Word

def maxUnsigned : Nat := 2 ^ (64 : Nat) - 1

/-- The largest word that is also a signed word, and the largest size in bytes
of one allocation. -/
def maxSigned : Nat := 2 ^ (63 : Nat) - 1

def fit (n : Nat) : Option Nat :=
  if n ≤ maxUnsigned then some n else none

def add (a b : Nat) : Option Nat := fit (a + b)

def mul (a b : Nat) : Option Nat := fit (a * b)

def productFrom (acc : Nat) : List Nat → Option Nat
  | [] => some acc
  | n :: ns => do productFrom (← mul acc n) ns

def product (ns : List Nat) : Option Nat := productFrom 1 ns

def sumFrom (acc : Nat) : List Nat → Option Nat
  | [] => some acc
  | n :: ns => do sumFrom (← add acc n) ns

def sum (ns : List Nat) : Option Nat := sumFrom 0 ns

/-- The signed reading of a word: the upper half of the range is negative. -/
def toSigned (n : Nat) : Int :=
  if n ≤ maxSigned then n else (n : Int) - 2 ^ (64 : Nat)

def subSigned (a b : Int) : Option Int :=
  if -(2 ^ (63 : Nat)) ≤ a - b ∧ a - b ≤ maxSigned then some (a - b) else none

theorem fit_eq_some {n m : Nat} : fit n = some m ↔ n ≤ maxUnsigned ∧ m = n := by
  unfold fit
  split
  · next h => simp [h, eq_comm]
  · next h => simp [h]

theorem fit_of_le {n : Nat} (h : n ≤ maxUnsigned) : fit n = some n := if_pos h

theorem productFrom_nil (acc : Nat) : productFrom acc [] = some acc := rfl

theorem productFrom_cons (acc n : Nat) (ns : List Nat) :
    productFrom acc (n :: ns) = (mul acc n).bind fun p => productFrom p ns := rfl

theorem sumFrom_nil (acc : Nat) : sumFrom acc [] = some acc := rfl

theorem sumFrom_cons (acc n : Nat) (ns : List Nat) :
    sumFrom acc (n :: ns) = (add acc n).bind fun p => sumFrom p ns := rfl

theorem productFrom_eq_some {acc p : Nat} {ns : List Nat} (h : productFrom acc ns = some p) :
    p = acc * ns.prod := by
  induction ns generalizing acc with
  | nil =>
    rw [productFrom_nil] at h
    injection h with h
    simp [h]
  | cons n ns ih =>
    rw [productFrom_cons, Option.bind_eq_some_iff] at h
    obtain ⟨q, hq, h⟩ := h
    rw [ih h, (fit_eq_some.mp hq).2, List.prod_cons, Nat.mul_assoc]

theorem product_eq_some {p : Nat} {ns : List Nat} (h : product ns = some p) : p = ns.prod := by
  rw [productFrom_eq_some h, Nat.one_mul]

end Word
end TensorGraph
