/-
The elementary functions, and the operations that kernels use on each float type.

`exp`, `sin`, `cos` and `tan` are those of the C library for single and double
precision.  Half precision computes in single and rounds the result back; so do
its sums and products.  `Arithmetic` collects what a kernel needs to know of an
element type, with `widen` and `narrow` leading to double precision and back.
-/
import TensorGraph.Binary.Arithmetic
import TensorGraph.Dtype

namespace TensorGraph

inductive Elementary where
  | exp
  | sin
  | cos
  | tan
  deriving DecidableEq, Repr

namespace Elementary

def name : Elementary → String
  | exp => "exp"
  | sin => "sin"
  | cos => "cos"
  | tan => "tan"

def onSingle : Elementary → Float32 → Float32
  | exp => Float32.exp
  | sin => Float32.sin
  | cos => Float32.cos
  | tan => Float32.tan

def onDouble : Elementary → Float → Float
  | exp => Float.exp
  | sin => Float.sin
  | cos => Float.cos
  | tan => Float.tan

def guarded (f : Format) (compute : Nat → Nat) (a : Nat) : Nat :=
  if f.isNan a then f.quieted a
  else
    let r := compute a
    if f.isNan r then f.invalid else r

def single (fn : Elementary) : Nat → Nat :=
  guarded .single fun a => (fn.onSingle (Float32.ofBits (UInt32.ofNat a))).toBits.toNat

def double (fn : Elementary) : Nat → Nat :=
  guarded .double fun a => (fn.onDouble (Float.ofBits (UInt64.ofNat a))).toBits.toNat

end Elementary

/-- What kernels do with elements of one float type, on bit patterns. -/
structure Arithmetic where
  size : Nat
  add : Nat → Nat → Nat
  mul : Nat → Nat → Nat
  apply : Elementary → Nat → Nat
  widen : Nat → Nat
  narrow : Nat → Nat

namespace Arithmetic

def single : Arithmetic where
  size := 4
  add := Format.single.add
  mul := Format.single.mul
  apply := Elementary.single
  widen := Format.convert .single .double
  narrow := Format.convert .double .single

def double : Arithmetic where
  size := 8
  add := Format.double.add
  mul := Format.double.mul
  apply := Elementary.double
  widen := id
  narrow := id

/-- Half precision, through single.  A double is rounded to single first, so it
is rounded twice. -/
def half : Arithmetic where
  size := 2
  add a b := toHalf (Format.single.add (toSingle a) (toSingle b))
  mul a b := toHalf (Format.single.mul (toSingle a) (toSingle b))
  apply fn a := toHalf (fn.single (toSingle a))
  widen := Format.convert .half .double
  narrow a := toHalf (Format.convert .double .single a)
where
  toSingle := Format.convert .half .single
  toHalf := Format.convert .single .half

end Arithmetic

namespace Dtype

def format : Dtype → Option Format
  | half => some .half
  | float => some .single
  | double => some .double
  | _ => none

def arithmetic : Dtype → Option Arithmetic
  | half => some .half
  | float => some .single
  | double => some .double
  | _ => none

theorem size_arithmetic {d : Dtype} {num : Arithmetic} (h : d.arithmetic = some num) :
    num.size = d.size := by
  cases d <;> cases h <;> rfl

theorem arithmetic_isSome (d : Dtype) : d.arithmetic.isSome = d.isFloat := by
  cases d <;> rfl

end Dtype

end TensorGraph
