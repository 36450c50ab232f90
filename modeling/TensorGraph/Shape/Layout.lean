/-
Sizes and layout predicates of a shape, in 64-bit arithmetic.

Functions that can leave the range answer `none` there.  Row-major strides are
built from the last axis to the first and the count of the whole tensor is formed
on the way, so a shape whose count is not a word has no row-major layout even
where another extent is 0.
-/
import TensorGraph.Outcome

-- Products and sums are those of the core library, whatever else is imported.
attribute [local instance (2000)] One.ofOfNat1 Zero.ofOfNat0

namespace TensorGraph

namespace Axis

def rowMajorWithCount : List Nat → Option (List Axis × Nat)
  | [] => some ([], 1)
  | n :: ns => do
    let (axes, count) ← rowMajorWithCount ns
    let total ← Word.mul count n
    some (⟨n, count⟩ :: axes, total)

def rowMajor (lens : List Nat) : Option (List Axis) :=
  (rowMajorWithCount lens).map Prod.fst

def reach (a : Axis) : Nat := (a.extent - 1) * a.stride

theorem rowMajorWithCount_cons (n : Nat) (ns : List Nat) :
    rowMajorWithCount (n :: ns) =
      (rowMajorWithCount ns).bind fun r =>
        (Word.mul r.2 n).bind fun total => some (⟨n, r.2⟩ :: r.1, total) := rfl

theorem rowMajorWithCount_cons_eq_some {n count : Nat} {ns : List Nat} {axes : List Axis} :
    rowMajorWithCount (n :: ns) = some (axes, count) ↔
      ∃ tail inner, rowMajorWithCount ns = some (tail, inner) ∧
        Word.mul inner n = some count ∧ axes = ⟨n, inner⟩ :: tail := by
  rw [rowMajorWithCount_cons, Option.bind_eq_some_iff]
  constructor
  · rintro ⟨⟨tail, inner⟩, hr, h⟩
    obtain ⟨total, hm, h⟩ := Option.bind_eq_some_iff.mp h
    cases h
    exact ⟨tail, inner, hr, hm, rfl⟩
  · rintro ⟨tail, inner, hr, hm, rfl⟩
    exact ⟨(tail, inner), hr, Option.bind_eq_some_iff.mpr ⟨count, hm, rfl⟩⟩

/-- The count of row-major axes is the product of the extents. -/
theorem count_rowMajorWithCount {lens : List Nat} {axes : List Axis} {count : Nat}
    (h : rowMajorWithCount lens = some (axes, count)) : count = lens.prod := by
  induction lens generalizing axes count with
  | nil =>
    cases h
    rfl
  | cons n ns ih =>
    obtain ⟨tail, inner, hr, hm, rfl⟩ := rowMajorWithCount_cons_eq_some.mp h
    rw [(Word.fit_eq_some.mp hm).2, ih hr, List.prod_cons, Nat.mul_comm]

/-- Row-major axes have the extents they were made for. -/
theorem extents_rowMajorWithCount {lens : List Nat} {axes : List Axis} {count : Nat}
    (h : rowMajorWithCount lens = some (axes, count)) : axes.map Axis.extent = lens := by
  induction lens generalizing axes count with
  | nil =>
    cases h
    rfl
  | cons n ns ih =>
    obtain ⟨tail, inner, hr, -, rfl⟩ := rowMajorWithCount_cons_eq_some.mp h
    exact congrArg (n :: ·) (ih hr)

end Axis

namespace Shape

def standard (dtype : Dtype) (lens : List Nat) : Option Shape := do
  some ⟨dtype, ← Axis.rowMajor lens⟩

def withStrides (dtype : Dtype) (lens strides : List Nat) : Outcome Shape :=
  if lens.length = strides.length then .value (ofLists dtype lens strides)
  else .refused (.shape "shape" (.axisCount lens.length strides.length))

def asStandard (s : Shape) : Option Shape := standard s.dtype s.lens

def elements (s : Shape) : Option Nat := Word.product s.lens

def bytes (s : Shape) : Option Nat := do Word.mul (← s.elements) s.dtype.size

def reach (s : Shape) : Option Nat := do
  Word.sum (← s.axes.mapM fun a => Word.mul (a.extent - 1) a.stride)

/-- The elements of storage that the strides span: one more than the largest
offset, and none if some extent is 0. -/
def elementSpace (s : Shape) : Option Nat :=
  if s.axes.any fun a => a.extent = 0 then some 0
  else do Word.add (← s.reach) 1

/-- The bytes a buffer that backs the shape must hold. -/
def storageBytes (s : Shape) : Option Nat := do Word.mul (← s.elementSpace) s.dtype.size

/-- Whether the strides are the row-major ones.  The stride of an axis with a
single position is never used and may be anything. -/
def isStandard (s : Shape) : Option Bool := do
  let rowMajor ← Axis.rowMajor s.lens
  some ((s.axes.zip rowMajor).all fun (a, b) => a.extent = 1 || a.stride = b.stride)

/-- Whether the tensor has as many elements as its storage spans. -/
def isPacked (s : Shape) : Option Bool := do
  let count ← s.elements
  let space ← s.elementSpace
  some (count = space)

def nonincreasing : List Nat → Bool
  | a :: b :: rest => a ≥ b && nonincreasing (b :: rest)
  | _ => true

/-- Whether the strides increase somewhere, axes with a single position aside. -/
def isTransposed (s : Shape) : Bool :=
  !nonincreasing ((s.axes.filter fun a => a.extent ≠ 1).map Axis.stride)

def isBroadcast (s : Shape) : Bool := s.axes.any fun a => a.stride = 0 && a.extent > 1

def isScalar (s : Shape) : Bool := s.axes.all fun a => a.extent = 1

/-- The shape whose axis `i` is axis `perm[i]` of `s`.  A number may occur twice,
and one that names no axis has no answer. -/
def permute (s : Shape) (perm : List Nat) : Option Shape := do
  some ⟨s.dtype, ← perm.mapM fun p => s.axes[p]?⟩

/-- Whether elements of `size` bytes laid out like `s` can be addressed by signed
offsets: extents, offsets and bytes all have to stay below `2 ^ 63`. -/
def isAddressable (s : Shape) (size : Nat) : Bool :=
  let farthest := (s.axes.map Axis.reach).sum
  s.axes.all (fun a => a.stride ≤ Word.maxSigned)
    && (s.lens.filter (· ≠ 0)).prod ≤ Word.maxSigned
    && farthest * size ≤ Word.maxSigned

theorem standard_eq_some {d : Dtype} {lens : List Nat} {s : Shape} :
    standard d lens = some s ↔ ∃ axes, Axis.rowMajor lens = some axes ∧ s = ⟨d, axes⟩ := by
  unfold standard
  cases Axis.rowMajor lens <;> simp [eq_comm]

theorem lens_of_standard {d : Dtype} {lens : List Nat} {s : Shape}
    (h : standard d lens = some s) : s.lens = lens := by
  obtain ⟨axes, ha, rfl⟩ := standard_eq_some.mp h
  unfold Axis.rowMajor at ha
  rw [Option.map_eq_some_iff] at ha
  obtain ⟨⟨axes', count⟩, hr, rfl⟩ := ha
  exact Axis.extents_rowMajorWithCount hr

theorem dtype_of_standard {d : Dtype} {lens : List Nat} {s : Shape}
    (h : standard d lens = some s) : s.dtype = d := by
  obtain ⟨_, _, rfl⟩ := standard_eq_some.mp h
  rfl

theorem elements_eq_some {s : Shape} {n : Nat} (h : s.elements = some n) : n = s.lens.prod :=
  Word.product_eq_some h

end Shape

end TensorGraph
