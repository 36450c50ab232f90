/-
Element-by-element combination of two tensors.

Tensors of the same extents are combined index by index.  Otherwise extents are
matched from the last axis on, an extent of 1 or a missing axis repeats, and
anything else has no result.
-/
import TensorGraph.Tensor

-- Products are those of the core library, whatever else is imported.
attribute [local instance (2000)] One.ofOfNat1

namespace TensorGraph
namespace View

def commonExtent (m n : Nat) : Option Nat :=
  if m = n then some m else if m = 1 then some n else if n = 1 then some m else none

def padded (rank : Nat) (lens : List Nat) : List Nat :=
  List.replicate (rank - lens.length) 1 ++ lens

def commonLens (a b : List Nat) : Option (List Nat) :=
  let rank := max a.length b.length
  ((padded rank a).zip (padded rank b)).mapM fun (m, n) => commonExtent m n

/-- Whether a tensor of these extents can be addressed by signed offsets. -/
def isCountable (lens : List Nat) : Bool := (lens.filter (· ≠ 0)).prod ≤ Word.maxSigned

def broadcastTo (v : View) (lens : List Nat) : View where
  lens := lens
  read idx :=
    v.read (List.zipWith (fun n i => if n = 1 then 0 else i) v.lens
      (idx.drop (lens.length - v.lens.length)))

def zipWith (f : Nat → Nat → Nat) (a b : View) : Option View :=
  if a.lens = b.lens then some ⟨a.lens, fun idx => f (a.read idx) (b.read idx)⟩
  else do
    let lens ← commonLens a.lens b.lens
    if isCountable lens then
      let x := a.broadcastTo lens
      let y := b.broadcastTo lens
      some ⟨lens, fun idx => f (x.read idx) (y.read idx)⟩
    else none

theorem zipWith_of_lens_eq (f : Nat → Nat → Nat) {a b : View} (h : a.lens = b.lens) :
    zipWith f a b = some ⟨a.lens, fun idx => f (a.read idx) (b.read idx)⟩ := if_pos h

end View
end TensorGraph
