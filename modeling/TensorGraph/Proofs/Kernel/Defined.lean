/-
Where the kernels are defined.

A kernel halts on operands that its operator does not go together with: one that is missing,
extents that cannot be matched, an axis or an element that is not there.  It halts as well where
memory does not hold what it makes.  Elements play no part in that.  `Defined` says of an operator
and extents whether they go together and what they make is held, and `run_ne_halted_iff` that a
kernel halts exactly where not.
-/
import TensorGraph.Proofs.Kernel.Run

namespace TensorGraph

/-! ## Folds that may stop -/

section Folds

variable {α β : Type} {P : α → Prop}

theorem isSome_bind_iff_exists {x : Option α} {f : α → Option β} :
    (x >>= f).isSome = true ↔ ∃ a, x = some a ∧ (f a).isSome = true := by
  cases x <;> simp

theorem isSome_bind_iff {x : Option α} {f : α → Option β} {Q : Prop}
    (h : ∀ a, x = some a → ((f a).isSome = true ↔ Q)) :
    (x >>= f).isSome = true ↔ x.isSome = true ∧ Q := by
  cases x with
  | none => simp
  | some a => simpa using h a rfl

/-- A fold whose steps are defined whatever came before is defined if every step is. -/
theorem isSome_foldlM_iff {f : β → α → Option β} {l : List α}
    (h : ∀ b, ∀ a ∈ l, (f b a).isSome = true ↔ P a) (b : β) :
    (l.foldlM f b).isSome = true ↔ ∀ a ∈ l, P a := by
  induction l generalizing b with
  | nil => simp
  | cons a l ih =>
    have htail := ih fun b a ha => h b a (List.mem_cons_of_mem _ ha)
    rw [List.foldlM_cons, List.forall_mem_cons, ← h b a List.mem_cons_self]
    exact isSome_bind_iff fun b' _ => htail b'

theorem isSome_mapM_iff {f : α → Option β} {l : List α} :
    (l.mapM f).isSome = true ↔ ∀ a ∈ l, (f a).isSome = true := by
  induction l with
  | nil => simp
  | cons a l ih =>
    rw [List.forall_mem_cons, List.mapM_cons, ← ih]
    cases f a with
    | none => simp
    | some b => cases l.mapM f <;> simp

end Folds

namespace View

def combinedLens (a b : List Nat) : Option (List Nat) :=
  if a = b then some a
  else do
    let lens ← commonLens a b
    if isCountable lens then some lens else none

theorem map_lens_zipWith (f : Nat → Nat → Nat) (a b : View) :
    (zipWith f a b).map lens = combinedLens a.lens b.lens := by
  unfold zipWith combinedLens
  split
  · rfl
  · cases commonLens a.lens b.lens with
    | none => rfl
    | some lens =>
      simp only [Option.bind_eq_bind, Option.bind_some]
      split <;> rfl

end View

namespace Kernel

open View (combinedLens isCountable isListable)

/-! ## Extents that go together -/

/-- The extents of the product of tensors of `size` bytes an element, as `product` forms them. -/
def productLens (size : Nat) (first : List Nat) : List (List Nat) → Option (List Nat)
  | [] => if isListable size first then some first else none
  | lens :: rest =>
    if isListable size first then do productLens size (← combinedLens first lens) rest else none

/-- Whether two matrices can be multiplied: a row of the left one is no longer than a column of
the right one.  Tensors that are no matrices are refused and not read. -/
def Multipliable (size : Nat) : List Nat → List Nat → Prop
  | [m, k], [l, n] => (isCountable [m, n] = true ∧ isListable size [m, n] = true) ∧
    (m = 0 ∨ n = 0 ∨ k ≤ l)
  | _, _ => True

def Foldable (size : Nat) (c : Convolution) (output : List Nat) : List Nat → List Nat → Prop
  | [images, channels, height, width], [kernels, depth, kernelHeight, kernelWidth] =>
    match output with
    | batch :: banks :: rows :: columns :: _ =>
      (isCountable [batch, banks, rows, columns] = true ∧
        isListable size [batch, banks, rows, columns] = true) ∧
        ∀ n < batch, ∀ o < banks, ∀ row < rows, ∀ column < columns, ∀ channel < channels,
          ∀ ky < kernelHeight, ∃ y,
            tapCoordinate row c.stride.height ky c.dilation.height c.padding.height = some y ∧
            (isInside y height = true → ∀ kx < kernelWidth, ∃ x,
              tapCoordinate column c.stride.width kx c.dilation.width c.padding.width = some x ∧
              (isInside x width = true → n < images ∧ o < kernels ∧ channel < depth))
    | _ => False
  | _, _ => True

/-- Whether a kernel is defined on inputs of the given extents, for elements of `size` bytes. -/
def Defined (size : Nat) (op : Operator) (output : List Nat) (inputs : List (List Nat)) : Prop :=
  match op, inputs with
  | .elementary _, a :: _ => isListable size a = true
  | .add, a :: b :: _ => ∃ lens, combinedLens a b = some lens ∧ isListable size lens = true
  | .mul, a :: rest => (productLens size a rest).isSome = true
  | .contiguous, a :: _ => isListable size a = true
  | .gemm _, a :: b :: _ => Multipliable size a b
  | .softmax axis, a :: _ => axis < a.length ∧ isListable size a = true
  | .convolution c, x :: w :: _ => Foldable size c output x w
  | op, _ => op.isCompute = false

/-! ## Kernels by extents -/

theorem product_map_lens (num : Arithmetic) (first : View) (rest : List View) :
    (product num first rest).map View.lens =
      productLens num.size first.lens (rest.map View.lens) := by
  induction rest generalizing first with
  | nil =>
    show (first.held num.size).map View.lens = _
    rw [List.map_nil, productLens, View.held]
    split <;> rfl
  | cons v rest ih =>
    rw [product_cons, List.map_cons, productLens, ← View.map_lens_zipWith num.mul first v, View.held]
    split
    · cases hp : View.zipWith num.mul first v with
      | none => simp [hp]
      | some p => simp [hp, ih]
    · rfl

theorem tabulate_ne_halted_iff {size : Nat} {lens : List Nat} {element : List Nat → Option Nat} :
    tabulate size lens element ≠ .halted ↔
      (isCountable lens = true ∧ isListable size lens = true) ∧
        ∀ idx, Index.Within idx lens → (element idx).isSome = true := by
  have hall : ((Index.indices lens).mapM element).isSome = true ↔
      ∀ idx, Index.Within idx lens → (element idx).isSome = true := by
    rw [isSome_mapM_iff]
    simp only [Index.mem_indices]
  rw [← hall, ← Bool.and_eq_true]
  unfold tabulate
  cases isCountable lens && isListable size lens with
  | false => simp
  | true => cases (Index.indices lens).mapM element <;> simp [Outcome.ofOption, Outcome.bind]

/-- What is made of a tensor that is kept is there if memory holds the tensor. -/
theorem return_held_ne_halted_iff {size : Nat} {v : View} {f : View → Tensor} :
    (do return f (← v.held size) : Outcome Tensor) ≠ .halted ↔ isListable size v.lens = true := by
  by_cases h : isListable size v.lens = true
  · rw [View.held_of_isListable h]
    exact iff_of_true (fun h => nomatch h) h
  · rw [View.held, if_neg h]
    exact iff_of_false (fun h => h rfl) h

theorem isSome_at?_iff {v : View} {idx : List Nat} :
    (v.at? idx).isSome = true ↔ Index.Within idx v.lens := by
  unfold View.at?
  split <;> simp [*]

theorem isSome_dot_iff (num : Arithmetic) (count : Nat) (left right : Nat → Option Nat) :
    (dot num count left right).isSome = true ↔
      ∀ l < count, (left l).isSome = true ∧ (right l).isSome = true := by
  unfold dot
  rw [isSome_foldlM_iff (P := fun l => (left l).isSome = true ∧ (right l).isSome = true)]
  · simp only [List.mem_range]
  · intro acc l _
    apply isSome_bind_iff
    intro a _
    simpa using isSome_bind_iff (Q := True) fun b _ => by simp

theorem gemm_ne_halted_iff (num : Arithmetic) (factor : Nat) (a b : View) :
    gemm num factor a b ≠ .halted ↔ Multipliable num.size a.lens b.lens := by
  unfold gemm
  split
  case h_2 hno =>
    refine iff_of_true (by simp) ?_
    unfold Multipliable
    split
    · next ha hb => exact absurd hb (hno _ _ _ _ ha)
    · trivial
  case h_1 m k l n ha hb =>
    rw [ha, hb, tabulate_ne_halted_iff]
    apply and_congr_right
    intro _
    constructor
    · intro h
      by_contra hnot
      have hidx : Index.Within [0, 0] [m, n] := ⟨by omega, by omega, trivial⟩
      have hdot := (isSome_bind_iff (Q := True) fun _ _ => by simp).mp (h [0, 0] hidx)
      have hlast := ((isSome_dot_iff _ _ _ _).mp hdot.1 l (by omega)).2
      rw [isSome_at?_iff, hb] at hlast
      exact Nat.lt_irrefl l hlast.1
    · intro h idx hidx
      obtain ⟨i, j, rfl⟩ : ∃ i j, idx = [i, j] :=
        List.length_eq_two.mp (Index.length_of_within hidx)
      obtain ⟨hi, hj, -⟩ := hidx
      refine (isSome_bind_iff (Q := True) fun _ _ => by simp).mpr ⟨?_, trivial⟩
      rw [isSome_dot_iff]
      intro x hx
      rw [isSome_at?_iff, isSome_at?_iff, ha, hb]
      exact ⟨⟨hi, hx, trivial⟩, by omega, hj, trivial⟩

/-- Whether every tap of a row has a coordinate, and finds an element and its weight where the
coordinate lies inside. -/
def RowDefined (c : Convolution) (width kernelWidth position : Nat)
    (input weight : Nat → Option Nat) : Prop :=
  ∀ kx < kernelWidth, ∃ x,
    tapCoordinate position c.stride.width kx c.dilation.width c.padding.width = some x ∧
    (isInside x width = true → (input x.toNat).isSome = true ∧ (weight kx).isSome = true)

theorem isSome_rowSum_iff (num : Arithmetic) (c : Convolution) (width kernelWidth position : Nat)
    (input weight : Nat → Option Nat) (acc : Nat) :
    (rowSum num c width kernelWidth position input weight acc).isSome = true ↔
      RowDefined c width kernelWidth position input weight := by
  unfold rowSum RowDefined
  rw [isSome_foldlM_iff (P := fun kx => ∃ x,
    tapCoordinate position c.stride.width kx c.dilation.width c.padding.width = some x ∧
      (isInside x width = true → (input x.toNat).isSome = true ∧ (weight kx).isSome = true))]
  · simp only [List.mem_range]
  · intro acc kx _
    rw [isSome_bind_iff_exists]
    apply exists_congr
    intro x
    apply and_congr_right
    intro _
    split
    · next hinside =>
      rw [forall_prop_of_true hinside]
      apply isSome_bind_iff
      intro a _
      simpa using isSome_bind_iff (Q := True) fun b _ => by simp
    · next hinside => simp [hinside]

theorem isSome_windowSum_iff (num : Arithmetic) (c : Convolution)
    (channels height width kernelHeight kernelWidth row column : Nat)
    (input weight : Nat → Nat → Nat → Option Nat) :
    (windowSum num c channels height width kernelHeight kernelWidth row column input
      weight).isSome = true ↔
      ∀ channel < channels, ∀ ky < kernelHeight, ∃ y,
        tapCoordinate row c.stride.height ky c.dilation.height c.padding.height = some y ∧
        (isInside y height = true → RowDefined c width kernelWidth column (input channel y.toNat)
          (weight channel ky)) := by
  have htap : ∀ channel, ∀ acc : Nat, ∀ ky ∈ List.range kernelHeight, (do
        let y ← tapCoordinate row c.stride.height ky c.dilation.height c.padding.height
        if isInside y height then
          rowSum num c width kernelWidth column (input channel y.toNat) (weight channel ky) acc
        else some acc).isSome = true ↔ ∃ y,
      tapCoordinate row c.stride.height ky c.dilation.height c.padding.height = some y ∧
        (isInside y height = true → RowDefined c width kernelWidth column (input channel y.toNat)
          (weight channel ky)) := by
    intro channel acc ky _
    rw [isSome_bind_iff_exists]
    apply exists_congr
    intro y
    apply and_congr_right
    intro _
    split
    · next hinside =>
      rw [forall_prop_of_true hinside]
      exact isSome_rowSum_iff num c width kernelWidth column _ _ acc
    · next hinside => simp [hinside]
  have hchannel := fun acc channel (_ : channel ∈ List.range channels) =>
    isSome_foldlM_iff (htap channel) acc
  unfold windowSum
  rw [isSome_foldlM_iff hchannel]
  simp only [List.mem_range]

theorem lt_of_isInside {x : Int} {extent : Nat} (h : isInside x extent = true) :
    x.toNat < extent := by
  unfold isInside Word.toSigned at h
  simp only [Bool.and_eq_true, decide_eq_true_eq] at h
  have hmax : Word.maxSigned = 9223372036854775807 := rfl
  have hunsigned : Word.maxUnsigned = 18446744073709551615 := rfl
  split at h <;> omega

theorem convolution_ne_halted_iff (num : Arithmetic) (c : Convolution) (output : List Nat)
    (x w : View) :
    convolution num c output x w ≠ .halted ↔ Foldable num.size c output x.lens w.lens := by
  unfold convolution
  split
  case h_2 hno =>
    refine iff_of_true (by simp) ?_
    unfold Foldable
    split
    · next hx hw => exact absurd hw (hno _ _ _ _ _ _ _ _ hx)
    · trivial
  case h_1 images channels height width kernels depth kernelHeight kernelWidth hx hw =>
    simp only [hx, hw, Foldable]
    split
    case h_2 => simp
    case h_1 batch banks rows columns _ =>
      rw [tabulate_ne_halted_iff]
      apply and_congr_right
      intro _
      have hsum := fun n o row column => isSome_windowSum_iff num c channels height width
        kernelHeight kernelWidth row column (fun channel y x' => x.at? [n, channel, y, x'])
        (fun channel ky kx => w.at? [o, channel, ky, kx])
      simp only [RowDefined, isSome_at?_iff, hx, hw] at hsum
      constructor
      · intro h n hn o ho row hrow column hcolumn channel hchannel ky hky
        have hidx := h [n, o, row, column] ⟨hn, ho, hrow, hcolumn, trivial⟩
        have hwindow := ((isSome_bind_iff (Q := True) fun _ _ => by simp).mp hidx).1
        obtain ⟨y, hy, htaps⟩ := (hsum n o row column).mp hwindow channel hchannel ky hky
        refine ⟨y, hy, fun hinside kx hkx => ?_⟩
        obtain ⟨x', hx', hread⟩ := htaps hinside kx hkx
        refine ⟨x', hx', fun hinside' => ?_⟩
        obtain ⟨⟨hn', -⟩, ho', hdepth, -⟩ := hread hinside'
        exact ⟨hn', ho', hdepth⟩
      · intro h idx hidx
        obtain ⟨n, o, row, column, rfl⟩ : ∃ n o row column, idx = [n, o, row, column] :=
          List.length_eq_four.mp (Index.length_of_within hidx)
        obtain ⟨hn, ho, hrow, hcolumn, -⟩ := hidx
        refine (isSome_bind_iff (Q := True) fun _ _ => by simp).mpr ⟨?_, trivial⟩
        rw [hsum]
        intro channel hchannel ky hky
        obtain ⟨y, hy, htaps⟩ := h n hn o ho row hrow column hcolumn channel hchannel ky hky
        refine ⟨y, hy, fun hinside kx hkx => ?_⟩
        obtain ⟨x', hx', hread⟩ := htaps hinside kx hkx
        refine ⟨x', hx', fun hinside' => ?_⟩
        obtain ⟨hn', ho', hdepth⟩ := hread hinside'
        exact ⟨⟨hn', hchannel, lt_of_isInside hinside, lt_of_isInside hinside', trivial⟩,
          ho', hdepth, hky, hkx, trivial⟩

theorem softmax_ne_halted_iff (num : Arithmetic) (axis : Nat) (v : View) :
    softmax num axis v ≠ .halted ↔ axis < v.lens.length ∧ isListable num.size v.lens = true := by
  by_cases h : axis < v.lens.length
  · rw [softmax_eq num h, and_iff_right h]
    exact return_held_ne_halted_iff (f := fun copy => (View.softmax num axis copy).toTensor)
  · unfold softmax
    rw [List.getElem?_eq_none (Nat.not_lt.mp h)]
    exact iff_of_false (fun hne => hne rfl) fun hdefined => h hdefined.1

/-! ## Dispatch -/

/-- Whether a kernel halts is decided by the extents of its inputs and its output. -/
theorem run_ne_halted_iff (num : Arithmetic) (op : Operator) (output : List Nat)
    (views : List View) :
    run num op output views ≠ .halted ↔ Defined num.size op output (views.map View.lens) := by
  cases op with
  | literal | parameter | reshape | transpose | hostToDevice | deviceToHost =>
    cases views <;> simp [run, Defined, Operator.isCompute]
  | elementary fn =>
    match views with
    | [] => simp [run, Defined, Operator.isCompute]
    | _ :: _ => exact return_held_ne_halted_iff
  | contiguous =>
    match views with
    | [] => simp [run, Defined, Operator.isCompute]
    | _ :: _ => exact return_held_ne_halted_iff
  | add =>
    match views with
    | [] | [_] => simp [run, Defined, Operator.isCompute]
    | a :: b :: _ =>
      have hlens := View.map_lens_zipWith num.add a b
      rw [List.map_cons, List.map_cons, Defined, ← hlens, run]
      cases View.zipWith num.add a b with
      | none => exact iff_of_false (fun h => h rfl) fun ⟨_, h, _⟩ => nomatch h
      | some v => exact return_held_ne_halted_iff.trans (by simp)
  | mul =>
    match views with
    | [] => simp [run, Defined, Operator.isCompute]
    | a :: rest =>
      rw [List.map_cons, Defined, ← product_map_lens, run]
      cases product num a rest with
      | none => exact iff_of_false (fun h => h rfl) Bool.false_ne_true
      | some v => exact iff_of_true (fun h => nomatch h) rfl
  | gemm factor =>
    match views with
    | [] | [_] => simp [run, Defined, Operator.isCompute]
    | a :: b :: _ => exact gemm_ne_halted_iff num factor a b
  | convolution c =>
    match views with
    | [] | [_] => simp [run, Defined, Operator.isCompute]
    | x :: w :: _ => exact convolution_ne_halted_iff num c output x w
  | softmax axis =>
    match views with
    | [] => simp [run, Defined, Operator.isCompute]
    | x :: _ => exact softmax_ne_halted_iff num axis x

open Operator (Infers) in
/-- Kernels are defined on operands that go together, where coordinates are machine words and
memory holds the output. -/
theorem defined_of_infers {op : Operator} {shapes : List Shape} {t : Shape}
    (h : Infers op shapes t) (hc : op.isCompute = true)
    (hword : ∀ s ∈ shapes, ∀ n ∈ s.lens, n ≤ Word.maxSigned)
    (hcount : isCountable t.lens = true) (hlist : isListable t.dtype.size t.lens = true)
    (hroom : op.Roomy shapes) : Defined t.dtype.size op t.lens (shapes.map Shape.lens) := by
  by_cases hn : op = .contiguous
  · subst hn
    cases h with
    | contiguous ht =>
      rw [(Shape.asStandard_eq_some ht).1] at hlist
      exact hlist
  · obtain ⟨num, hnum⟩ := Operator.exists_arithmetic (h.isFloat hc hn).1
    have hshaped : View.Shaped shapes (shapes.map fun s => ⟨s.lens, fun _ => 0⟩) := by
      rw [View.Shaped, List.forall₂_map_right_iff, List.forall₂_same]
      intro s _
      rfl
    obtain ⟨v, hv, -⟩ := Operator.exists_denote h (Operator.isParameter_of_isCompute hc) hshaped
    have hends := run_ends h hc hn hnum hshaped hword (fun _ : True => hcount)
      (fun _ => Dtype.size_arithmetic hnum ▸ hlist) (fun _ => hroom) hv
    have hdefined : run num op t.lens (shapes.map fun s => ⟨s.lens, fun _ => 0⟩) ≠ .halted := by
      intro hhalted
      rw [hhalted] at hends
      exact hends trivial
    rw [run_ne_halted_iff, List.map_map, Dtype.size_arithmetic hnum] at hdefined
    exact hdefined

end Kernel
end TensorGraph
