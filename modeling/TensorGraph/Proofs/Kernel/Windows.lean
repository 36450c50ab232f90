/-
Windows and taps of a convolution.

`Convolution.Windows` says that an extent is the number of positions of a window along one axis,
without a division: the taps of all of them lie in the padded input, and the next position sticks
out.  `Convolution.tapsInside` lists the taps of a window that lie over the image, where rows and
columns are integers, and `Convolution.tapSum` adds up their products in the order of the list.

Inference counts positions and the kernel forms coordinates, each in its own arithmetic.  The
result is `convolution_exact`: both do what the integers say.
-/
import TensorGraph.Proofs.Kernel.Run

namespace TensorGraph

namespace Convolution

variable {c : Convolution} {padding stride dilation input kernel positions : Nat}

structure Windows (padding stride dilation input kernel positions : Nat) : Prop where
  inside : ∀ position tap, position < positions → tap < kernel →
    position * stride + tap * dilation < input + 2 * padding
  outside : ¬positions * stride + (kernel - 1) * dilation < input + 2 * padding

theorem windows_of_outputLen
    (h : outputLen padding stride dilation input kernel = some (some positions)) :
    Windows padding stride dilation input kernel positions where
  inside position tap hposition htap :=
    (Kernel.outputLen_bounds h).2 position tap hposition htap
  outside := by
    obtain ⟨-, hstride, -, -, rfl⟩ := Kernel.outputLen_spec h
    have hnext := Nat.lt_mul_div_succ (input + 2 * padding - (dilation * (kernel - 1) + 1))
      (Nat.pos_of_ne_zero hstride)
    rw [Nat.mul_comm stride] at hnext
    rw [Nat.mul_comm (kernel - 1)]
    omega

/-! ## Taps -/

structure Tap where
  channel : Nat
  row : Nat
  column : Nat
  deriving DecidableEq, Repr

def taps (channels height width : Nat) : List Tap :=
  (List.range channels).flatMap fun channel => (List.range height).flatMap fun row =>
    (List.range width).map fun column => ⟨channel, row, column⟩

def rowUnder (c : Convolution) (row : Nat) (tap : Tap) : Int :=
  row * c.stride.height + tap.row * c.dilation.height - c.padding.height

def columnUnder (c : Convolution) (column : Nat) (tap : Tap) : Int :=
  column * c.stride.width + tap.column * c.dilation.width - c.padding.width

def Covers (c : Convolution) (height width row column : Nat) (tap : Tap) : Prop :=
  (0 ≤ c.rowUnder row tap ∧ c.rowUnder row tap < height) ∧
    0 ≤ c.columnUnder column tap ∧ c.columnUnder column tap < width

instance (c : Convolution) (height width row column : Nat) (tap : Tap) :
    Decidable (c.Covers height width row column tap) := inferInstanceAs (Decidable (_ ∧ _))

def tapsInside (c : Convolution) (channels height width kernelHeight kernelWidth : Nat)
    (row column : Nat) : List Tap :=
  (taps channels kernelHeight kernelWidth).filter fun tap =>
    decide (c.Covers height width row column tap)

def pixel (c : Convolution) (n row column : Nat) (tap : Tap) : List Nat :=
  [n, tap.channel, (c.rowUnder row tap).toNat, (c.columnUnder column tap).toNat]

def weight (o : Nat) (tap : Tap) : List Nat := [o, tap.channel, tap.row, tap.column]

/-- The products under taps, added up in double precision from zero. -/
def tapSum (num : Arithmetic) (c : Convolution) (x w : View) (n o row column : Nat)
    (taps : List Tap) : Nat :=
  taps.foldl (fun acc tap => Format.double.add acc (Format.double.mul
    (num.widen (x.read (c.pixel n row column tap))) (num.widen (w.read (weight o tap))))) 0

theorem mem_taps {channels height width : Nat} {tap : Tap} :
    tap ∈ taps channels height width ↔
      tap.channel < channels ∧ tap.row < height ∧ tap.column < width := by
  simp only [taps, List.mem_flatMap, List.mem_map, List.mem_range]
  constructor
  · rintro ⟨channel, hc, row, hr, column, hk, rfl⟩
    exact ⟨hc, hr, hk⟩
  · rintro ⟨hc, hr, hk⟩
    exact ⟨_, hc, _, hr, _, hk, rfl⟩

/-- What is read for a window lies inside the operands. -/
theorem within_of_mem_tapsInside {batch channels height width banks kernelHeight kernelWidth : Nat}
    {n o row column : Nat} (hn : n < batch) (ho : o < banks) {tap : Tap}
    (h : tap ∈ c.tapsInside channels height width kernelHeight kernelWidth row column) :
    Index.Within (c.pixel n row column tap) [batch, channels, height, width] ∧
      Index.Within (weight o tap) [banks, channels, kernelHeight, kernelWidth] := by
  obtain ⟨hmem, hcovers⟩ := List.mem_filter.mp h
  obtain ⟨hc, hr, hk⟩ := mem_taps.mp hmem
  obtain ⟨⟨hrow, hrow'⟩, hcolumn, hcolumn'⟩ := of_decide_eq_true hcovers
  exact ⟨⟨hn, hc, by omega, by omega, trivial⟩, ho, hc, hr, hk, trivial⟩

/-- The nested loops of the kernel are one loop over the taps that lie over the image. -/
theorem read_convolved (num : Arithmetic) (c : Convolution) (lens : List Nat) {x w : View}
    {batch channels height width banks kernelHeight kernelWidth : Nat}
    (hx : x.lens = [batch, channels, height, width])
    (hw : w.lens = [banks, channels, kernelHeight, kernelWidth]) (n o row column : Nat) :
    (View.convolved num c lens x w).read [n, o, row, column] =
      num.narrow (tapSum num c x w n o row column
        (c.tapsInside channels height width kernelHeight kernelWidth row column)) := by
  have htap : ∀ channel ky kx acc,
      View.addTap num c x w [n, o, row, column] channel ky kx acc =
        if decide (c.Covers height width row column ⟨channel, ky, kx⟩) = true then
          Format.double.add acc (Format.double.mul
            (num.widen (x.read (c.pixel n row column ⟨channel, ky, kx⟩)))
            (num.widen (w.read (weight o ⟨channel, ky, kx⟩))))
        else acc := by
    intro channel ky kx acc
    unfold View.addTap
    rw [hx]
    simp only [decide_eq_true_eq]
    rfl
  unfold View.convolved tapSum tapsInside taps
  rw [hx, hw, List.foldl_filter, List.foldl_flatMap]
  refine congrArg num.narrow (List.foldl_ext _ _ _ fun acc channel _ => ?_)
  rw [List.foldl_flatMap]
  refine List.foldl_ext _ _ _ fun acc ky _ => ?_
  rw [List.foldl_map]
  exact List.foldl_ext _ _ _ fun acc kx _ => htap channel ky kx acc

end Convolution

/-- Windows and taps of a convolution are what the integers say, whatever the padding, the strides
and the dilations are, as long as the padded image is addressed by signed words.  The extents of
the output are the numbers of positions of the window.  The kernel gives every element, unless
there are too many to be stored: the sum over the taps over the image, from positive zero, by
channel, by row and along the row, each read inside its operand. -/
theorem convolution_exact (c : Convolution) (x w t : Shape)
    (hinfer : (Operator.convolution c).infer [x, w] = .value t)
    (hheight : x.lens.getD 2 0 + 2 * c.padding.height ≤ Word.maxSigned)
    (hwidth : x.lens.getD 3 0 + 2 * c.padding.width ≤ Word.maxSigned) :
    ∃ batch channels height width banks kernelHeight kernelWidth rows columns,
      x.lens = [batch, channels, height, width] ∧
      w.lens = [banks, channels, kernelHeight, kernelWidth] ∧
      t.lens = [batch, banks, rows, columns] ∧
      Convolution.Windows c.padding.height c.stride.height c.dilation.height height kernelHeight
        rows ∧
      Convolution.Windows c.padding.width c.stride.width c.dilation.width width kernelWidth
        columns ∧
      (∀ n o row column, Index.Within [n, o, row, column] t.lens →
        ∀ tap ∈ c.tapsInside channels height width kernelHeight kernelWidth row column,
          Index.Within (c.pixel n row column tap) x.lens ∧
            Index.Within (Convolution.weight o tap) w.lens) ∧
      ∀ num images kernels, images.lens = x.lens → kernels.lens = w.lens →
        (Kernel.run num (.convolution c) t.lens [images, kernels]).Ends
          (View.isCountable t.lens = true ∧ View.isListable num.size t.lens = true)
          fun r => r.lens = t.lens ∧
            ∀ n o row column, Index.Within [n, o, row, column] t.lens →
              r.view.at? [n, o, row, column] = some (num.narrow
                (Convolution.tapSum num c images kernels n o row column
                  (c.tapsInside channels height width kernelHeight kernelWidth row column))) := by
  have hinfers := Operator.infer_eq_value.mp hinfer
  cases hinfers with
  | @convolution _ _ _ batch channels height width banks kernelHeight kernelWidth rows columns _
      hf hd hx hw hrows hcolumns ht =>
    have hlens := Shape.lens_of_standard ht
    rw [hx] at hheight hwidth
    rw [hx, hw, hlens]
    refine ⟨batch, channels, height, width, banks, kernelHeight, kernelWidth, rows, columns, rfl,
      rfl, rfl, Convolution.windows_of_outputLen hrows, Convolution.windows_of_outputLen hcolumns,
      fun n o row column hi tap htap => ?_, fun num images kernels himages hkernels => ?_⟩
    · exact Convolution.within_of_mem_tapsInside hi.1 hi.2.1 htap
    · have hends := Kernel.convolution_ends num himages hkernels hrows hcolumns
        (le_trans (Nat.le_add_right _ _) hheight) (le_trans (Nat.le_add_right _ _) hwidth)
        (fun _ => ⟨hheight, hwidth⟩) And.left And.right
      refine Outcome.Ends.mono hends ?_
      rintro _ rfl
      refine ⟨rfl, fun n o row column hi => ?_⟩
      have hagrees := View.view_toTensor (View.convolved num c [batch, banks, rows, columns]
        images kernels)
      rw [View.at?_of_within hi, ← Convolution.read_convolved num c _ himages hkernels]
      exact congrArg some (hagrees.2 _ hi)

/-- A window that is lower than the padding above the image and whose two rows of taps lie over one
row of it: the second of its three positions has all four taps inside. -/
theorem convolution_exact_asymmetric :
    ∃ num t r, Dtype.double.arithmetic = some num ∧
      (Operator.convolution ⟨⟨2, 0⟩, ⟨2, 1⟩, ⟨0, 2⟩⟩).infer
        [⟨.double, [⟨1, 3⟩, ⟨1, 3⟩, ⟨1, 3⟩, ⟨3, 1⟩]⟩,
          ⟨.double, [⟨1, 4⟩, ⟨1, 4⟩, ⟨2, 2⟩, ⟨2, 1⟩]⟩] = .value t ∧
      Convolution.Windows 2 2 0 1 2 3 ∧ Convolution.Windows 0 1 2 3 2 1 ∧
      Kernel.run num (.convolution ⟨⟨2, 0⟩, ⟨2, 1⟩, ⟨0, 2⟩⟩) t.lens
        [⟨[1, 1, 1, 3], fun _ => 0x3ff0000000000000⟩,
          ⟨[1, 1, 2, 2], fun _ => 0x4000000000000000⟩] = .value r ∧
      r.view.at? [0, 0, 1, 0] = some (num.narrow
        (Convolution.tapSum num ⟨⟨2, 0⟩, ⟨2, 1⟩, ⟨0, 2⟩⟩
          ⟨[1, 1, 1, 3], fun _ => 0x3ff0000000000000⟩ ⟨[1, 1, 2, 2], fun _ => 0x4000000000000000⟩
          0 0 1 0 [⟨0, 0, 0⟩, ⟨0, 0, 1⟩, ⟨0, 1, 0⟩, ⟨0, 1, 1⟩])) := by
  obtain ⟨num, hnum⟩ : ∃ num, Dtype.double.arithmetic = some num := ⟨_, rfl⟩
  obtain ⟨batch, channels, height, width, banks, kernelHeight, kernelWidth, rows, columns, hx, hw,
      ht, hrows, hcolumns, -, hrun⟩ :=
    convolution_exact ⟨⟨2, 0⟩, ⟨2, 1⟩, ⟨0, 2⟩⟩ ⟨.double, [⟨1, 3⟩, ⟨1, 3⟩, ⟨1, 3⟩, ⟨3, 1⟩]⟩
      ⟨.double, [⟨1, 4⟩, ⟨1, 4⟩, ⟨2, 2⟩, ⟨2, 1⟩]⟩ ⟨.double, [⟨1, 3⟩, ⟨1, 3⟩, ⟨3, 1⟩, ⟨1, 1⟩]⟩
      (by rfl) (by decide) (by decide)
  cases hx
  cases hw
  cases ht
  obtain ⟨r, hr, -, hat⟩ := (hrun num ⟨[1, 1, 1, 3], fun _ => 0x3ff0000000000000⟩
    ⟨[1, 1, 2, 2], fun _ => 0x4000000000000000⟩ rfl rfl).eq_value_of_fits (by cases hnum; decide)
  exact ⟨num, _, r, hnum, by rfl, hrows, hcolumns, hr, hat 0 0 1 0 (by decide)⟩

end TensorGraph
