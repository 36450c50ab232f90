/-
Coordinates of a convolution in machine words.

Inference counts the positions of a window in unsigned words, and the kernel takes the padding
from a movement of the window in signed ones.  A movement in the upper half of the unsigned range
reads as negative there.  Where the difference is formed that does no harm, for such a tap lies
outside every image of a signed extent; but the lowest of those movements are too far down for the
padding to be taken from them, which is what `Sinks` says.

`Addresses` collects what holds of the coordinates along one axis.  The result is
`convolution_halts_iff`: of all inputs that inference accepts the kernel halts on those with a
movement that sinks, and otherwise only where operands are too large to be addressed or the result
is too large to be held.
-/
import TensorGraph.Proofs.Kernel.Defined
import TensorGraph.Proofs.Kernel.Layout
import TensorGraph.Proofs.Oversized

namespace TensorGraph

/-- A word that reads as negative has no difference with a number that takes it below the signed
range. -/
theorem Word.subSigned_toSigned_eq_none {moved padding : Nat} (hmoved : moved ≤ maxUnsigned)
    (hpadding : padding ≤ maxSigned) :
    subSigned (toSigned moved) padding = none ↔
      maxSigned < moved ∧ moved ≤ maxSigned + padding := by
  have hmax : maxUnsigned = 18446744073709551615 := rfl
  have hmax' : maxSigned = 9223372036854775807 := rfl
  have hform : subSigned (toSigned moved) padding = none ↔
      ¬(-(2 ^ (63 : Nat)) ≤ toSigned moved - padding ∧ toSigned moved - padding ≤ maxSigned) := by
    unfold subSigned
    split
    · next h => exact ⟨(fun hnone => nomatch hnone), fun hnot => absurd h hnot⟩
    · next h => exact ⟨fun _ => h, fun _ => rfl⟩
  rw [hform]
  unfold toSigned
  split <;> omega

namespace Convolution

variable {c : Convolution} {padding stride dilation input kernel positions : Nat}

/-! ## One axis -/

/-- Whether a movement of the window reads as a negative word that is too low for the padding to
be taken from it. -/
def Sinks (padding moved : Nat) : Prop := Word.maxSigned < moved ∧ moved ≤ Word.maxSigned + padding

instance (padding moved : Nat) : Decidable (Sinks padding moved) :=
  inferInstanceAs (Decidable (_ ∧ _))

def SinksAlong (padding stride dilation kernel positions : Nat) : Prop :=
  ∃ position < positions, ∃ tap < kernel, Sinks padding (position * stride + tap * dilation)

instance (padding stride dilation kernel positions : Nat) :
    Decidable (SinksAlong padding stride dilation kernel positions) :=
  inferInstanceAs (Decidable (∃ position < positions, _))

def Touches (padding stride dilation input kernel positions : Nat) : Prop :=
  ∃ position < positions, ∃ tap < kernel,
    0 ≤ View.coordinate position stride tap dilation padding ∧
      View.coordinate position stride tap dilation padding < input

/-- The coordinates along one axis.  The movement of every tap and the padding are words of
their kind, a coordinate is formed unless the movement sinks, and the coordinates that pass for
inside are then those of the taps over the image. -/
structure Addresses (padding stride dilation input kernel positions : Nat) : Prop where
  signed : padding ≤ Word.maxSigned
  moved : ∀ position < positions, ∀ tap < kernel,
    position * stride + tap * dilation ≤ Word.maxUnsigned
  formed : ∀ position < positions, ∀ tap < kernel,
    (Kernel.tapCoordinate position stride tap dilation padding = none ↔
      Sinks padding (position * stride + tap * dilation))
  inside : ∀ position < positions, ∀ tap < kernel, ∀ x,
    Kernel.tapCoordinate position stride tap dilation padding = some x →
    Kernel.isInside x input = true →
      x = View.coordinate position stride tap dilation padding ∧ 0 ≤ x ∧ x < input
  present : input ≤ Word.maxSigned → ∀ position < positions, ∀ tap < kernel,
    ¬Sinks padding (position * stride + tap * dilation) →
    0 ≤ View.coordinate position stride tap dilation padding →
    View.coordinate position stride tap dilation padding < input →
      ∃ x, Kernel.tapCoordinate position stride tap dilation padding = some x ∧
        Kernel.isInside x input = true

/-- The movement is formed before it is read as a signed word. -/
theorem tapCoordinate_eq {position tap : Nat}
    (hmoved : position * stride + tap * dilation ≤ Word.maxUnsigned)
    (hpadding : padding ≤ Word.maxSigned) :
    Kernel.tapCoordinate position stride tap dilation padding =
      Word.subSigned (Word.toSigned (position * stride + tap * dilation)) padding := by
  have hsigned : Word.toSigned padding = padding := if_pos hpadding
  unfold Kernel.tapCoordinate Word.add Word.mul
  rw [Word.fit_of_le (le_trans (Nat.le_add_right _ _) hmoved),
    Word.fit_of_le (le_trans (Nat.le_add_left _ _) hmoved)]
  show (Word.fit (position * stride + tap * dilation)).bind _ = _
  rw [Word.fit_of_le hmoved, hsigned]
  rfl

/-- Nothing lies inside an extent that is no signed word. -/
theorem isInside_eq_false {x : Int} (hsigned : Word.maxSigned < input)
    (hinput : input ≤ Word.maxUnsigned) : Kernel.isInside x input = false := by
  have hmax : Word.maxUnsigned = 18446744073709551615 := rfl
  rw [Bool.eq_false_iff]
  intro hinside
  unfold Kernel.isInside Word.toSigned at hinside
  rw [if_neg (by omega), Bool.and_eq_true, decide_eq_true_iff, decide_eq_true_iff] at hinside
  omega

theorem addresses_of_outputLen
    (h : outputLen padding stride dilation input kernel = some (some positions)) :
    Addresses padding stride dilation input kernel positions := by
  obtain ⟨hword, hbound⟩ := Kernel.outputLen_bounds h
  have hmax : Word.maxUnsigned = 18446744073709551615 := rfl
  have hmax' : Word.maxSigned = 9223372036854775807 := rfl
  have hpadding : padding ≤ Word.maxSigned := by omega
  have hmoved : ∀ position < positions, ∀ tap < kernel,
      position * stride + tap * dilation ≤ Word.maxUnsigned := fun position hp tap ht =>
    (Nat.le_succ _).trans ((hbound position tap hp ht).trans hword)
  have hspec : input ≤ Word.maxSigned → ∀ position < positions, ∀ tap < kernel, _ :=
    fun hinput position hp tap ht =>
      Kernel.tapCoordinate_spec h hp ht hinput False.elim
  refine ⟨hpadding, hmoved, fun position hp tap ht => ?_, fun position hp tap ht x hx hin => ?_,
    fun hinput position hp tap ht hsinks h0 hlt => ?_⟩
  · rw [tapCoordinate_eq (hmoved position hp tap ht) hpadding]
    exact Word.subSigned_toSigned_eq_none (hmoved position hp tap ht) hpadding
  · rcases Nat.lt_or_ge Word.maxSigned input with hinput | hinput
    · rw [isInside_eq_false hinput ((Nat.le_add_right _ _).trans hword)] at hin
      cases hin
    · rcases hspec hinput position hp tap ht with ⟨x', hx', hiff, heq⟩ | ⟨hnone, -⟩
      · rw [hx] at hx'
        cases hx'
        have hover := hiff.mp hin
        rw [← heq hin] at hover
        exact ⟨heq hin, hover⟩
      · rw [hx] at hnone
        cases hnone
  · rcases hspec hinput position hp tap ht with ⟨x, hx, hiff, -⟩ | ⟨hnone, -⟩
    · exact ⟨x, hx, hiff.mpr ⟨h0, hlt⟩⟩
    · rw [tapCoordinate_eq (hmoved position hp tap ht) hpadding] at hnone
      exact absurd ((Word.subSigned_toSigned_eq_none (hmoved position hp tap ht) hpadding).mp
        hnone) hsinks

/-! ## Both axes -/

/-- Whether the kernel comes to a movement that sinks.  Columns are looked at only under rows that
lie over the image. -/
def Strays (c : Convolution) (height kernelHeight rows kernelWidth columns : Nat) : Prop :=
  SinksAlong c.padding.height c.stride.height c.dilation.height kernelHeight rows ∨
    Touches c.padding.height c.stride.height c.dilation.height height kernelHeight rows ∧
      SinksAlong c.padding.width c.stride.width c.dilation.width kernelWidth columns

/-- Windows and images go together unless a movement sinks. -/
theorem foldable_iff {size batch channels height width banks kernelHeight kernelWidth : Nat}
    {rows columns : Nat}
    (hbatch : 0 < batch) (hchannels : 0 < channels) (hbanks : 0 < banks)
    (hheight : height ≤ Word.maxSigned)
    (hrows : c.outputHeight height kernelHeight = some (some rows))
    (hcolumns : c.outputWidth width kernelWidth = some (some columns)) :
    Kernel.Foldable size c [batch, banks, rows, columns] [batch, channels, height, width]
        [banks, channels, kernelHeight, kernelWidth] ↔
      (View.isCountable [batch, banks, rows, columns] = true ∧
        View.isListable size [batch, banks, rows, columns] = true) ∧
        ¬c.Strays height kernelHeight rows kernelWidth columns := by
  have hvertical := addresses_of_outputLen hrows
  have hhorizontal := addresses_of_outputLen hcolumns
  refine and_congr_right fun _ => ⟨fun h => ?_, fun h n hn o ho row hrow column hcolumn channel
    hchannel ky hky => ?_⟩
  · have hformed : ∀ row < rows, ∀ ky < kernelHeight, ∃ y,
        Kernel.tapCoordinate row c.stride.height ky c.dilation.height c.padding.height = some y ∧
          _ :=
      fun row hrow => h 0 hbatch 0 hbanks row hrow 0 (outputLen_pos hcolumns) 0 hchannels
    have hsteady : ∀ row < rows, ∀ ky < kernelHeight,
        ¬Sinks c.padding.height (row * c.stride.height + ky * c.dilation.height) := by
      intro row hrow ky hky hsinks
      obtain ⟨y, hy, -⟩ := hformed row hrow ky hky
      rw [(hvertical.formed row hrow ky hky).mpr hsinks] at hy
      cases hy
    rintro (⟨row, hrow, ky, hky, hsinks⟩ |
      ⟨⟨row, hrow, ky, hky, h0, hlt⟩, column, hcolumn, kx, hkx, hsinks⟩)
    · exact hsteady row hrow ky hky hsinks
    · obtain ⟨y, hy, hinside⟩ :=
        hvertical.present hheight row hrow ky hky (hsteady row hrow ky hky) h0 hlt
      obtain ⟨y', hy', htaps⟩ := h 0 hbatch 0 hbanks row hrow column hcolumn 0 hchannels ky hky
      rw [hy] at hy'
      cases hy'
      obtain ⟨x, hx, -⟩ := htaps hinside kx hkx
      rw [(hhorizontal.formed column hcolumn kx hkx).mpr hsinks] at hx
      cases hx
  · cases hy : Kernel.tapCoordinate row c.stride.height ky c.dilation.height c.padding.height with
    | none =>
      exact absurd (Or.inl ⟨row, hrow, ky, hky, (hvertical.formed row hrow ky hky).mp hy⟩) h
    | some y =>
      refine ⟨y, rfl, fun hinside kx hkx => ?_⟩
      obtain ⟨rfl, h0, hlt⟩ := hvertical.inside row hrow ky hky y hy hinside
      cases hx : Kernel.tapCoordinate column c.stride.width kx c.dilation.width c.padding.width with
      | none =>
        exact absurd (Or.inr ⟨⟨row, hrow, ky, hky, h0, hlt⟩, column, hcolumn, kx, hkx,
          (hhorizontal.formed column hcolumn kx hkx).mp hx⟩) h
      | some x => exact ⟨x, rfl, fun _ => ⟨hn, ho, hchannel⟩⟩

end Convolution

namespace Kernel

variable {key : Nat} {c : Convolution} {x w : Argument} {t : Shape} {num : Arithmetic}

/-- A host argument is read at its own type, or not at all where it cannot be addressed. -/
theorem viewAs_of_onHost {a : Argument} (ha : a.OnHost) :
    a.viewAs a.shape.dtype = .halted ∧ ¬a.shape.Addressable ∨
      ∃ v, a.viewAs a.shape.dtype = .value v ∧ v.lens = a.shape.lens ∧ a.shape.Addressable := by
  obtain ⟨s, storage⟩ := a
  obtain ⟨b, rfl, -⟩ := ha
  by_cases haddr : s.Addressable
  · exact Or.inr ⟨_, Argument.viewAs_onHost haddr, rfl, haddr⟩
  · refine Or.inl ⟨?_, haddr⟩
    unfold Argument.viewAs
    rw [Outcome.require_pos rfl, Outcome.value_bind]
    exact if_neg haddr

theorem convolution_complete {output : List Nat} {v u : View} (hv : v.lens.length = 4)
    (hu : u.lens.length = 4) (hrank : output.length = 4) :
    (Kernel.convolution num c output v u).Ends False fun r => r.lens = output ∧ r.Complete := by
  obtain ⟨_, _, _, _, hv⟩ := List.length_eq_four.mp hv
  obtain ⟨_, _, _, _, hu⟩ := List.length_eq_four.mp hu
  obtain ⟨_, _, _, _, rfl⟩ := List.length_eq_four.mp hrank
  unfold Kernel.convolution
  rw [hv, hu]
  exact tabulate_complete _ _ _

/-- What is computed is put into storage where memory holds it. -/
theorem ofTensor_eq_none_iff {r : Tensor} (ht : Shape.standard t.dtype t.lens = some t)
    (hlens : r.lens = t.lens) (hr : r.Complete) :
    Argument.ofTensor key t.dtype r = none ↔ ¬t.Holdable := by
  have hcount : r.elements.length = t.lens.prod := hr.trans (congrArg List.prod hlens)
  rw [← not_iff_not, not_not, ← ne_eq, Option.ne_none_iff_exists']
  constructor
  · rintro ⟨a, ha⟩
    obtain ⟨_, -, hfit, -⟩ := Argument.ofTensor_eq_some.mp ha
    rw [hcount] at hfit
    exact hfit
  · intro hhold
    exact ⟨_, Argument.ofTensor_eq_some.mpr ⟨t, hlens ▸ ht, hcount ▸ hhold, rfl⟩⟩

/-- The kernel has an answer over operands that can be addressed whose windows and images go
together. -/
theorem onHost_convolution_eq_halted_iff (hnum : t.dtype.arithmetic = some num)
    (ht : Shape.standard t.dtype t.lens = some t) (hx : x.OnHost) (hw : w.OnHost)
    (hxd : x.shape.dtype = t.dtype) (hwd : w.shape.dtype = t.dtype)
    (hxr : x.shape.lens.length = 4) (hwr : w.shape.lens.length = 4) (hrank : t.lens.length = 4) :
    onHost key (.convolution c) t [x, w] = .halted ↔
      ¬x.shape.Addressable ∨ ¬w.shape.Addressable ∨
        ¬Foldable num.size c t.lens x.shape.lens w.shape.lens ∨ ¬t.Holdable := by
  have hx := viewAs_of_onHost hx
  have hw := viewAs_of_onHost hw
  rw [hxd] at hx
  rw [hwd] at hw
  rw [onHost_of_arithmetic key rfl Operator.noConfusion hnum, List.mapM_cons, List.mapM_cons,
    List.mapM_nil]
  rcases hx with ⟨hx, haddr⟩ | ⟨v, hx, hv, haddr⟩
  · rw [hx]
    exact iff_of_true rfl (Or.inl haddr)
  rcases hw with ⟨hw, haddr'⟩ | ⟨u, hw, hu, haddr'⟩
  · rw [hx, hw]
    exact iff_of_true rfl (Or.inr (Or.inl haddr'))
  rw [hx, hw, ← hv, ← hu, ← convolution_ne_halted_iff num, not_not]
  show (Kernel.convolution num c t.lens v u >>= _) = Outcome.halted ↔ _
  rw [Outcome.bind_eq_halted]
  rw [or_iff_right (not_not.mpr haddr), or_iff_right (not_not.mpr haddr')]
  refine or_congr_right' fun hne => ?_
  have hends : (Kernel.convolution num c t.lens v u).Ends False _ :=
    convolution_complete (hv ▸ hxr) (hu ▸ hwr) hrank
  cases hr : Kernel.convolution num c t.lens v u with
  | halted => exact absurd hr hne
  | refused e =>
    rw [hr] at hends
    exact hends.elim
  | value r =>
    rw [hr] at hends
    rw [← @ofTensor_eq_none_iff key t r ht hends.1 hends.2]
    simp only [Outcome.value.injEq, exists_eq_left']
    cases Argument.ofTensor key t.dtype r with
    | none => exact iff_of_true rfl rfl
    | some a => exact iff_of_false (fun h => nomatch h) (fun h => nomatch h)

/-- The kernel gives a value of the inferred shape unless it halts. -/
theorem onHost_convolution_ends
    (hinfer : (Operator.convolution c).infer [x.shape, w.shape] = .value t) (hx : x.OnHost)
    (hw : w.OnHost) (hxp : x.shape.Populated) (hwp : w.shape.Populated) :
    (onHost key (.convolution c) t [x, w]).Ends False (·.shape = t) := by
  have hinfers := Operator.infer_eq_value.mp hinfer
  have hpopulated : ∀ s ∈ [x.shape, w.shape], s.Populated := by
    rw [List.forall_mem_cons, List.forall_mem_singleton]
    exact ⟨hxp, hwp⟩
  obtain ⟨v, -, hv⟩ := hx.stores hxp
  obtain ⟨u, -, hu⟩ := hw.stores hwp
  have hstored : Stored [x, w] [x.shape, w.shape] [v, u] := .cons hv (.cons hu .nil)
  obtain ⟨r, hr, -⟩ := Operator.exists_denote hinfers rfl hstored.shaped
  exact (numeric_ends key hinfers rfl Operator.noConfusion hstored hpopulated
    (hinfers.populated_of_isCompute rfl hpopulated) False.elim False.elim False.elim hr).mono
    fun _ hstores => hstores.shape

end Kernel

/-- Where the kernel of a convolution leaves the machine words.  Of two operands of any layout
whose shapes inference accepts, the padding is a signed word and every movement of a tap a word;
a coordinate cannot be formed only for a movement that sinks, and one that passes for inside is an
index of the image.  The kernel halts where it comes to a movement that sinks, where an operand is
too large to be addressed or the result too large for memory to hold it, and gives a tensor of the
inferred shape otherwise. -/
theorem convolution_halts_iff (c : Convolution) (x w : Argument) (t : Shape) (key : Nat)
    (hinfer : (Operator.convolution c).infer [x.shape, w.shape] = .value t) (hx : x.OnHost)
    (hw : w.OnHost) (hxp : x.shape.Populated) (hwp : w.shape.Populated) :
    ∃ batch channels height width banks kernelHeight kernelWidth rows columns,
      x.shape.lens = [batch, channels, height, width] ∧
      w.shape.lens = [banks, channels, kernelHeight, kernelWidth] ∧
      t.lens = [batch, banks, rows, columns] ∧
      Convolution.Addresses c.padding.height c.stride.height c.dilation.height height kernelHeight
        rows ∧
      Convolution.Addresses c.padding.width c.stride.width c.dilation.width width kernelWidth
        columns ∧
      (Kernel.onHost key (.convolution c) t [x, w] = .halted ↔
        ¬x.shape.Addressable ∨ ¬w.shape.Addressable ∨ ¬t.Holdable ∨
          c.Strays height kernelHeight rows kernelWidth columns) ∧
      (Kernel.onHost key (.convolution c) t [x, w] ≠ .halted →
        ∃ r, Kernel.onHost key (.convolution c) t [x, w] = .value r ∧ r.shape = t) := by
  have hinfers := Operator.infer_eq_value.mp hinfer
  obtain ⟨hfloat, hdtypes⟩ := hinfers.isFloat rfl Operator.noConfusion
  obtain ⟨num, hnum⟩ := Operator.exists_arithmetic hfloat
  have hends : (Kernel.onHost key (.convolution c) t [x, w]).Ends False (·.shape = t) :=
    Kernel.onHost_convolution_ends hinfer hx hw hxp hwp
  have hstandard := hinfers.isStandard rfl
  have htp : t.Populated := hinfers.populated_of_isCompute rfl (by simp [hxp, hwp])
  cases hinfers with
  | @convolution _ _ _ batch channels height width banks kernelHeight kernelWidth rows columns _
      hf hd hxl hwl hrows hcolumns ht =>
    have hlens := Shape.lens_of_standard ht
    refine ⟨batch, channels, height, width, banks, kernelHeight, kernelWidth, rows, columns, hxl,
      hwl, hlens, Convolution.addresses_of_outputLen hrows,
      Convolution.addresses_of_outputLen hcolumns, ?_, fun hne => ?_⟩
    · have hpos : ∀ n ∈ [batch, channels, height, width], 0 < n := hxl ▸ hxp
      have hpos' : ∀ n ∈ [banks, channels, kernelHeight, kernelWidth], 0 < n := hwl ▸ hwp
      rw [Kernel.onHost_convolution_eq_halted_iff hnum hstandard hx hw
        (hdtypes _ List.mem_cons_self) (hdtypes _ (List.mem_cons_of_mem _ List.mem_cons_self))
        (by rw [hxl]; rfl) (by rw [hwl]; rfl) (by rw [hlens]; rfl)]
      by_cases haddr : x.shape.Addressable
      · have hfold := @Convolution.foldable_iff c num.size _ _ _ _ _ _ _ _ _ (hpos batch (by simp))
          (hpos channels (by simp)) (hpos' banks (by simp))
          (haddr.extent_le hxp (by rw [hxl]; simp)) hrows hcolumns
        rw [hxl, hwl, hlens, hfold, ← hlens]
        by_cases hhold : t.Holdable
        · have hsize : View.isListable num.size t.lens = true :=
            Dtype.size_arithmetic hnum ▸ hhold.listable
          simp [hhold, hsize, hhold.isCountable htp]
        · simp [hhold]
      · exact iff_of_true (Or.inl haddr) (Or.inl haddr)
    · cases hrun : Kernel.onHost key (.convolution c) t [x, w] with
      | value r => exact ⟨r, rfl, hends.of_value hrun⟩
      | refused e =>
        rw [hrun] at hends
        exact hends.elim
      | halted => exact absurd hrun hne

def onePixel : Argument :=
  ⟨⟨.float, [⟨1, 1⟩, ⟨1, 1⟩, ⟨1, 1⟩, ⟨1, 1⟩]⟩,
    some (.host (.ofBytes 0 (Bytes.ofWords 4 [0x3f800000])))⟩

theorem readable_onePixel : onePixel.Readable :=
  Argument.readable_ofBytes (by unfold Shape.Populated; decide) (by decide) (by decide)

/-- Above and below one pixel lie `2 ^ 62` rows each.  The second window that a stride of `2 ^ 63`
reaches sinks, and a stride of one more leaves the first window only.  With a border of `2 ^ 30` on
all sides no window sinks and there are few enough to count, but memory does not hold a float for
each. -/
theorem convolution_halts_iff_onePixel :
    (Operator.convolution ⟨⟨2 ^ (62 : Nat), 0⟩, ⟨2 ^ (63 : Nat), 1⟩, ⟨1, 1⟩⟩).infer
      [onePixel.shape, onePixel.shape] =
        .value ⟨.float, [⟨1, 2⟩, ⟨1, 2⟩, ⟨2, 1⟩, ⟨1, 1⟩]⟩ ∧
    Kernel.onHost 1 (.convolution ⟨⟨2 ^ (62 : Nat), 0⟩, ⟨2 ^ (63 : Nat), 1⟩, ⟨1, 1⟩⟩)
      ⟨.float, [⟨1, 2⟩, ⟨1, 2⟩, ⟨2, 1⟩, ⟨1, 1⟩]⟩ [onePixel, onePixel] = .halted ∧
    (∃ r, Kernel.onHost 1 (.convolution ⟨⟨2 ^ (62 : Nat), 0⟩, ⟨2 ^ (63 : Nat) + 1, 1⟩, ⟨1, 1⟩⟩)
        onePixel.shape [onePixel, onePixel] = .value r ∧ r.shape = onePixel.shape) ∧
    ∃ t, (Operator.convolution ⟨⟨2 ^ (30 : Nat), 2 ^ (30 : Nat)⟩, ⟨1, 1⟩, ⟨1, 1⟩⟩).infer
        [onePixel.shape, onePixel.shape] = .value t ∧ View.isCountable t.lens = true ∧
      Kernel.onHost 1 (.convolution ⟨⟨2 ^ (30 : Nat), 2 ^ (30 : Nat)⟩, ⟨1, 1⟩, ⟨1, 1⟩⟩) t
        [onePixel, onePixel] = .halted := by
  obtain ⟨hhost, hpopulated, haddressable⟩ := readable_onePixel
  have hinfer : (Operator.convolution ⟨⟨2 ^ (62 : Nat), 0⟩, ⟨2 ^ (63 : Nat), 1⟩, ⟨1, 1⟩⟩).infer
      [onePixel.shape, onePixel.shape] =
        .value ⟨.float, [⟨1, 2⟩, ⟨1, 2⟩, ⟨2, 1⟩, ⟨1, 1⟩]⟩ := by rfl
  have hwide : (Operator.convolution ⟨⟨2 ^ (30 : Nat), 2 ^ (30 : Nat)⟩, ⟨1, 1⟩, ⟨1, 1⟩⟩).infer
      [onePixel.shape, onePixel.shape] = .value ⟨.float, [⟨1, (2 ^ (31 : Nat) + 1) ^ (2 : Nat)⟩,
        ⟨1, (2 ^ (31 : Nat) + 1) ^ (2 : Nat)⟩, ⟨2 ^ (31 : Nat) + 1, 2 ^ (31 : Nat) + 1⟩,
        ⟨2 ^ (31 : Nat) + 1, 1⟩]⟩ := by rfl
  refine ⟨hinfer, ?_, ?_, _, hwide, by decide, ?_⟩
  · obtain ⟨batch, channels, height, width, banks, kernelHeight, kernelWidth, rows, columns, hx, hw,
      ht, -, -, hhalts, -⟩ := convolution_halts_iff _ onePixel onePixel _ 1 hinfer hhost hhost
        hpopulated hpopulated
    cases hx
    cases hw
    cases ht
    exact hhalts.mpr (Or.inr (Or.inr (Or.inr (Or.inl (by decide)))))
  · obtain ⟨batch, channels, height, width, banks, kernelHeight, kernelWidth, rows, columns, hx, hw,
      ht, -, -, hhalts, hvalue⟩ := convolution_halts_iff
        ⟨⟨2 ^ (62 : Nat), 0⟩, ⟨2 ^ (63 : Nat) + 1, 1⟩, ⟨1, 1⟩⟩ onePixel onePixel onePixel.shape 1
        (by rfl) hhost hhost hpopulated hpopulated
    cases hx
    cases hw
    cases ht
    refine hvalue fun h => ?_
    rcases hhalts.mp h with h | h | h | h | ⟨-, h⟩
    · exact h haddressable
    · exact h haddressable
    · exact h (by decide)
    · exact absurd h (by decide)
    · exact absurd h (by decide)
  · obtain ⟨batch, channels, height, width, banks, kernelHeight, kernelWidth, rows, columns, hx, hw,
      ht, -, -, hhalts, -⟩ := convolution_halts_iff _ onePixel onePixel _ 1 hwide hhost hhost
        hpopulated hpopulated
    exact hhalts.mpr (Or.inr (Or.inr (Or.inl (by decide))))

/-- A shape that inference gives does not promise that the kernel has an answer. -/
theorem convolution_not_total :
    ¬∀ (c : Convolution) (x w : Argument) (t : Shape) (key : Nat),
      (Operator.convolution c).infer [x.shape, w.shape] = .value t → x.Readable → w.Readable →
        Kernel.onHost key (.convolution c) t [x, w] ≠ .halted := fun h =>
  h ⟨⟨2 ^ (62 : Nat), 0⟩, ⟨2 ^ (63 : Nat), 1⟩, ⟨1, 1⟩⟩ onePixel onePixel
    ⟨.float, [⟨1, 2⟩, ⟨1, 2⟩, ⟨2, 1⟩, ⟨1, 1⟩]⟩ 1 (by rfl) readable_onePixel readable_onePixel
    (by rfl)

end TensorGraph
