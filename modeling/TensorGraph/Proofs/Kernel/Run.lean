/-
The numeric kernels compute what their operators denote.

`run_ends` is the statement to use: on logical tensors that go together under a computing
operator, `Kernel.run` gives the elements of the meaning in row-major order, or halts
where an extent leaves the range.  The kernels fold in the order of the formulas, so what
remains is that no coordinate goes astray.  Only the convolution forms coordinates; there
the machine's signed difference either is the exact one or lies outside the image.
-/
import TensorGraph.Proofs.Ending
import TensorGraph.Proofs.Kernel.Softmax

namespace TensorGraph

/-! ## Folds that may stop -/

/-- An answer is `a`, and there is one where sizes fit. -/
def Gives {α : Type} (fits : Prop) (x : Option α) (a : α) : Prop := x = some a ∨ x = none ∧ ¬fits

section Gives

variable {α β : Type} {fits : Prop}

theorem Gives.bind {x : Option α} {a : α} {f : α → Option β} {b : β} (h : Gives fits x a)
    (hf : Gives fits (f a) b) : Gives fits (x >>= f) b := by
  rcases h with rfl | ⟨rfl, hfits⟩
  · exact hf
  · exact Or.inr ⟨rfl, hfits⟩

theorem gives_foldlM {f : β → α → Option β} {g : β → α → β} {l : List α}
    (h : ∀ b, ∀ a ∈ l, Gives fits (f b a) (g b a)) (b : β) :
    Gives fits (l.foldlM f b) (l.foldl g b) := by
  induction l generalizing b with
  | nil => exact Or.inl rfl
  | cons a as ih =>
    rw [List.foldlM_cons, List.foldl_cons]
    exact (h b a List.mem_cons_self).bind
      (ih (fun b a ha => h b a (List.mem_cons_of_mem _ ha)) (g b a))

theorem gives_mapM {f : α → Option β} {g : α → β} {l : List α}
    (h : ∀ a ∈ l, Gives fits (f a) (g a)) : Gives fits (l.mapM f) (l.map g) := by
  induction l with
  | nil => exact Or.inl rfl
  | cons a as ih =>
    rw [List.mapM_cons, List.map_cons]
    refine (h a List.mem_cons_self).bind ?_
    exact (ih fun a ha => h a (List.mem_cons_of_mem _ ha)).bind (Or.inl rfl)

theorem Gives.ends {x : Option α} {a : α} (h : Gives fits x a) :
    (liftM x : Outcome α).Ends fits (· = a) := by
  rcases h with rfl | ⟨rfl, hfits⟩
  · exact rfl
  · exact hfits

theorem Gives.return_ends {x : Option α} {a : α} {f : α → β} {P : β → Prop} (h : Gives fits x a)
    (ha : P (f a)) : (do return f (← x) : Outcome β).Ends fits P := by
  refine h.ends.bind ?_
  rintro _ rfl
  exact ha

end Gives

namespace Kernel

variable {fits : Prop}

theorem held_gives {size : Nat} {v : View} (hlist : fits → View.isListable size v.lens = true) :
    Gives fits (v.held size) v := by
  by_cases h : View.isListable size v.lens = true
  · exact Or.inl (View.held_of_isListable h)
  · exact Or.inr ⟨if_neg h, fun hf => h (hlist hf)⟩

theorem tabulate_ends {size : Nat} {lens : List Nat} {element : List Nat → Option Nat} {v : View}
    (hl : v.lens = lens) (hcount : fits → View.isCountable lens = true)
    (hlist : fits → View.isListable size lens = true)
    (h : ∀ idx, Index.Within idx lens → Gives fits (element idx) (v.read idx)) :
    (tabulate size lens element).Ends fits (· = v.toTensor) := by
  subst hl
  unfold tabulate
  split
  · have hm : Gives fits ((Index.indices v.lens).mapM element) ((Index.indices v.lens).map v.read) :=
      gives_mapM fun idx hi => h idx (Index.mem_indices.mp hi)
    exact hm.return_ends rfl
  · next hnot => exact fun hfits => hnot (Bool.and_eq_true_iff.mpr ⟨hcount hfits, hlist hfits⟩)

/-- A tabulated tensor has the extents it was asked for and an element for every index. -/
theorem tabulate_complete (size : Nat) (lens : List Nat) (element : List Nat → Option Nat) :
    (tabulate size lens element).Ends False fun t => t.lens = lens ∧ t.Complete := by
  unfold tabulate
  split
  · cases hm : (Index.indices lens).mapM element with
    | none => exact id
    | some es =>
      refine ⟨rfl, ?_⟩
      show es.length = lens.prod
      rw [← (mapM_eq_some.mp hm).length_eq, Index.length_indices]
  · exact id

/-! ## Products -/

/-- Every product has the extents of the first tensor, so memory holds all of them or none. -/
theorem product_gives (num : Arithmetic) {first : View} {rest : List View}
    (h : ∀ v ∈ rest, v.lens = first.lens)
    (hlist : fits → View.isListable num.size first.lens = true) :
    Gives fits (product num first rest) (rest.foldl (View.combine num.mul) first) := by
  induction rest generalizing first with
  | nil => exact held_gives hlist
  | cons v rest ih =>
    rw [product_cons]
    refine (held_gives hlist).bind ?_
    rw [View.zipWith_of_lens_eq num.mul (h v List.mem_cons_self).symm]
    exact ih (fun w hw => h w (List.mem_cons_of_mem _ hw)) hlist

theorem gemm_ends (num : Arithmetic) (factor : Nat) {a b : View} {m k n : Nat}
    (ha : a.lens = [m, k]) (hb : b.lens = [k, n])
    (hcount : fits → View.isCountable [m, n] = true)
    (hlist : fits → View.isListable num.size [m, n] = true) :
    (gemm num factor a b).Ends fits (· = (View.matmul num factor a b).toTensor) := by
  unfold gemm
  rw [ha, hb]
  refine tabulate_ends (by rw [View.matmul, ha, hb]; rfl) hcount hlist fun idx hi => ?_
  obtain ⟨i, j, rfl⟩ : ∃ i j, idx = [i, j] := List.length_eq_two.mp (Index.length_of_within hi)
  have hdot : Gives fits (dot num k (fun l => a.at? [i, l]) fun l => b.at? [l, j])
      (View.rowByColumn num a b i j) := by
    unfold dot View.rowByColumn
    rw [ha]
    refine gives_foldlM (fun acc l hl => Or.inl ?_) _
    have hlk : l < k := List.mem_range.mp hl
    have hleft : a.at? [i, l] = some (a.read [i, l]) :=
      View.at?_of_within (by rw [ha]; exact ⟨hi.1, hlk, trivial⟩)
    have hright : b.at? [l, j] = some (b.read [l, j]) :=
      View.at?_of_within (by rw [hb]; exact ⟨hlk, hi.2.1, trivial⟩)
    dsimp only
    rw [hleft, hright]
    rfl
  exact hdot.bind (Or.inl rfl)

/-! ## Convolution -/

/-- The number of window positions, in exact arithmetic. -/
theorem outputLen_spec {padding stride dilation input kernel positions : Nat}
    (h : Convolution.outputLen padding stride dilation input kernel = some (some positions)) :
    kernel ≠ 0 ∧ stride ≠ 0 ∧ input + 2 * padding ≤ Word.maxUnsigned ∧
      dilation * (kernel - 1) + 1 ≤ input + 2 * padding ∧
      positions = (input + 2 * padding - (dilation * (kernel - 1) + 1)) / stride + 1 := by
  unfold Convolution.outputLen at h
  split at h
  · cases h
  · next hdegenerate =>
    obtain ⟨twice, htwice, h⟩ := Option.bind_eq_some_iff.mp h
    obtain ⟨padded, hpadded, h⟩ := Option.bind_eq_some_iff.mp h
    obtain ⟨steps, hsteps, h⟩ := Option.bind_eq_some_iff.mp h
    obtain ⟨span, hspan, h⟩ := Option.bind_eq_some_iff.mp h
    obtain ⟨-, rfl⟩ := Word.fit_eq_some.mp htwice
    obtain ⟨hle, rfl⟩ := Word.fit_eq_some.mp hpadded
    obtain ⟨-, rfl⟩ := Word.fit_eq_some.mp hsteps
    obtain ⟨-, rfl⟩ := Word.fit_eq_some.mp hspan
    split at h
    · cases h
    · next hfit =>
      obtain ⟨total, htotal, h⟩ := Option.bind_eq_some_iff.mp h
      obtain ⟨-, rfl⟩ := Word.fit_eq_some.mp htotal
      cases h
      exact ⟨fun hk => hdegenerate (Or.inl hk), fun hs => hdegenerate (Or.inr hs), hle,
        Nat.not_lt.mp hfit, rfl⟩

/-- What the number of window positions says about the sizes behind it. -/
theorem outputLen_bounds {padding stride dilation input kernel positions : Nat}
    (h : Convolution.outputLen padding stride dilation input kernel = some (some positions)) :
    input + 2 * padding ≤ Word.maxUnsigned ∧ ∀ position tap, position < positions → tap < kernel →
      position * stride + tap * dilation + 1 ≤ input + 2 * padding := by
  obtain ⟨-, -, hle, hspan, rfl⟩ := outputLen_spec h
  refine ⟨hle, fun position tap hposition htap => ?_⟩
  have hmoved : position * stride ≤ input + 2 * padding - (dilation * (kernel - 1) + 1) :=
    calc position * stride
        ≤ (input + 2 * padding - (dilation * (kernel - 1) + 1)) / stride * stride :=
          Nat.mul_le_mul_right _ (Nat.lt_succ_iff.mp hposition)
      _ ≤ _ := Nat.div_mul_le_self _ _
  have htaps : tap * dilation ≤ dilation * (kernel - 1) := by
    rw [Nat.mul_comm]
    exact Nat.mul_le_mul_left _ (by omega)
  omega

/-- The machine's coordinate is inside the image exactly if the exact one is, and then they
are the same.  A movement beyond the signed range reads as negative. -/
theorem tapCoordinate_spec {padding stride dilation input kernel positions position tap : Nat}
    (h : Convolution.outputLen padding stride dilation input kernel = some (some positions))
    (hposition : position < positions) (htap : tap < kernel) (hinput : input ≤ Word.maxSigned)
    (hfits : fits → input + 2 * padding ≤ Word.maxSigned) :
    (∃ x, tapCoordinate position stride tap dilation padding = some x ∧
      (isInside x input = true ↔
        0 ≤ View.coordinate position stride tap dilation padding ∧
          View.coordinate position stride tap dilation padding < input) ∧
      (isInside x input = true → x = View.coordinate position stride tap dilation padding)) ∨
    (tapCoordinate position stride tap dilation padding = none ∧ ¬fits) := by
  obtain ⟨hword, hbound⟩ := outputLen_bounds h
  have hmoved := hbound position tap hposition htap
  have hcoordinate : View.coordinate position stride tap dilation padding =
      ((position * stride + tap * dilation : Nat) : Int) - padding := by
    rw [View.coordinate, Nat.cast_add, Nat.cast_mul, Nat.cast_mul]
  generalize hp : position * stride = p at hmoved hcoordinate
  generalize ht : tap * dilation = t at hmoved hcoordinate
  have hform : tapCoordinate position stride tap dilation padding =
      Word.subSigned (Word.toSigned (p + t)) (Word.toSigned padding) := by
    unfold tapCoordinate Word.add Word.mul
    rw [hp, ht, Word.fit_of_le (by omega), Word.fit_of_le (by omega)]
    show (Word.fit (p + t)).bind _ = _
    rw [Word.fit_of_le (by omega)]
    rfl
  have hmax : Word.maxUnsigned = 18446744073709551615 := rfl
  have hmax' : Word.maxSigned = 9223372036854775807 := rfl
  have hinside : ∀ x : Int, isInside x input = true ↔ 0 ≤ x ∧ x < input := by
    intro x
    rw [isInside, Word.toSigned, if_pos hinput]
    simp
  rw [hform, hcoordinate]
  unfold Word.subSigned Word.toSigned
  rw [if_pos (show padding ≤ Word.maxSigned by omega)]
  by_cases hsigned : p + t ≤ Word.maxSigned
  · rw [if_pos hsigned, if_pos (by omega)]
    exact Or.inl ⟨_, rfl, hinside _, fun _ => rfl⟩
  · rw [if_neg hsigned]
    split
    · refine Or.inl ⟨_, rfl, ?_, fun hin => ?_⟩
      · rw [hinside]
        omega
      · rw [hinside] at hin
        omega
    · exact Or.inr ⟨rfl, fun hf => by have := hfits hf; omega⟩

theorem foldl_addTap_of_outside {num : Arithmetic} {c : Convolution} {x w : View}
    {idx : List Nat} {channel ky : Nat}
    (hout : ¬(0 ≤ View.coordinate (idx.getD 2 0) c.stride.height ky c.dilation.height c.padding.height
      ∧ View.coordinate (idx.getD 2 0) c.stride.height ky c.dilation.height c.padding.height <
        x.lens.getD 2 0)) (taps : List Nat) (acc : Nat) :
    taps.foldl (fun acc kx => View.addTap num c x w idx channel ky kx acc) acc = acc := by
  induction taps with
  | nil => rfl
  | cons kx taps ih =>
    rw [List.foldl_cons]
    have hskip : View.addTap num c x w idx channel ky kx acc = acc := if_neg fun h => hout h.1
    rw [hskip, ih]

section Window

variable (num : Arithmetic) {c : Convolution} {x w : View}
variable {batch channels height width banks kernelHeight kernelWidth rows columns : Nat}
variable {n o row column channel ky : Nat}
variable (hx : x.lens = [batch, channels, height, width])
  (hw : w.lens = [banks, channels, kernelHeight, kernelWidth])
  (hrows : c.outputHeight height kernelHeight = some (some rows))
  (hcolumns : c.outputWidth width kernelWidth = some (some columns))
  (hheight : height ≤ Word.maxSigned) (hwidth : width ≤ Word.maxSigned)
  (hfits : fits → height + 2 * c.padding.height ≤ Word.maxSigned ∧
    width + 2 * c.padding.width ≤ Word.maxSigned)

include hx hw hcolumns hwidth hfits

/-- The taps along one row of the kernel, over a row that is inside the image. -/
theorem rowSum_gives (hn : n < batch) (ho : o < banks) (hcolumn : column < columns)
    (hc : channel < channels) (hky : ky < kernelHeight) {y : Int}
    (hy : y = View.coordinate row c.stride.height ky c.dilation.height c.padding.height)
    (hinside : 0 ≤ y ∧ y < height) (acc : Nat) :
    Gives fits (rowSum num c width kernelWidth column (fun x' => x.at? [n, channel, y.toNat, x'])
        (fun kx => w.at? [o, channel, ky, kx]) acc)
      ((List.range kernelWidth).foldl
        (fun acc kx => View.addTap num c x w [n, o, row, column] channel ky kx acc) acc) := by
  unfold rowSum
  refine gives_foldlM (fun acc kx hkx => ?_) _
  have hkx' : kx < kernelWidth := List.mem_range.mp hkx
  have hlen : x.lens.getD 2 0 = height := by rw [hx]; rfl
  have hlen' : x.lens.getD 3 0 = width := by rw [hx]; rfl
  rcases tapCoordinate_spec hcolumns hcolumn hkx' hwidth (fun hf => (hfits hf).2) with
    ⟨x', hx', hxin, hxeq⟩ | ⟨hx', hnot⟩
  · refine (show Gives fits _ x' from Or.inl hx').bind ?_
    by_cases hinside' : isInside x' width = true
    · rw [if_pos hinside']
      obtain ⟨hy0, hyh⟩ := hinside
      obtain ⟨hx0, hxw⟩ := hxin.mp hinside'
      have hx'' := hxeq hinside'
      have hpixel : x.at? [n, channel, y.toNat, x'.toNat] =
          some (x.read [n, channel, y.toNat, x'.toNat]) :=
        View.at?_of_within (by rw [hx]; exact ⟨hn, hc, by omega, by omega, trivial⟩)
      have hweight : w.at? [o, channel, ky, kx] = some (w.read [o, channel, ky, kx]) :=
        View.at?_of_within (by rw [hw]; exact ⟨ho, hc, hky, hkx', trivial⟩)
      dsimp only
      rw [hpixel, hweight]
      have htap : View.addTap num c x w [n, o, row, column] channel ky kx acc =
          Format.double.add acc (Format.double.mul
            (num.widen (x.read [n, channel, y.toNat, x'.toNat]))
            (num.widen (w.read [o, channel, ky, kx]))) := by
        unfold View.addTap
        dsimp only
        rw [if_pos (by rw [hlen, hlen']; exact ⟨hy ▸ ⟨hy0, hyh⟩, hx0, hxw⟩), hy, hx'']
        rfl
      rw [htap]
      exact Or.inl rfl
    · rw [if_neg hinside']
      have htap : View.addTap num c x w [n, o, row, column] channel ky kx acc = acc :=
        if_neg fun h => hinside' (hxin.mpr (by rw [hlen'] at h; exact h.2))
      rw [htap]
      exact Or.inl rfl
  · exact Or.inr ⟨by rw [hx']; rfl, hnot⟩

include hrows hheight

/-- The sum over a window of the image, a row outside of which adds nothing. -/
theorem windowSum_gives (hn : n < batch) (ho : o < banks) (hrow : row < rows)
    (hcolumn : column < columns) :
    Gives fits (windowSum num c channels height width kernelHeight kernelWidth row
      column (fun channel y x' => x.at? [n, channel, y, x'])
      (fun channel ky kx => w.at? [o, channel, ky, kx]))
      ((List.range channels).foldl (fun acc channel =>
        (List.range kernelHeight).foldl (fun acc ky =>
          (List.range kernelWidth).foldl (fun acc kx =>
            View.addTap num c x w [n, o, row, column] channel ky kx acc) acc) acc) 0) := by
  unfold windowSum
  refine gives_foldlM (fun acc channel hchannel => ?_) _
  refine gives_foldlM (fun acc ky hky => ?_) _
  have hc : channel < channels := List.mem_range.mp hchannel
  have hky' : ky < kernelHeight := List.mem_range.mp hky
  have hlen : x.lens.getD 2 0 = height := by rw [hx]; rfl
  rcases tapCoordinate_spec hrows hrow hky' hheight (fun hf => (hfits hf).1) with
    ⟨y, hy, hyin, hyeq⟩ | ⟨hy, hnot⟩
  · refine (show Gives fits _ y from Or.inl hy).bind ?_
    by_cases hinside : isInside y height = true
    · rw [if_pos hinside]
      have hy' := hyeq hinside
      exact rowSum_gives num hx hw hcolumns hwidth hfits hn ho hcolumn hc hky' hy'
        (hy' ▸ hyin.mp hinside) acc
    · rw [if_neg hinside, foldl_addTap_of_outside (by
        rw [hlen]
        exact fun h => hinside (hyin.mpr h))]
      exact Or.inl rfl
  · exact Or.inr ⟨by rw [hy]; rfl, hnot⟩

theorem convolution_ends (hcount : fits → View.isCountable [batch, banks, rows, columns] = true)
    (hlist : fits → View.isListable num.size [batch, banks, rows, columns] = true) :
    (convolution num c [batch, banks, rows, columns] x w).Ends fits
      (· = (View.convolved num c [batch, banks, rows, columns] x w).toTensor) := by
  unfold convolution
  rw [hx, hw]
  refine tabulate_ends rfl hcount hlist fun idx hi => ?_
  obtain ⟨n, o, row, column, rfl⟩ : ∃ n o row column, idx = [n, o, row, column] := by
    have hlen := Index.length_of_within hi
    match idx, hlen with
    | [n, o, row, column], _ => exact ⟨n, o, row, column, rfl⟩
  obtain ⟨hn, ho, hrow, hcolumn, -⟩ := hi
  have hsum := windowSum_gives num hx hw hrows hcolumns hheight hwidth hfits hn ho hrow hcolumn
  have hread : (View.convolved num c [batch, banks, rows, columns] x w).read [n, o, row, column] =
      num.narrow ((List.range channels).foldl (fun acc channel =>
        (List.range kernelHeight).foldl (fun acc ky =>
          (List.range kernelWidth).foldl (fun acc kx =>
            View.addTap num c x w [n, o, row, column] channel ky kx acc) acc) acc) 0) := by
    rw [View.convolved, hx, hw]
    rfl
  rw [hread]
  exact hsum.bind (Or.inl rfl)

end Window

end Kernel

/-! ## Dispatch -/

theorem Convolution.outputLen_pos {padding stride dilation input kernel positions : Nat}
    (h : outputLen padding stride dilation input kernel = some (some positions)) :
    0 < positions := by
  obtain ⟨-, -, -, -, rfl⟩ := Kernel.outputLen_spec h
  exact Nat.succ_pos _

/-- Computing makes no extent 0 out of others. -/
theorem Operator.Infers.populated_of_isCompute {op : Operator} {inputs : List Shape}
    {output : Shape} (h : Infers op inputs output) (hc : op.isCompute = true)
    (hpopulated : ∀ s ∈ inputs, s.Populated) : output.Populated := by
  have hrelaid : ∀ {s : Shape}, s.asStandard = some output → s ∈ inputs → output.Populated := by
    intro s ht hs
    unfold Shape.Populated
    rw [(Shape.asStandard_eq_some ht).1]
    exact hpopulated s hs
  cases h with
  | elementary fn hf ht => exact hrelaid ht List.mem_cons_self
  | add hf hd hl ht => exact hrelaid ht List.mem_cons_self
  | mul hf hs ht => exact hrelaid ht List.mem_cons_self
  | contiguous ht => exact hrelaid ht List.mem_cons_self
  | softmax hf ha ht => exact hrelaid ht List.mem_cons_self
  | gemm factor hf hd ha hb ht =>
    have hleft := hpopulated _ List.mem_cons_self
    have hright := hpopulated _ (List.mem_cons_of_mem _ List.mem_cons_self)
    unfold Shape.Populated at hleft hright ⊢
    rw [ha] at hleft
    rw [hb] at hright
    rw [Shape.lens_of_standard ht]
    simp only [List.mem_cons, List.not_mem_nil, or_false, forall_eq_or_imp, forall_eq]
      at hleft hright ⊢
    exact ⟨hleft.1, hright.2⟩
  | convolution hf hd hx hw hrows hcolumns ht =>
    have himages := hpopulated _ List.mem_cons_self
    have hkernels := hpopulated _ (List.mem_cons_of_mem _ List.mem_cons_self)
    unfold Shape.Populated at himages hkernels ⊢
    rw [hx] at himages
    rw [hw] at hkernels
    rw [Shape.lens_of_standard ht]
    simp only [List.mem_cons, List.not_mem_nil, or_false, forall_eq_or_imp, forall_eq]
      at himages hkernels ⊢
    exact ⟨himages.1, hkernels.1, Convolution.outputLen_pos hrows,
      Convolution.outputLen_pos hcolumns⟩
  | _ => cases hc

/-- Whether the coordinates that an operator forms are signed words: those of a convolution
run over the padded image. -/
def Operator.Roomy : Operator → List Shape → Prop
  | .convolution c, x :: _ =>
    x.lens.getD 2 0 + 2 * c.padding.height ≤ Word.maxSigned ∧
      x.lens.getD 3 0 + 2 * c.padding.width ≤ Word.maxSigned
  | _, _ => True

namespace Kernel

open Operator (Infers)

/-- A computing operator other than the copy gives what it denotes. -/
theorem run_ends {op : Operator} {shapes : List Shape} {t : Shape} {views : List View}
    {num : Arithmetic} (h : Infers op shapes t) (hc : op.isCompute = true)
    (hn : op ≠ .contiguous) (hnum : t.dtype.arithmetic = some num)
    (hv : View.Shaped shapes views) (hword : ∀ s ∈ shapes, ∀ n ∈ s.lens, n ≤ Word.maxSigned)
    (hcount : fits → View.isCountable t.lens = true)
    (hlist : fits → View.isListable num.size t.lens = true) (hroom : fits → op.Roomy shapes)
    {v : View} (hd : op.denote t views = some v) :
    (run num op t.lens views).Ends fits (· = v.toTensor) := by
  have hlens : v.lens = t.lens :=
    Operator.lens_of_denote h (Operator.isParameter_of_isCompute hc) hv hd
  rw [← hlens] at hlist
  rw [Operator.denote_of_arithmetic hc hn hnum] at hd
  cases h with
  | elementary fn hf ht =>
    obtain _ | ⟨-, _ | _⟩ := hv
    cases hd
    exact (held_gives hlist).return_ends rfl
  | add hf hdt hl ht =>
    obtain _ | ⟨hx, _ | ⟨hy, _ | _⟩⟩ := hv
    cases hd
    unfold run
    dsimp only
    rw [View.zipWith_of_lens_eq num.add (by rw [hx, hy, hl])]
    exact (held_gives hlist).return_ends rfl
  | @mul a b rest _ hf hs ht =>
    obtain _ | ⟨hx, hys⟩ := hv
    have hall := View.lens_of_shaped hys fun s hm => (hs s hm).2
    obtain _ | ⟨hy, hrest⟩ := hys
    cases hd
    unfold run
    dsimp only
    rw [View.lens_foldl_combine] at hlist
    exact (product_gives num (fun w hw => by rw [hall w hw, hx]) hlist).return_ends rfl
  | gemm factor hf hdt ha hb ht =>
    obtain _ | ⟨hx, _ | ⟨hy, _ | _⟩⟩ := hv
    cases hd
    rw [hlens, Shape.lens_of_standard ht] at hlist
    rw [Shape.lens_of_standard ht] at hcount
    exact gemm_ends num factor (hx.trans ha) (hy.trans hb) hcount hlist
  | @softmax axis s _ hf hax ht =>
    obtain _ | @⟨_, x, _, _, hx, _ | _⟩ := hv
    cases hd
    have hcopy : Gives fits (x.held num.size) x := held_gives hlist
    show (softmax num axis x).Ends fits _
    rw [softmax_eq num (by rw [hx, Shape.length_lens]; exact hax)]
    exact hcopy.return_ends (f := fun copy => (View.softmax num axis copy).toTensor) rfl
  | @convolution c x w batch channels height width banks kernelHeight kernelWidth rows columns _
      hf hdt hx hw hrows hcolumns ht =>
    obtain _ | ⟨hxl, _ | ⟨hwl, _ | _⟩⟩ := hv
    cases hd
    rw [Shape.lens_of_standard ht] at hcount hlist ⊢
    have hxw := hword x List.mem_cons_self
    rw [hx] at hxw
    refine convolution_ends num (hxl.trans hx) (hwl.trans hw) hrows hcolumns
      (hxw height (by simp)) (hxw width (by simp)) (fun hf => ?_) hcount hlist
    have hr : x.lens.getD 2 0 + 2 * c.padding.height ≤ Word.maxSigned ∧
        x.lens.getD 3 0 + 2 * c.padding.width ≤ Word.maxSigned := hroom hf
    rw [hx] at hr
    exact hr
  | contiguous => exact absurd rfl hn
  | _ => cases hc

end Kernel
end TensorGraph
