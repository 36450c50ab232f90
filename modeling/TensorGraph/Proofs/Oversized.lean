/-
When a size leaves the 64-bit range during shape inference.

Sizes are formed at four places: strides multiply the extents from the last to the first, the
product of a reshape multiplies them from the first to the last, and a convolution pads its
input and spreads its kernel.  `TailTooLarge`, `HeadTooLarge` and `WindowTooLarge` say in
plain integers when the arithmetic there has no answer, and `Oversized` lists for each
operator the inputs that it accepts but has no output size for.  `infer_eq_halted` says that
inference halts on those and no others; whatever else it does not accept it refuses with a
shape fault, by `infer_refused`.
-/
import TensorGraph.Proofs.Inference

namespace TensorGraph

/-! ## Computations that halt -/

namespace Outcome

variable {α β : Type}

theorem bind_eq_halted {x : Outcome α} {f : α → Outcome β} :
    (x >>= f) = halted ↔ x = halted ∨ ∃ a, x = value a ∧ f a = halted := by
  cases x with
  | value a =>
    constructor
    · exact fun h => Or.inr ⟨a, rfl, h⟩
    · intro h
      rcases h with h | ⟨b, hb, h⟩
      · cases h
      · cases hb
        exact h
  | refused e =>
    constructor
    · exact fun h => nomatch h
    · intro h
      rcases h with h | ⟨b, hb, -⟩
      · cases h
      · cases hb
  | halted => exact ⟨fun _ => Or.inl rfl, fun _ => rfl⟩

theorem ofOption_eq_halted {x : Option α} : ofOption x = halted ↔ x = none := by
  cases x with
  | none => exact ⟨fun _ => rfl, fun _ => rfl⟩
  | some a => exact ⟨(fun h => nomatch h), (fun h => nomatch h)⟩

/-- A condition plays no part in whether what follows halts, unless it fails. -/
theorem require_bind_eq_halted {c : Prop} [Decidable c] {e : Error} {f : Unit → Outcome β} :
    (require c e >>= f) = halted ↔ c ∧ f () = halted := by
  by_cases h : c
  · rw [require_pos h, value_bind]
    exact ⟨fun hf => ⟨h, hf⟩, fun hf => hf.2⟩
  · rw [require_neg h]
    exact ⟨(fun hf => nomatch hf), fun hf => absurd hf.1 h⟩

end Outcome

/-! ## Products that are too large -/

def TailTooLarge (lens : List Nat) : Prop := ∃ k, Word.maxUnsigned < (lens.drop k).prod

def HeadTooLarge (lens : List Nat) : Prop := ∃ k, Word.maxUnsigned < (lens.take k).prod

def WindowTooLarge (padding stride dilation input kernel : Nat) : Prop :=
  kernel ≠ 0 ∧ stride ≠ 0 ∧
    (Word.maxUnsigned < input + 2 * padding ∨ Word.maxUnsigned < dilation * (kernel - 1) + 1)

theorem tailTooLarge_cons {n : Nat} {ns : List Nat} :
    TailTooLarge (n :: ns) ↔ Word.maxUnsigned < n * ns.prod ∨ TailTooLarge ns := by
  constructor
  · intro h
    obtain ⟨k, hk⟩ := h
    cases k with
    | zero =>
      rw [List.drop_zero, List.prod_cons] at hk
      exact Or.inl hk
    | succ k => exact Or.inr ⟨k, hk⟩
  · intro h
    rcases h with h | ⟨k, hk⟩
    · exact ⟨0, by rw [List.drop_zero, List.prod_cons]; exact h⟩
    · exact ⟨k + 1, hk⟩

namespace Word

theorem one_le_maxUnsigned : 1 ≤ maxUnsigned := by decide

theorem fit_eq_none {n : Nat} : fit n = none ↔ maxUnsigned < n := by
  rw [← Nat.not_le]
  exact ite_eq_right_iff.trans ⟨fun h hle => (nomatch h hle), fun h hle => absurd hle h⟩

theorem mul_eq_none {a b : Nat} : mul a b = none ↔ maxUnsigned < a * b := fit_eq_none

theorem mul_of_le {a b : Nat} (h : a * b ≤ maxUnsigned) : mul a b = some (a * b) := fit_of_le h

/-- A product that is added to is formed where the sum can be. -/
theorem mul_bind_fit (a b c : Nat) : ((mul a b).bind fun m => fit (m + c)) = fit (a * b + c) := by
  by_cases h : a * b ≤ maxUnsigned
  · rw [mul_of_le h, Option.bind_some]
  · rw [mul_eq_none.mpr (by omega), fit_eq_none.mpr (by omega), Option.bind_none]

theorem productFrom_eq_none {acc : Nat} {ns : List Nat} (hacc : acc ≤ maxUnsigned) :
    productFrom acc ns = none ↔ ∃ k, maxUnsigned < acc * (ns.take k).prod := by
  induction ns generalizing acc with
  | nil =>
    refine ⟨(fun h => nomatch h), fun h => ?_⟩
    obtain ⟨k, hk⟩ := h
    rw [List.take_nil, List.prod_nil, Nat.mul_one] at hk
    omega
  | cons n ns ih =>
    rw [productFrom_cons]
    by_cases hn : acc * n ≤ maxUnsigned
    · rw [mul_of_le hn, Option.bind_some, ih hn]
      constructor
      · intro h
        obtain ⟨k, hk⟩ := h
        exact ⟨k + 1, by rw [List.take_succ_cons, List.prod_cons, ← Nat.mul_assoc]; exact hk⟩
      · intro h
        obtain ⟨k, hk⟩ := h
        cases k with
        | zero =>
          rw [List.take_zero, List.prod_nil, Nat.mul_one] at hk
          omega
        | succ k =>
          rw [List.take_succ_cons, List.prod_cons, ← Nat.mul_assoc] at hk
          exact ⟨k, hk⟩
    · rw [mul_eq_none.mpr (by omega)]
      refine ⟨fun _ => ⟨1, ?_⟩, fun _ => rfl⟩
      rw [List.take_succ_cons, List.take_zero, List.prod_cons, List.prod_nil, Nat.mul_one]
      omega

theorem product_eq_none {ns : List Nat} : product ns = none ↔ HeadTooLarge ns := by
  unfold product
  rw [productFrom_eq_none one_le_maxUnsigned]
  simp only [Nat.one_mul]
  rfl

/-- A product that is a word bounds those of its heads, unless it is 0. -/
theorem prod_take_le {ns : List Nat} (h : ns.prod ≠ 0) (k : Nat) :
    (ns.take k).prod ≤ ns.prod :=
  Nat.le_of_dvd (Nat.pos_of_ne_zero h) (Dvd.intro _ (List.prod_take_mul_prod_drop ns k))

theorem product_le {ns : List Nat} {n : Nat} (h : product ns = some n) : n ≤ maxUnsigned := by
  have hhead : ¬HeadTooLarge ns := by
    rw [← product_eq_none, h]
    exact fun h => nomatch h
  by_contra hn
  refine hhead ⟨ns.length, ?_⟩
  rw [List.take_length, ← product_eq_some h]
  omega

end Word

namespace Axis

theorem rowMajorWithCount_eq_none {lens : List Nat} :
    rowMajorWithCount lens = none ↔ TailTooLarge lens := by
  induction lens with
  | nil =>
    refine ⟨(fun h => nomatch h), fun h => ?_⟩
    obtain ⟨k, hk⟩ := h
    have hone := Word.one_le_maxUnsigned
    rw [List.drop_nil, List.prod_nil] at hk
    omega
  | cons n ns ih =>
    rw [tailTooLarge_cons, rowMajorWithCount_cons]
    cases hr : rowMajorWithCount ns with
    | none => exact ⟨fun _ => Or.inr (ih.mp hr), fun _ => rfl⟩
    | some r =>
      obtain ⟨axes, count⟩ := r
      have hns : ¬TailTooLarge ns := by
        rw [← ih, hr]
        exact fun h => nomatch h
      have hcount : count = ns.prod := count_rowMajorWithCount hr
      rw [or_iff_left hns, Option.bind_some, Nat.mul_comm, ← hcount]
      show (Word.mul count n).bind _ = none ↔ _
      rw [← Word.mul_eq_none]
      cases Word.mul count n with
      | none => exact ⟨fun _ => rfl, fun _ => rfl⟩
      | some total => exact ⟨(fun h => nomatch h), (fun h => nomatch h)⟩

end Axis

namespace Shape

theorem standard_eq_none {d : Dtype} {lens : List Nat} :
    standard d lens = none ↔ TailTooLarge lens := by
  rw [← Axis.rowMajorWithCount_eq_none]
  unfold standard Axis.rowMajor
  cases Axis.rowMajorWithCount lens with
  | none => exact ⟨fun _ => rfl, fun _ => rfl⟩
  | some r => exact ⟨(fun h => nomatch h), (fun h => nomatch h)⟩

theorem asStandard_eq_none {s : Shape} : s.asStandard = none ↔ TailTooLarge s.lens :=
  standard_eq_none

end Shape

namespace Convolution

variable {padding stride dilation input kernel : Nat}

/-- The sizes that are formed are the padded extent, the span of a window and the number of
positions. -/
theorem outputLen_eq (hkernel : kernel ≠ 0) (hstride : stride ≠ 0) :
    outputLen padding stride dilation input kernel =
      (Word.fit (2 * padding + input)).bind fun padded =>
        (Word.fit (dilation * (kernel - 1) + 1)).bind fun span =>
          if padded < span then some none
          else (Word.fit ((padded - span) / stride + 1)).bind fun positions =>
            some (some positions) := by
  unfold outputLen
  rw [if_neg (not_or.mpr ⟨hkernel, hstride⟩), ← Word.mul_bind_fit, ← Word.mul_bind_fit,
    Option.bind_assoc]
  simp only [Option.bind_assoc, Word.add, Nat.add_comm input]
  rfl

theorem outputLen_eq_none :
    outputLen padding stride dilation input kernel = none ↔
      WindowTooLarge padding stride dilation input kernel := by
  unfold WindowTooLarge
  by_cases hzero : kernel = 0 ∨ stride = 0
  · rw [outputLen_degenerate hzero]
    exact ⟨(fun h => nomatch h), fun h => absurd hzero (by omega)⟩
  obtain ⟨hkernel, hstride⟩ := not_or.mp hzero
  rw [outputLen_eq hkernel hstride, and_iff_right hkernel, and_iff_right hstride]
  by_cases hpad : Word.maxUnsigned < 2 * padding + input
  · rw [Word.fit_of_gt hpad]
    exact iff_of_true rfl (Or.inl (by omega))
  rw [Word.fit_of_le (by omega), Option.bind_some]
  by_cases hspan : Word.maxUnsigned < dilation * (kernel - 1) + 1
  · rw [Word.fit_of_gt hspan]
    exact iff_of_true rfl (Or.inr hspan)
  rw [Word.fit_of_le (by omega), Option.bind_some]
  refine iff_of_false ?_ (by omega)
  split
  · exact fun h => nomatch h
  · -- the number of positions is below the padded extent, so it fits as well
    have hdiv := Nat.div_le_self (2 * padding + input - (dilation * (kernel - 1) + 1)) stride
    rw [Word.fit_of_le (by omega)]
    exact fun h => nomatch h

end Convolution

namespace Operator

variable {op : Operator} {inputs : List Shape} {dims : List Int} {s : Shape}

/-! ## Reshapes -/

/-- Dimensions are read without forming a size. -/
theorem resolveFrom_ne_halted (s : Shape) (all : List Int) (position : Nat) (openAt : Option Nat) :
    resolveFrom s all position openAt dims ≠ .halted := by
  induction dims generalizing position openAt with
  | nil => exact fun h => nomatch h
  | cons d ds ih =>
    unfold resolveFrom
    intro h
    dsimp only at h
    split at h
    · split at h
      · rw [Outcome.bind_eq_halted] at h
        rcases h with h | ⟨_, _, h⟩
        · exact ih _ _ h
        · cases h
      · cases h
    · split at h
      · rw [Outcome.bind_eq_halted] at h
        rcases h with h | ⟨_, _, h⟩
        · exact ih _ _ h
        · cases h
      · split at h
        · rw [Outcome.bind_eq_halted] at h
          rcases h with h | ⟨_, _, h⟩
          · exact ih _ _ h
          · cases h
        · cases h

/-- The position that is left open has extent 1 for the time being. -/
theorem getElem?_of_resolveFrom {all : List Int} {position : Nat} {openAt : Option Nat}
    {found : List Nat} {last : Option Nat}
    (h : resolveFrom s all position openAt dims = .value (found, last)) :
    last = openAt ∨ ∃ k, last = some (position + k) ∧ found[k]? = some 1 := by
  induction dims generalizing position openAt found with
  | nil =>
    cases h
    exact Or.inl rfl
  | cons d ds ih =>
    have hnext : ∀ {openAt' : Option Nat} {n : Nat} {tail : List Nat},
        resolveFrom s all (position + 1) openAt' ds = .value (tail, last) →
        last = openAt' ∨ ∃ k, last = some (position + k) ∧ (n :: tail)[k]? = some 1 := by
      intro openAt' n tail hrest
      rcases ih hrest with hlast | ⟨k, hlast, hk⟩
      · exact Or.inl hlast
      · refine Or.inr ⟨k + 1, ?_, hk⟩
        rw [hlast]
        congr 1
        omega
    unfold resolveFrom at h
    dsimp only at h
    split at h
    · split at h
      · obtain ⟨⟨tail, last'⟩, hrest, h⟩ := Outcome.bind_eq_value.mp h
        cases h
        exact hnext hrest
      · cases h
    · split at h
      · obtain ⟨⟨tail, last'⟩, hrest, h⟩ := Outcome.bind_eq_value.mp h
        cases h
        rcases hnext (n := 1) hrest with hlast | hk
        · exact Or.inr ⟨0, hlast, rfl⟩
        · exact Or.inr hk
      · split at h
        · obtain ⟨⟨tail, last'⟩, hrest, h⟩ := Outcome.bind_eq_value.mp h
          cases h
          exact hnext hrest
        · cases h

theorem prod_set_of_one {ns : List Nat} {k : Nat} (h : ns[k]? = some 1) (n : Nat) :
    (ns.set k n).prod = ns.prod * n := by
  induction ns generalizing k with
  | nil => cases h
  | cons m ms ih =>
    cases k with
    | zero =>
      cases h
      rw [List.set_cons_zero, List.prod_cons, List.prod_cons, Nat.one_mul, Nat.mul_comm]
    | succ k => rw [List.set_cons_succ, List.prod_cons, List.prod_cons, ih h, Nat.mul_assoc]

/-- Filling in the open position from the number of elements makes no product too large. -/
theorem not_headTooLarge_set {found : List Nat} {k known count : Nat}
    (hk : found[k]? = some 1) (hknown : Word.product found = some known) (hne : known ≠ 0)
    (hcount : count ≤ Word.maxUnsigned) : ¬HeadTooLarge (found.set k (count / known)) := by
  have hprod : known = found.prod := Word.product_eq_some hknown
  have hle : ∀ j, (found.take j).prod ≤ known := by
    intro j
    rw [hprod]
    exact Word.prod_take_le (by omega) j
  intro h
  obtain ⟨j, hj⟩ := h
  rw [List.take_set] at hj
  by_cases hjk : k < j
  · have hone : (found.take j)[k]? = some 1 := by rw [List.getElem?_take_of_lt hjk, hk]
    rw [prod_set_of_one hone] at hj
    have hbound : (found.take j).prod * (count / known) ≤ known * (count / known) :=
      Nat.mul_le_mul_right _ (hle j)
    have hdiv : known * (count / known) ≤ count := Nat.mul_div_le count known
    omega
  · have hsame : (found.take j).set k (count / known) = found.take j := by
      refine List.set_eq_of_length_le ?_
      rw [List.length_take]
      omega
    have hmax : known ≤ Word.maxUnsigned := Word.product_le hknown
    rw [hsame] at hj
    have hlej := hle j
    omega

/-- A reshape of a tensor whose elements can be counted halts exactly if the dimensions are
valid and their product is too large, with 1 for the one that is left open. -/
theorem resolve_eq_halted {count : Nat} (hs : s.elements = some count) :
    resolve dims s = .halted ↔
      ∃ found openAt, resolveFrom s dims 0 none dims = .value (found, openAt) ∧
        HeadTooLarge found := by
  have hcheck : ∀ found : List Nat, (do
      let product ← Word.product found
      let count ← s.elements
      Outcome.require (product = count) (.shape "reshape" (.reshapeCount count found))
      return found : Outcome (List Nat)) = .halted ↔ HeadTooLarge found := by
    intro found
    rw [← Word.product_eq_none, hs]
    cases Word.product found with
    | none => exact ⟨fun _ => rfl, fun _ => rfl⟩
    | some product =>
      refine ⟨fun h => ?_, (fun h => nomatch h)⟩
      have hrequire := Outcome.require_bind_eq_halted.mp h
      exact nomatch hrequire.2
  unfold resolve
  rw [Outcome.bind_eq_halted, or_iff_right (resolveFrom_ne_halted s dims 0 none), Prod.exists]
  refine exists_congr fun found => exists_congr fun openAt => and_congr_right fun hfound => ?_
  cases openAt with
  | none => exact hcheck found
  | some position =>
    have hk : found[position]? = some 1 := by
      rcases getElem?_of_resolveFrom hfound with h | ⟨k, hlast, hk⟩
      · cases h
      · rw [Nat.zero_add] at hlast
        cases hlast
        exact hk
    dsimp only
    rw [hs, ← Word.product_eq_none]
    cases hknown : Word.product found with
    | none => exact ⟨fun _ => rfl, fun _ => rfl⟩
    | some known =>
      refine ⟨fun h => ?_, (fun h => nomatch h)⟩
      exfalso
      obtain ⟨hne, h⟩ := Outcome.require_bind_eq_halted.mp
        (show (Outcome.require (known ≠ 0) _ >>= _) = .halted from h)
      obtain ⟨-, h⟩ := Outcome.require_bind_eq_halted.mp
        (show (Outcome.require (count % known = 0) _ >>= _) = .halted from h)
      have hlarge : HeadTooLarge (found.set position (count / known)) := by
        refine (hcheck _).mp ?_
        rw [hs]
        exact h
      exact not_headTooLarge_set hk hknown hne (Word.product_le hs) hlarge

/-! ## All operators -/

/-- Inputs that go together under the operator, with a size that is no word. -/
inductive Oversized : Operator → List Shape → Prop
  | elementary (fn : Elementary) {s : Shape} : s.dtype.isFloat = true → TailTooLarge s.lens →
      Oversized (.elementary fn) [s]
  | add {a b : Shape} : a.dtype.isFloat = true → b.dtype = a.dtype → b.lens = a.lens →
      TailTooLarge a.lens → Oversized .add [a, b]
  | mul {a b : Shape} {rest : List Shape} : a.dtype.isFloat = true →
      (∀ s ∈ b :: rest, s.dtype = a.dtype ∧ s.lens = a.lens) → TailTooLarge a.lens →
      Oversized .mul (a :: b :: rest)
  | dimensions {dims : List Int} {s : Shape} {found : List Nat} {openAt : Option Nat} :
      resolveFrom s dims 0 none dims = .value (found, openAt) → HeadTooLarge found →
      Oversized (.reshape dims) [s]
  | reshape {dims : List Int} {s : Shape} {lens : List Nat} : Resolves dims s lens →
      TailTooLarge lens → Oversized (.reshape dims) [s]
  | contiguous {s : Shape} : TailTooLarge s.lens → Oversized .contiguous [s]
  | gemm (factor : Nat) {a b : Shape} {m k n : Nat} : a.dtype.isFloat = true →
      a.dtype = b.dtype → a.lens = [m, k] → b.lens = [k, n] → TailTooLarge [m, n] →
      Oversized (.gemm factor) [a, b]
  | softmax {axis : Nat} {s : Shape} : s.dtype.isFloat = true → axis < s.rank →
      TailTooLarge s.lens → Oversized (.softmax axis) [s]
  | window {c : Convolution} {x w : Shape} {batch channels height width banks : Nat}
      {kernelHeight kernelWidth : Nat} : x.dtype.isFloat = true → x.dtype = w.dtype →
      x.lens = [batch, channels, height, width] →
      w.lens = [banks, channels, kernelHeight, kernelWidth] →
      WindowTooLarge c.padding.height c.stride.height c.dilation.height height kernelHeight ∨
        WindowTooLarge c.padding.width c.stride.width c.dilation.width width kernelWidth →
      Oversized (.convolution c) [x, w]
  | convolution {c : Convolution} {x w : Shape} {batch channels height width banks : Nat}
      {kernelHeight kernelWidth rows columns : Nat} : x.dtype.isFloat = true →
      x.dtype = w.dtype → x.lens = [batch, channels, height, width] →
      w.lens = [banks, channels, kernelHeight, kernelWidth] →
      c.outputHeight height kernelHeight = some (some rows) →
      c.outputWidth width kernelWidth = some (some columns) →
      TailTooLarge [batch, banks, rows, columns] → Oversized (.convolution c) [x, w]

theorem liftM_eq_halted {x : Option Shape} : (liftM x : Outcome Shape) = .halted ↔ x = none :=
  Outcome.ofOption_eq_halted

theorem inferElementwise_eq_halted {a : Shape} {rest : List Shape} :
    op.inferElementwise a rest = .halted ↔
      (∀ s ∈ rest, s.dtype = a.dtype ∧ s.lens = a.lens) ∧ TailTooLarge a.lens := by
  induction rest with
  | nil =>
    show Outcome.ofOption a.asStandard = .halted ↔ _
    rw [Outcome.ofOption_eq_halted, Shape.asStandard_eq_none]
    exact ⟨fun h => ⟨(fun _ hs => nomatch hs), h⟩, fun h => h.2⟩
  | cons s rest ih =>
    show (Outcome.require _ _ >>= fun _ => inferElementwise op a rest) = .halted ↔ _
    rw [Outcome.require_bind_eq_halted, ih, List.forall_mem_cons, and_assoc (a := s.dtype = _ ∧ _)]

theorem inferGemm_eq_halted {factor : Nat} {a b : Shape} :
    (gemm factor).inferGemm a b = .halted ↔ Oversized (.gemm factor) [a, b] := by
  unfold inferGemm requireFloat
  rw [Outcome.require_bind_eq_halted, Outcome.require_bind_eq_halted]
  constructor
  · intro h
    obtain ⟨hf, hd, h⟩ := h
    split at h
    · next m k l n ha hb =>
      obtain ⟨hk, h⟩ := Outcome.require_bind_eq_halted.mp h
      rw [← hk] at hb
      exact .gemm factor hf hd ha hb (Shape.standard_eq_none.mp (liftM_eq_halted.mp h))
    · cases h
  · intro h
    cases h with
    | gemm factor hf hd ha hb ht =>
      refine ⟨hf, hd, ?_⟩
      rw [ha, hb]
      exact Outcome.require_bind_eq_halted.mpr
        ⟨rfl, liftM_eq_halted.mpr (Shape.standard_eq_none.mpr ht)⟩

theorem inferConvolution_eq_halted {c : Convolution} {x w : Shape} :
    (convolution c).inferConvolution c x w = .halted ↔ Oversized (.convolution c) [x, w] := by
  unfold inferConvolution requireFloat
  rw [Outcome.require_bind_eq_halted]
  constructor
  · intro h
    obtain ⟨hf, h⟩ := h
    split at h
    · next hx hw =>
      obtain ⟨hd, h⟩ := Outcome.require_bind_eq_halted.mp h
      obtain ⟨hc, h⟩ := Outcome.require_bind_eq_halted.mp h
      rw [← hc] at hw
      rcases Outcome.bind_eq_halted.mp h with h | ⟨rows?, hrows, h⟩
      · exact .window hf hd hx hw
          (Or.inl (Convolution.outputLen_eq_none.mp (Outcome.ofOption_eq_halted.mp h)))
      rcases Outcome.bind_eq_halted.mp h with h | ⟨columns?, hcolumns, h⟩
      · exact .window hf hd hx hw
          (Or.inr (Convolution.outputLen_eq_none.mp (Outcome.ofOption_eq_halted.mp h)))
      split at h
      · exact .convolution hf hd hx hw (Outcome.ofOption_eq_value.mp hrows)
          (Outcome.ofOption_eq_value.mp hcolumns)
          (Shape.standard_eq_none.mp (liftM_eq_halted.mp h))
      · cases h
    · cases h
  · intro h
    cases h with
    | window hf hd hx hw hwindow =>
      refine ⟨hf, ?_⟩
      rw [hx, hw]
      refine Outcome.require_bind_eq_halted.mpr ⟨hd, Outcome.require_bind_eq_halted.mpr ⟨rfl, ?_⟩⟩
      rw [Outcome.bind_eq_halted]
      cases hrows : c.outputHeight _ _ with
      | none => exact Or.inl rfl
      | some rows? =>
        have hwidth : c.outputWidth _ _ = none := Convolution.outputLen_eq_none.mpr
          (hwindow.resolve_left fun h => by
            have hnone := Convolution.outputLen_eq_none.mpr h
            rw [Convolution.outputHeight, hnone] at hrows
            cases hrows)
        refine Or.inr ⟨rows?, rfl, ?_⟩
        rw [Outcome.bind_eq_halted, hwidth]
        exact Or.inl rfl
    | convolution hf hd hx hw hrows hcolumns ht =>
      refine ⟨hf, ?_⟩
      rw [hx, hw]
      refine Outcome.require_bind_eq_halted.mpr ⟨hd, Outcome.require_bind_eq_halted.mpr ⟨rfl, ?_⟩⟩
      rw [hrows, hcolumns]
      exact liftM_eq_halted.mpr (Shape.standard_eq_none.mpr ht)

/-- Inference halts on what is oversized and on nothing else. -/
theorem infer_eq_halted (hcount : ∀ s ∈ inputs, s.elements.isSome = true) :
    op.infer inputs = .halted ↔ Oversized op inputs := by
  constructor
  · intro h
    rcases takes_or_refused op inputs with htakes | ⟨why, hrefused⟩
    swap
    · rw [hrefused] at h
      cases h
    cases htakes with
    | literal l => cases h
    | parameter name s => cases h
    | elementary fn s =>
      obtain ⟨hf, h⟩ := Outcome.require_bind_eq_halted.mp h
      exact .elementary fn hf (Shape.asStandard_eq_none.mp (liftM_eq_halted.mp h))
    | add a b =>
      obtain ⟨hf, h⟩ := Outcome.require_bind_eq_halted.mp h
      obtain ⟨hs, ht⟩ := inferElementwise_eq_halted.mp h
      obtain ⟨hd, hl⟩ := hs b List.mem_cons_self
      exact .add hf hd hl ht
    | mul a b rest =>
      obtain ⟨hf, h⟩ := Outcome.require_bind_eq_halted.mp h
      obtain ⟨hs, ht⟩ := inferElementwise_eq_halted.mp h
      exact .mul hf hs ht
    | reshape dims s =>
      obtain ⟨count, hs⟩ := Option.isSome_iff_exists.mp (hcount s List.mem_cons_self)
      rcases Outcome.bind_eq_halted.mp h with h | ⟨lens, hr, h⟩
      · obtain ⟨found, openAt, hfound, hlarge⟩ := (resolve_eq_halted hs).mp h
        exact .dimensions hfound hlarge
      · exact .reshape hr (Shape.standard_eq_none.mp (liftM_eq_halted.mp h))
    | transpose permutation s =>
      obtain ⟨hp, h⟩ := Outcome.require_bind_eq_halted.mp h
      have hsome := Shape.permute_of_isPermutation hp
      rw [liftM_eq_halted.mp h] at hsome
      cases hsome
    | contiguous s => exact .contiguous (Shape.asStandard_eq_none.mp (liftM_eq_halted.mp h))
    | gemm factor a b => exact inferGemm_eq_halted.mp h
    | softmax axis s =>
      obtain ⟨hf, h⟩ := Outcome.require_bind_eq_halted.mp h
      obtain ⟨ha, h⟩ := Outcome.require_bind_eq_halted.mp h
      exact .softmax hf ha (Shape.asStandard_eq_none.mp (liftM_eq_halted.mp h))
    | convolution c x w => exact inferConvolution_eq_halted.mp h
    | hostToDevice s => cases h
    | deviceToHost s => cases h
  · intro h
    cases h with
    | elementary fn hf ht =>
      exact Outcome.require_bind_eq_halted.mpr
        ⟨hf, liftM_eq_halted.mpr (Shape.asStandard_eq_none.mpr ht)⟩
    | add hf hd hl ht =>
      refine Outcome.require_bind_eq_halted.mpr
        ⟨hf, inferElementwise_eq_halted.mpr ⟨fun s hs => ?_, ht⟩⟩
      cases List.mem_singleton.mp hs
      exact ⟨hd, hl⟩
    | mul hf hs ht =>
      exact Outcome.require_bind_eq_halted.mpr ⟨hf, inferElementwise_eq_halted.mpr ⟨hs, ht⟩⟩
    | @dimensions dims s found openAt hfound hlarge =>
      obtain ⟨count, hs⟩ := Option.isSome_iff_exists.mp (hcount s List.mem_cons_self)
      exact Outcome.bind_eq_halted.mpr
        (Or.inl ((resolve_eq_halted hs).mpr ⟨found, openAt, hfound, hlarge⟩))
    | reshape hr ht =>
      exact Outcome.bind_eq_halted.mpr
        (Or.inr ⟨_, hr, liftM_eq_halted.mpr (Shape.standard_eq_none.mpr ht)⟩)
    | contiguous ht => exact liftM_eq_halted.mpr (Shape.asStandard_eq_none.mpr ht)
    | gemm factor hf hd ha hb ht => exact inferGemm_eq_halted.mpr (.gemm factor hf hd ha hb ht)
    | softmax hf ha ht =>
      exact Outcome.require_bind_eq_halted.mpr ⟨hf, Outcome.require_bind_eq_halted.mpr
        ⟨ha, liftM_eq_halted.mpr (Shape.asStandard_eq_none.mpr ht)⟩⟩
    | window hf hd hx hw hwindow =>
      exact inferConvolution_eq_halted.mpr (.window hf hd hx hw hwindow)
    | convolution hf hd hx hw hrows hcolumns ht =>
      exact inferConvolution_eq_halted.mpr (.convolution hf hd hx hw hrows hcolumns ht)

/-! ## Refusals -/

def Mismatches {α : Type} (name : String) (x : Outcome α) : Prop :=
  ∀ e, x = .refused e → ∃ why, e = .shape name why

variable {α β : Type} {name : String}

theorem mismatches_value (a : α) : Mismatches name (.value a) := fun _ h => nomatch h

theorem mismatches_refused (why : ShapeFault) :
    Mismatches name (.refused (.shape name why) : Outcome α) := by
  intro e h
  cases h
  exact ⟨why, rfl⟩

theorem mismatches_ofOption (x : Option α) : Mismatches name (Outcome.ofOption x) := by
  cases x with
  | none => exact fun _ h => nomatch h
  | some a => exact mismatches_value a

theorem mismatches_require {c : Prop} [Decidable c] (why : ShapeFault) :
    Mismatches name (Outcome.require c (.shape name why)) := by
  by_cases h : c
  · rw [Outcome.require_pos h]
    exact mismatches_value ()
  · rw [Outcome.require_neg h]
    exact mismatches_refused why

theorem mismatches_bind {x : Outcome α} {f : α → Outcome β} (h : Mismatches name x)
    (hf : ∀ a, Mismatches name (f a)) : Mismatches name (x >>= f) := by
  intro e he
  cases x with
  | value a => exact hf a e he
  | refused e' =>
    cases he
    exact h e rfl
  | halted => cases he

theorem resolveFrom_mismatches (s : Shape) (all : List Int) (position : Nat)
    (openAt : Option Nat) : Mismatches "reshape" (resolveFrom s all position openAt dims) := by
  induction dims generalizing position openAt with
  | nil => exact mismatches_value _
  | cons d ds ih =>
    unfold resolveFrom
    dsimp only
    split
    · split
      · exact mismatches_bind (ih _ _) fun _ => mismatches_value _
      · exact mismatches_refused _
    · split
      · exact mismatches_bind (ih _ _) fun _ => mismatches_value _
      · split
        · exact mismatches_bind (ih _ _) fun _ => mismatches_value _
        · exact mismatches_refused _

theorem resolve_mismatches (dims : List Int) (s : Shape) :
    Mismatches "reshape" (resolve dims s) := by
  have hcheck : ∀ found : List Nat, Mismatches "reshape" (do
      let product ← Word.product found
      let count ← s.elements
      Outcome.require (product = count) (.shape "reshape" (.reshapeCount count found))
      return found : Outcome (List Nat)) := fun found =>
    mismatches_bind (mismatches_ofOption _) fun _ =>
      mismatches_bind (mismatches_ofOption _) fun _ =>
        mismatches_bind (mismatches_require _) fun _ => mismatches_value _
  unfold resolve
  refine mismatches_bind (resolveFrom_mismatches s dims 0 none) fun r => ?_
  obtain ⟨found, openAt⟩ := r
  cases openAt with
  | none => exact hcheck found
  | some position =>
    exact mismatches_bind (mismatches_ofOption _) fun known =>
      mismatches_bind (mismatches_require _) fun _ =>
      mismatches_bind (mismatches_ofOption _) fun count =>
      mismatches_bind (mismatches_require _) fun _ => hcheck _

theorem inferElementwise_mismatches (op : Operator) (a : Shape) (rest : List Shape) :
    Mismatches op.name (op.inferElementwise a rest) := by
  induction rest with
  | nil => exact mismatches_ofOption a.asStandard
  | cons s rest ih => exact mismatches_bind (mismatches_require _) fun _ => ih

theorem inferGemm_mismatches (op : Operator) (a b : Shape) :
    Mismatches op.name (op.inferGemm a b) := by
  unfold inferGemm
  refine mismatches_bind (mismatches_require _) fun _ =>
    mismatches_bind (mismatches_require _) fun _ => ?_
  split
  · exact mismatches_bind (mismatches_require _) fun _ => mismatches_ofOption _
  · exact mismatches_refused _

theorem inferConvolution_mismatches (op : Operator) (c : Convolution) (x w : Shape) :
    Mismatches op.name (op.inferConvolution c x w) := by
  unfold inferConvolution
  refine mismatches_bind (mismatches_require _) fun _ => ?_
  split
  · refine mismatches_bind (mismatches_require _) fun _ =>
      mismatches_bind (mismatches_require _) fun _ =>
      mismatches_bind (mismatches_ofOption _) fun rows? =>
      mismatches_bind (mismatches_ofOption _) fun columns? => ?_
    split
    · exact mismatches_ofOption _
    · exact mismatches_refused _
  · exact mismatches_refused _

/-- Whatever inference refuses, it refuses for a fault of shapes under the operator's name. -/
theorem infer_refused {e : Error} (h : op.infer inputs = .refused e) :
    ∃ why, e = .shape op.name why := by
  rcases takes_or_refused op inputs with htakes | ⟨why, hrefused⟩
  swap
  · rw [hrefused] at h
    cases h
    exact ⟨why, rfl⟩
  suffices hall : Mismatches op.name (op.infer inputs) from hall e h
  cases htakes with
  | literal l => exact mismatches_value _
  | parameter name s => exact mismatches_value _
  | elementary fn s =>
    exact mismatches_bind (mismatches_require _) fun _ => mismatches_ofOption _
  | add a b =>
    exact mismatches_bind (mismatches_require _) fun _ => inferElementwise_mismatches _ _ _
  | mul a b rest =>
    exact mismatches_bind (mismatches_require _) fun _ => inferElementwise_mismatches _ _ _
  | reshape dims s =>
    exact mismatches_bind (resolve_mismatches _ _) fun _ => mismatches_ofOption _
  | transpose permutation s =>
    exact mismatches_bind (mismatches_require _) fun _ => mismatches_ofOption _
  | contiguous s => exact mismatches_ofOption _
  | gemm factor a b => exact inferGemm_mismatches _ _ _
  | softmax axis s =>
    exact mismatches_bind (mismatches_require _) fun _ =>
      mismatches_bind (mismatches_require _) fun _ => mismatches_ofOption _
  | convolution c x w => exact inferConvolution_mismatches _ _ _ _
  | hostToDevice s => exact mismatches_value _
  | deviceToHost s => exact mismatches_value _

end Operator
end TensorGraph
