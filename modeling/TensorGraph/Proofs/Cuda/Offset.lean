/-
Where a thread finds the element of a strided operand.

`Expr.exactValue` works an expression out in exact arithmetic and has no answer where a step
leaves the range of words or divides by 0, so an answer is also what a kernel gets:
`yields_of_exactValue`.  `exact_axisTerms` goes along the axes and carries the number of the
element, which is some multiple of the elements behind the axes plus the position among
them.  `exists_addressing` puts the parts together: the offset that is written for a shape
leads every thread to its element, and there is always something to write.
-/
import Mathlib
import TensorGraph.Proofs.Cuda.Visits

-- Products and sums are those of the core library, whatever else is imported.
attribute [local instance (2000)] One.ofOfNat1 Zero.ofOfNat0

namespace TensorGraph
namespace Cuda

variable {ρ : Type} {m : Machine ρ} {env : Scope ρ} {i : Nat}

/-! ## Exact arithmetic -/

/-- The value of an expression of words for element `i`, if every step stays in the range of
words and no divisor is 0. -/
def Expr.exactValue (i : Nat) : Expr → Option Nat
  | .name v => if v = "i" then some i else none
  | .word n => Word.fit n
  | .paren e => e.exactValue i
  | .binary op left right => do
    let x ← left.exactValue i
    let y ← right.exactValue i
    match op with
    | .add => Word.add x y
    | .mul => Word.mul x y
    | .div => if y = 0 then none else some (x / y)
    | .mod => if y = 0 then none else some (x % y)
    | _ => none
  | _ => none

namespace Expr

variable {a b e : Expr} {x y n : Nat}

theorem exactValue_thread (i : Nat) : thread.exactValue i = some i := rfl

theorem exactValue_word (h : n ≤ Word.maxUnsigned) : (word n).exactValue i = some n :=
  Word.fit_of_le h

section

variable (ha : a.exactValue i = some x) (hb : b.exactValue i = some y)

include ha hb

theorem exactValue_binary (op : BinOp) :
    (binary op a b).exactValue i = match op with
      | .add => Word.add x y
      | .mul => Word.mul x y
      | .div => if y = 0 then none else some (x / y)
      | .mod => if y = 0 then none else some (x % y)
      | _ => none := by
  rw [exactValue, ha, hb]
  rfl

theorem exactValue_add (h : x + y ≤ Word.maxUnsigned) : (a + b).exactValue i = some (x + y) :=
  (exactValue_binary ha hb .add).trans (Word.fit_of_le h)

theorem exactValue_mul (h : x * y ≤ Word.maxUnsigned) : (a * b).exactValue i = some (x * y) :=
  (exactValue_binary ha hb .mul).trans (Word.fit_of_le h)

theorem exactValue_div (h : 0 < y) : (a / b).exactValue i = some (x / y) :=
  (exactValue_binary ha hb .div).trans (if_neg (Nat.pos_iff_ne_zero.mp h))

theorem exactValue_mod (h : 0 < y) : (a % b).exactValue i = some (x % y) :=
  (exactValue_binary ha hb .mod).trans (if_neg (Nat.pos_iff_ne_zero.mp h))

end

/-- What is worked out exactly is what a kernel works out. -/
theorem yields_of_exactValue (hi : env.value? m "i" = some (.int .unsignedLongLong i))
    (hword : i ≤ Word.maxUnsigned) (h : e.exactValue i = some n) :
    e.Yields m env .unsignedLongLong n := by
  induction e generalizing n with
  | name v =>
    rw [exactValue] at h
    split at h
    · next hv =>
      cases h
      rw [hv]
      exact yields_name hi (IntType.holds_natCast hword)
    · cases h
  | word k =>
    obtain ⟨hk, rfl⟩ := Word.fit_eq_some.mp h
    exact yields_word hk
  | paren e ih => exact (ih h).paren
  | binary op a b iha ihb =>
    obtain ⟨x, hx, h⟩ := Option.bind_eq_some_iff.mp h
    obtain ⟨y, hy, h⟩ := Option.bind_eq_some_iff.mp h
    have ha := iha hx
    have hb := ihb hy
    cases op with
    | add =>
      obtain ⟨hle, rfl⟩ := Word.fit_eq_some.mp h
      exact ha.add hb rfl hle
    | mul =>
      obtain ⟨hle, rfl⟩ := Word.fit_eq_some.mp h
      exact ha.mul hb rfl hle
    | div =>
      obtain ⟨hy0, h⟩ := Option.ite_none_left_eq_some.mp h
      cases h
      exact ha.div hb rfl (Nat.pos_iff_ne_zero.mpr hy0)
    | mod =>
      obtain ⟨hy0, h⟩ := Option.ite_none_left_eq_some.mp h
      cases h
      exact ha.mod hb rfl (Nat.pos_iff_ne_zero.mpr hy0)
    | _ => cases h
  | _ => cases h

end Expr

/-! ## The terms of the axes -/

theorem exact_axisTerm {inner : Nat} {a : Axis} (hinner : 0 < inner)
    (hfit : inner ≤ Word.maxUnsigned) (hextent : 0 < a.extent)
    (hextentfit : a.extent ≤ Word.maxUnsigned) (hstride : a.stride ≤ Word.maxUnsigned)
    (hterm : i / inner % a.extent * a.stride ≤ Word.maxUnsigned) :
    (axisTerm inner a).exactValue i = some (i / inner % a.extent * a.stride) := by
  have hquotient := Expr.exactValue_div (Expr.exactValue_thread i) (Expr.exactValue_word hfit) hinner
  have hcoordinate := Expr.exactValue_mod (a := .paren (thread / .word inner)) hquotient
    (Expr.exactValue_word hextentfit) hextent
  exact Expr.exactValue_mul (a := .paren (.paren (thread / .word inner) % .word a.extent)) hcoordinate
    (Expr.exactValue_word hstride) hterm

/-- The term of an axis whose coordinate stands in the number of the element, between what the axes
before it and those behind it add. -/
theorem exact_axisTerm_of_lt {a : Axis} {inner c r : Nat} (q : Nat) (hc : c < a.extent)
    (hr : r < inner) (hfit : a.extent * inner ≤ Word.maxUnsigned)
    (hstride : a.stride ≤ Word.maxUnsigned) (hreach : a.reach ≤ Word.maxUnsigned) :
    (axisTerm inner a).exactValue ((q * a.extent + c) * inner + r) = some (c * a.stride) := by
  have hcoordinate : ((q * a.extent + c) * inner + r) / inner % a.extent = c := by
    rw [mul_add_div _ hr, mul_add_mod _ hc]
  have hinner : 0 < inner := Nat.zero_lt_of_lt hr
  have hextent : 0 < a.extent := Nat.zero_lt_of_lt hc
  have hterm : c * a.stride ≤ a.reach := Nat.mul_le_mul_right _ (Nat.le_pred_of_lt hc)
  have hexact := exact_axisTerm (i := (q * a.extent + c) * inner + r) (a := a) hinner
    ((Nat.le_mul_of_pos_left _ hextent).trans hfit) hextent
    ((Nat.le_mul_of_pos_right _ hinner).trans hfit)
  rw [hcoordinate] at hexact
  exact hexact hstride (hterm.trans hreach)

theorem axisTerms_cons_of_extent_ne_one {a : Axis} (h : a.extent ≠ 1) (rest : List Axis) :
    axisTerms (a :: rest) = (Word.product (rest.map Axis.extent)).bind fun inner =>
      (axisTerms rest).bind fun ts => some (axisTerm inner a :: ts) := if_neg h

theorem exists_axisTerms {axes : List Axis} (hpos : ∀ n ∈ axes.map Axis.extent, 0 < n)
    (hfit : (axes.map Axis.extent).prod ≤ Word.maxUnsigned) :
    ∃ ts, axisTerms axes = some ts := by
  induction axes with
  | nil => exact ⟨[], rfl⟩
  | cons a rest ih =>
    rw [List.map_cons] at hpos hfit
    rw [List.prod_cons] at hfit
    have hrest : ∀ n ∈ rest.map Axis.extent, 0 < n :=
      fun n hn => hpos n (List.mem_cons_of_mem _ hn)
    have hinner : (rest.map Axis.extent).prod ≤ Word.maxUnsigned :=
      (Nat.le_mul_of_pos_left _ (hpos _ List.mem_cons_self)).trans hfit
    obtain ⟨ts, hts⟩ := ih hrest hinner
    by_cases ha : a.extent = 1
    · exact ⟨ts, (axisTerms_cons_of_extent_eq_one ha rest).trans hts⟩
    · refine ⟨axisTerm (rest.map Axis.extent).prod a :: ts, ?_⟩
      rw [axisTerms_cons_of_extent_ne_one ha, Word.product_of_pos hrest hinner, hts]
      rfl

/-- There is a term for every axis with more than one position. -/
theorem axisTerms_ne_nil {axes : List Axis} {ts : List Expr} (h : axisTerms axes = some ts)
    {a : Axis} (ha : a ∈ axes) (hextent : a.extent ≠ 1) : ts ≠ [] := by
  induction axes generalizing ts with
  | nil => cases ha
  | cons b rest ih =>
    by_cases hb : b.extent = 1
    · rw [axisTerms_cons_of_extent_eq_one hb] at h
      rcases List.mem_cons.mp ha with rfl | ha
      · exact absurd hb hextent
      · exact ih h ha
    · rw [axisTerms_cons_of_extent_ne_one hb] at h
      obtain ⟨inner, -, h⟩ := Option.bind_eq_some_iff.mp h
      obtain ⟨rs, -, h⟩ := Option.bind_eq_some_iff.mp h
      cases h
      exact List.cons_ne_nil _ _

theorem isGrouped_of_mem_axisTerms {axes : List Axis} {ts : List Expr}
    (h : axisTerms axes = some ts) : ∀ t ∈ ts, t.isGrouped = true ∧ t.strength = 4 := by
  induction axes generalizing ts with
  | nil =>
    cases h
    exact fun _ ht => nomatch ht
  | cons a rest ih =>
    by_cases ha : a.extent = 1
    · exact ih ((axisTerms_cons_of_extent_eq_one ha rest).symm.trans h)
    · rw [axisTerms_cons_of_extent_ne_one ha] at h
      obtain ⟨inner, -, h⟩ := Option.bind_eq_some_iff.mp h
      obtain ⟨rs, hrs, h⟩ := Option.bind_eq_some_iff.mp h
      cases h
      exact List.forall_mem_cons.mpr ⟨⟨rfl, rfl⟩, ih hrs⟩

/-- The terms are worked out to numbers whose sum is the offset of the index.  The axes before
these add a multiple of their number of elements to the number of the element. -/
theorem exact_axisTerms {axes : List Axis} {ts : List Expr} (h : axisTerms axes = some ts)
    (hpos : ∀ n ∈ axes.map Axis.extent, 0 < n)
    (hfit : (axes.map Axis.extent).prod ≤ Word.maxUnsigned)
    (hreach : (axes.map Axis.reach).sum ≤ Word.maxUnsigned) {idx : List Nat}
    (hi : Index.Within idx (axes.map Axis.extent)) (q : Nat) :
    ∃ ns, List.Forall₂ (fun t n => t.exactValue (q * (axes.map Axis.extent).prod +
        Index.position idx (axes.map Axis.extent)) = some n) ts ns ∧
      ns.sum = Index.offset idx axes := by
  induction axes generalizing ts idx q with
  | nil =>
    cases h
    cases idx with
    | nil => exact ⟨[], .nil, rfl⟩
    | cons => exact hi.elim
  | cons a rest ih =>
    cases idx with
    | nil => exact hi.elim
    | cons c is =>
      rw [List.map_cons] at hpos hfit hreach hi ⊢
      rw [List.prod_cons] at hfit ⊢
      rw [List.sum_cons] at hreach
      obtain ⟨hc, his⟩ := hi
      have ha : 0 < a.extent := hpos _ List.mem_cons_self
      have hrest : ∀ n ∈ rest.map Axis.extent, 0 < n :=
        fun n hn => hpos n (List.mem_cons_of_mem _ hn)
      have hinner : (rest.map Axis.extent).prod ≤ Word.maxUnsigned :=
        (Nat.le_mul_of_pos_left _ ha).trans hfit
      have hlt := Index.position_lt his
      have hnumber : q * (a.extent * (rest.map Axis.extent).prod) +
          Index.position (c :: is) (a.extent :: rest.map Axis.extent) =
          (q * a.extent + c) * (rest.map Axis.extent).prod +
            Index.position is (rest.map Axis.extent) := by
        rw [Index.position_cons, ← Nat.mul_assoc, Nat.add_mul, Nat.add_assoc]
      rw [hnumber, Index.offset_cons]
      by_cases hone : a.extent = 1
      · obtain ⟨ns, hns, hsum⟩ := ih ((axisTerms_cons_of_extent_eq_one hone rest).symm.trans h)
          hrest hinner (by omega) his (q * a.extent + c)
        have hc0 : c = 0 := by omega
        refine ⟨ns, hns, ?_⟩
        rw [hsum, hc0, Nat.zero_mul, Nat.zero_add]
      · rw [axisTerms_cons_of_extent_ne_one hone, Word.product_of_pos hrest hinner,
          Option.bind_some] at h
        obtain ⟨rs, hrs, h⟩ := Option.bind_eq_some_iff.mp h
        cases h
        obtain ⟨ns, hns, hsum⟩ := ih hrs hrest hinner (by omega) his (q * a.extent + c)
        have hstride : a.stride ≤ a.reach := Nat.le_mul_of_pos_left _ (by omega)
        have hfirst := exact_axisTerm_of_lt q hc hlt hfit (by omega) (by omega)
        refine ⟨c * a.stride :: ns, .cons hfirst hns, ?_⟩
        rw [List.sum_cons, hsum]

/-! ## Sums -/

/-- A sum is worked out term by term. -/
theorem exact_foldl_add {ts : List Expr} {ns : List Nat}
    (h : List.Forall₂ (fun t n => t.exactValue i = some n) ts ns) {e : Expr} {n : Nat}
    (he : e.exactValue i = some n) (hfit : n + ns.sum ≤ Word.maxUnsigned) :
    (ts.foldl (· + ·) e).exactValue i = some (n + ns.sum) := by
  induction h generalizing e n with
  | nil => exact he
  | @cons t k ts ns ht _ ih =>
    rw [List.sum_cons, ← Nat.add_assoc] at hfit ⊢
    exact ih (Expr.exactValue_add he ht (by omega)) hfit

theorem exact_sum {t : Expr} {ts : List Expr} {ns : List Nat}
    (h : List.Forall₂ (fun t n => t.exactValue i = some n) (t :: ts) ns)
    (hfit : ns.sum ≤ Word.maxUnsigned) : (sum (t :: ts)).exactValue i = some ns.sum := by
  cases h with
  | cons ht hts =>
    rw [List.sum_cons] at hfit ⊢
    exact exact_foldl_add hts ht hfit

/-- A sum of products is read from the left. -/
theorem isGrouped_foldl_add {ts : List Expr} (h : ∀ t ∈ ts, t.isGrouped = true ∧ t.strength = 4)
    {e : Expr} (he : e.isGrouped = true) (hstrength : 3 ≤ e.strength) :
    (ts.foldl (· + ·) e).isGrouped = true := by
  induction ts generalizing e with
  | nil => exact he
  | cons t ts ih =>
    obtain ⟨ht, hts⟩ := h t List.mem_cons_self
    have hadd : (e + t).isGrouped = true := by
      show (decide (3 ≤ e.strength) && decide (3 < t.strength) && e.isGrouped && t.isGrouped) = true
      rw [hts, he, ht, decide_eq_true hstrength]
      rfl
    exact ih (fun t ht => h t (List.mem_cons_of_mem _ ht)) hadd (Nat.le_refl 3)

theorem sum_cons_ne_int (t : Expr) (ts : List Expr) (n : Int) (ht : t ≠ .int n) :
    sum (t :: ts) ≠ .int n := by
  show ts.foldl (· + ·) t ≠ .int n
  induction ts generalizing t with
  | nil => exact ht
  | cons u ts ih => exact ih (t + u) (by intro h; cases h)

/-! ## Offsets -/

/-- A shape is row-major if all its axes have one position. -/
theorem isStandard_of_extents_eq_one {s : Shape} (h : ∀ a ∈ s.axes, a.extent = 1)
    {axes : List Axis} (haxes : Axis.rowMajor s.lens = some axes) : s.isStandard = some true :=
  Shape.isStandard_eq_some_true.mpr
    ⟨axes, haxes, fun _ hab => Or.inl (h _ (List.of_mem_zip hab).1)⟩

/-- The expression leads every thread to its element of an operand.  Its text is read as it is
meant; it is the number of the thread, or a sum with a term at least, so something is always
written; and for element `i` it is worked out, without leaving the range of words or dividing
by 0, to the offset of the index that is `i`-th in row-major order. -/
structure Addressing (s : Shape) (e : Expr) : Prop where
  grouped : e.isGrouped = true
  written : e = thread ∨ ∃ t ts, axisTerms s.axes = some (t :: ts) ∧ e = sum (t :: ts)
  ne_sum_nil : e ≠ sum []
  exact : ∀ i < s.lens.prod, ∃ idx, (Index.indices s.lens)[i]? = some idx ∧
    e.exactValue i = some (Index.offset idx s.axes)

/-- Every number below the count is the position of the index that is listed there. -/
theorem exists_index {lens : List Nat} (h : i < lens.prod) :
    ∃ idx, (Index.indices lens)[i]? = some idx ∧ Index.Within idx lens ∧
      Index.position idx lens = i := by
  have hlt : i < (Index.indices lens).length := by
    rw [Index.length_indices]
    exact h
  exact ⟨_, List.getElem?_eq_getElem hlt, Index.mem_indices.mp (List.getElem_mem hlt),
    Index.position_getElem_indices hlt⟩

theorem addressing_thread {s : Shape} (h : s.isStandard = some true) : Addressing s thread where
  grouped := rfl
  written := Or.inl rfl
  ne_sum_nil := fun h => nomatch h
  exact := fun i hlt => by
    obtain ⟨idx, hidx, hwithin, hposition⟩ := exists_index hlt
    refine ⟨idx, hidx, ?_⟩
    rw [Expr.exactValue_thread, Shape.offset_of_isStandard h hwithin, hposition]

theorem addressing_sum {s : Shape} (hpopulated : s.Populated)
    (hcount : s.lens.prod ≤ Word.maxUnsigned) (hspace : s.space ≤ Word.maxUnsigned) {t : Expr}
    {ts : List Expr} (h : axisTerms s.axes = some (t :: ts)) : Addressing s (sum (t :: ts)) := by
  have hgrouped := isGrouped_of_mem_axisTerms h
  obtain ⟨ht, hstrength⟩ := hgrouped t List.mem_cons_self
  have hreach : (s.axes.map Axis.reach).sum ≤ Word.maxUnsigned := (Nat.le_succ _).trans hspace
  refine ⟨isGrouped_foldl_add (fun t ht => hgrouped t (List.mem_cons_of_mem _ ht)) ht (by omega),
    Or.inr ⟨t, ts, h, rfl⟩, sum_cons_ne_int t ts 0 ?_, fun i hlt => ?_⟩
  · rintro rfl
    cases hstrength
  · obtain ⟨idx, hidx, hwithin, hposition⟩ := exists_index hlt
    obtain ⟨ns, hns, hsum⟩ := exact_axisTerms h hpopulated hcount hreach hwithin 0
    have hnumber : 0 * (s.axes.map Axis.extent).prod +
        Index.position idx (s.axes.map Axis.extent) = i := by
      rw [Nat.zero_mul, Nat.zero_add]
      exact hposition
    rw [hnumber] at hns
    refine ⟨idx, hidx, ?_⟩
    rw [← hsum]
    refine exact_sum hns ?_
    rw [hsum]
    exact (Index.offset_le_reach hwithin).trans hreach

/-- The offset of a shape without extent 0 whose sizes are words leads to its elements. -/
theorem exists_addressing {s : Shape} (hpopulated : s.Populated)
    (hcount : s.lens.prod ≤ Word.maxUnsigned) (hspace : s.space ≤ Word.maxUnsigned) :
    ∃ e, offset s = some e ∧ Addressing s e := by
  obtain ⟨axes, haxes⟩ : ∃ axes, Axis.rowMajorWithCount s.lens = some (axes, s.lens.prod) :=
    Axis.rowMajorWithCount_of_filter_le (by rw [hpopulated.filter_lens]; exact hcount)
  have hrow : Axis.rowMajor s.lens = some axes := Axis.rowMajor_eq_some.mpr ⟨_, haxes⟩
  obtain ⟨ts, hts⟩ : ∃ ts, axisTerms s.axes = some ts := exists_axisTerms hpopulated hcount
  cases hstandard : s.isStandard with
  | none =>
    rw [Shape.isStandard_eq_none, hrow] at hstandard
    cases hstandard
  | some standard =>
    cases standard with
    | true =>
      refine ⟨thread, ?_, addressing_thread hstandard⟩
      unfold offset
      rw [hstandard]
      rfl
    | false =>
      have hoffset : offset s = some (sum ts) := by
        unfold offset
        rw [hstandard, hts]
        rfl
      obtain ⟨a, ha, hextent⟩ : ∃ a ∈ s.axes, a.extent ≠ 1 := by
        by_contra hall
        push Not at hall
        rw [isStandard_of_extents_eq_one hall hrow] at hstandard
        cases hstandard
      obtain ⟨t, rest, rfl⟩ := List.exists_cons_of_ne_nil (axisTerms_ne_nil hts ha hextent)
      exact ⟨_, hoffset, addressing_sum hpopulated hcount hspace hts⟩

end Cuda
end TensorGraph
