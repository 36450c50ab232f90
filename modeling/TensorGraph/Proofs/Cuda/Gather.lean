/-
Kernels that take one element from each operand.

Such an operator is one formula, `Operator.combined`, that can be read with expressions, with
the elements of tensors, with floating values or with the loads that lead to them.
`combined_rel` says that readings which agree on the operands and on every operation agree on
the result, so the text of a kernel, the reference kernel and the thread that runs the text
are compared without looking at the formula again.

The main statement is `offset_and_source_gather`: offsets are exact, and the thread of an
element loads the elements that the reference kernel combines there.
-/
import Mathlib
import TensorGraph.Proofs.Cuda.Offset
import TensorGraph.Proofs.Kernel.Defined
import TensorGraph.Proofs.Kernel.Layout
import TensorGraph.Proofs.Oversized
import TensorGraph.Proofs.Shape.Standard

-- Products are those of the core library, whatever else is imported.
attribute [local instance (2000)] One.ofOfNat1

namespace TensorGraph

open Kernel (Visit)

theorem Outcome.return_eq_value {α β : Type} {x : Option α} {f : α → β} {b : β} :
    (do return f (← x) : Outcome β) = .value b ↔ ∃ a, x = some a ∧ b = f a := by
  cases x with
  | none => exact ⟨fun h => (nomatch h), fun ⟨_, h, _⟩ => (nomatch h)⟩
  | some a =>
    constructor
    · intro h
      cases h
      exact ⟨a, rfl, rfl⟩
    · rintro ⟨_, ⟨⟩, rfl⟩
      rfl

/-! ## One element from each operand -/

namespace Operator

variable {α β : Type}

/-- Whether an element of the output is made of one element of each operand. -/
def isPointwise : Operator → Bool
  | elementary _ | add | mul | contiguous => true
  | _ => false

/-- What an operator makes of one element from each operand, for any way to apply a function,
to add and to multiply. -/
def combined (apply : Elementary → α → α) (plus times : α → α → α) :
    Operator → List α → Option α
  | elementary fn, [x] => some (apply fn x)
  | add, [x, y] => some (plus x y)
  | mul, x :: xs => some (xs.foldl times x)
  | contiguous, [x] => some x
  | _, _ => none

variable {op : Operator} {apply : Elementary → α → α} {plus times : α → α → α}

section

variable (apply' : Elementary → β → β) (plus' times' : β → β → β)

/-- Readings that agree on the operands and on every operation agree on the result. -/
theorem combined_rel {R : α → β → Prop}
    (happly : ∀ fn {a b}, R a b → R (apply fn a) (apply' fn b))
    (hplus : ∀ {a b c d}, R a b → R c d → R (plus a c) (plus' b d))
    (htimes : ∀ {a b c d}, R a b → R c d → R (times a c) (times' b d))
    {as : List α} {bs : List β} (h : List.Forall₂ R as bs) {a : α}
    (ha : op.combined apply plus times as = some a) :
    ∃ b, op.combined apply' plus' times' bs = some b ∧ R a b := by
  unfold combined at ha
  split at ha
  · next fn a =>
    obtain _ | ⟨hx, _ | _⟩ := h
    cases ha
    exact ⟨_, rfl, happly fn hx⟩
  · next a c =>
    obtain _ | ⟨hx, _ | ⟨hy, _ | _⟩⟩ := h
    cases ha
    exact ⟨_, rfl, hplus hx hy⟩
  · next a as =>
    obtain _ | ⟨hx, hxs⟩ := h
    cases ha
    exact ⟨_, rfl, List.rel_foldl (P := R) (R := R) (fun _ _ hab _ _ hcd => htimes hab hcd) hx hxs⟩
  · next a =>
    obtain _ | ⟨hx, _ | _⟩ := h
    cases ha
    exact ⟨_, rfl, hx⟩
  · cases ha

/-- The same for a function that carries one reading over to the other. -/
theorem combined_map (f : α → β) (happly : ∀ fn a, f (apply fn a) = apply' fn (f a))
    (hplus : ∀ a b, f (plus a b) = plus' (f a) (f b))
    (htimes : ∀ a b, f (times a b) = times' (f a) (f b)) {as : List α} {a : α}
    (ha : op.combined apply plus times as = some a) :
    op.combined apply' plus' times' (as.map f) = some (f a) := by
  have hrel : List.Forall₂ (fun a b => f a = b) as (as.map f) :=
    List.forall₂_map_right_iff.mpr (List.forall₂_same.mpr fun _ _ => rfl)
  obtain ⟨b, hb, rfl⟩ := combined_rel apply' plus' times' (R := fun a b => f a = b)
    (fun fn {a b} h => h ▸ happly fn a) (fun {a b c d} h h' => h ▸ h' ▸ hplus a c)
    (fun {a b c d} h h' => h ▸ h' ▸ htimes a c) hrel ha
  exact hb

end

/-- Read with lists, the result is everything in the lists, in order. -/
theorem eq_flatten_of_combined {ls : List (List α)} {l : List α}
    (h : op.combined (fun _ l => l) (· ++ ·) (· ++ ·) ls = some l) : l = ls.flatten := by
  unfold combined at h
  split at h
  · next fn x =>
    cases h
    exact List.flatten_singleton.symm
  · next x y =>
    cases h
    simp
  · next x xs =>
    cases h
    rw [List.flatten_cons]
    induction xs generalizing x with
    | nil => exact (List.append_nil x).symm
    | cons y ys ih =>
      rw [List.foldl_cons, ih, List.flatten_cons, List.append_assoc]
  · next x =>
    cases h
    exact List.flatten_singleton.symm
  · cases h

variable {inputs : List Shape} {output : Shape}

theorem Infers.exists_combined (h : Infers op inputs output) (hop : op.isPointwise = true)
    (apply : Elementary → α → α) (plus times : α → α → α) {as : List α}
    (hlen : as.length = inputs.length) : ∃ a, op.combined apply plus times as = some a := by
  cases h with
  | elementary fn =>
    obtain ⟨x, rfl⟩ := List.length_eq_one_iff.mp hlen
    exact ⟨_, rfl⟩
  | add =>
    obtain ⟨x, y, rfl⟩ := List.length_eq_two.mp hlen
    exact ⟨_, rfl⟩
  | mul =>
    cases as with
    | nil => cases hlen
    | cons x xs => exact ⟨_, rfl⟩
  | contiguous =>
    obtain ⟨x, rfl⟩ := List.length_eq_one_iff.mp hlen
    exact ⟨_, rfl⟩
  | _ => cases hop

theorem Infers.exists_asStandard (h : Infers op inputs output) (hop : op.isPointwise = true) :
    ∃ a ∈ inputs, a.asStandard = some output := by
  cases h with
  | elementary fn hf ht | add hf hd hl ht | mul hf hs ht | contiguous ht =>
    exact ⟨_, List.mem_cons_self, ht⟩
  | _ => cases hop

theorem Infers.lens_eq_of_isPointwise (h : Infers op inputs output) (hop : op.isPointwise = true) :
    ∀ s ∈ inputs, s.lens = output.lens := by
  cases h with
  | elementary fn hf ht | contiguous ht =>
    intro s hs
    rw [List.mem_singleton.mp hs, (Shape.asStandard_eq_some ht).1]
  | add hf hd hl ht =>
    rw [(Shape.asStandard_eq_some ht).1, List.forall_mem_cons]
    refine ⟨rfl, fun s hs => ?_⟩
    rw [List.mem_singleton.mp hs, hl]
  | mul hf hs ht =>
    rw [(Shape.asStandard_eq_some ht).1, List.forall_mem_cons]
    exact ⟨rfl, fun s hm => (hs s hm).2⟩
  | _ => cases hop

end Operator

/-! ## The reference kernel -/

/-- What the reference kernel makes of one element from each operand. -/
def Arithmetic.combined (num : Arithmetic) (op : Operator) (xs : List Nat) : Option Nat :=
  op.combined num.apply num.add num.mul xs

/-- The reference kernel combines the elements at every index, if memory holds the results. -/
theorem Kernel.exists_run_of_isPointwise {op : Operator} {inputs : List Shape} {output : Shape}
    {views : List View} (num : Arithmetic) (h : Operator.Infers op inputs output)
    (hop : op.isPointwise = true) (hv : View.Shaped inputs views) :
    ∃ v : View, (run num op output.lens views).Ends
        (View.isListable num.size output.lens = true) (· = v.toTensor) ∧ v.lens = output.lens ∧
      ∀ idx, num.combined op (views.map (·.read idx)) = some (v.read idx) := by
  have hlens := View.lens_of_shaped hv (h.lens_eq_of_isPointwise hop)
  cases h with
  | elementary fn =>
    obtain _ | @⟨_, x, _, _, hx, _ | _⟩ := hv
    have hx := hlens x List.mem_cons_self
    exact ⟨x.map (num.apply fn), (held_gives fun hlist => hx ▸ hlist).return_ends rfl, hx,
      fun idx => rfl⟩
  | add =>
    obtain _ | @⟨_, x, _, _, hx, _ | @⟨_, y, _, _, hy, _ | _⟩⟩ := hv
    have hx := hlens x List.mem_cons_self
    have hy := hlens y (List.mem_cons_of_mem _ List.mem_cons_self)
    refine ⟨x.combine num.add y, ?_, hx, fun idx => rfl⟩
    unfold run
    dsimp only
    rw [View.zipWith_of_lens_eq num.add (hx.trans hy.symm)]
    exact (held_gives fun hlist => hx ▸ hlist).return_ends rfl
  | mul =>
    obtain _ | @⟨_, x, _, ys, hx, hys⟩ := hv
    have hx := hlens x List.mem_cons_self
    refine ⟨ys.foldl (View.combine num.mul) x, ?_, ?_, fun idx => ?_⟩
    · unfold run
      dsimp only
      have hsame : ∀ v ∈ ys, v.lens = x.lens := fun v hv =>
        (hlens v (List.mem_cons_of_mem _ hv)).trans hx.symm
      have hlist : View.isListable num.size output.lens = true →
          View.isListable num.size x.lens = true := fun hlist => hx ▸ hlist
      exact (product_gives num hsame hlist).return_ends rfl
    · rw [View.lens_foldl_combine, hx]
    · rw [View.read_foldl_combine, ← List.foldl_map]
      rfl
  | contiguous =>
    obtain _ | @⟨_, x, _, _, hx, _ | _⟩ := hv
    have hx := hlens x List.mem_cons_self
    exact ⟨x, (held_gives fun hlist => hx ▸ hlist).return_ends rfl, hx, fun idx => rfl⟩
  | _ => cases hop

namespace Cuda

open Stmt

variable {ρ : Type} {m : Machine ρ} {env : Scope ρ} {g : Grid}
variable {op : Operator} {inputs : List Shape} {output : Shape}

/-! ## The text -/

def combinedText (op : Operator) (es : List Expr) : Option Expr :=
  op.combined (fun fn e => .call fn.name e) (· + ·) (· * ·) es

theorem loadInput_eq_some {k : Nat} {e : Expr} :
    loadInput inputs k = some e ↔
      ∃ s o, inputs[k]? = some s ∧ offset s = some o ∧ e = .load (Source.input k) o := by
  unfold loadInput
  constructor
  · intro h
    obtain ⟨s, hs, h⟩ := Option.bind_eq_some_iff.mp h
    obtain ⟨o, ho, h⟩ := Option.bind_eq_some_iff.mp h
    cases h
    exact ⟨s, o, hs, ho, rfl⟩
  · rintro ⟨s, o, hs, ho, rfl⟩
    rw [hs]
    show (offset s).bind _ = _
    rw [ho]
    rfl

theorem loadInputs_eq_some {es : List Expr} :
    loadInputs inputs = some es ↔
      List.Forall₂ (fun k e => loadInput inputs k = some e) (List.range inputs.length) es :=
  mapM_eq_some

theorem exists_loadInputs (h : ∀ s ∈ inputs, ∃ o, offset s = some o) :
    ∃ es, loadInputs inputs = some es := by
  have hall : ∀ k ∈ List.range inputs.length, ∃ e, loadInput inputs k = some e := by
    intro k hk
    have hlt : k < inputs.length := List.mem_range.mp hk
    obtain ⟨o, ho⟩ := h inputs[k] (List.getElem_mem hlt)
    exact ⟨_, loadInput_eq_some.mpr ⟨_, o, List.getElem?_eq_getElem hlt, ho, rfl⟩⟩
  have hsome : ((List.range inputs.length).mapM (loadInput inputs)).isSome = true :=
    isSome_mapM_iff.mpr fun k hk => Option.isSome_iff_exists.mpr (hall k hk)
  exact Option.isSome_iff_exists.mp hsome

theorem loadInputs_one {s : Shape} {es : List Expr} :
    loadInputs [s] = some es ↔ ∃ e, loadInput [s] 0 = some e ∧ es = [e] := by
  rw [loadInputs_eq_some]
  show List.Forall₂ _ [0] es ↔ _
  rw [List.forall₂_cons_left_iff]
  simp only [List.forall₂_nil_left_iff]
  exact ⟨fun ⟨e, _, he, rfl, h⟩ => ⟨e, he, h⟩, fun ⟨e, he, h⟩ => ⟨e, [], he, rfl, h⟩⟩

theorem loadInputs_two {s t : Shape} {es : List Expr} :
    loadInputs [s, t] = some es ↔
      ∃ d e, loadInput [s, t] 0 = some d ∧ loadInput [s, t] 1 = some e ∧ es = [d, e] := by
  rw [loadInputs_eq_some]
  show List.Forall₂ _ [0, 1] es ↔ _
  simp only [List.forall₂_cons_left_iff, List.forall₂_nil_left_iff]
  constructor
  · rintro ⟨d, _, hd, ⟨e, _, he, rfl, rfl⟩, rfl⟩
    exact ⟨d, e, hd, he, rfl⟩
  · rintro ⟨d, e, hd, he, rfl⟩
    exact ⟨d, _, hd, ⟨e, _, he, rfl, rfl⟩, rfl⟩

theorem body_eq_value (h : Operator.Infers op inputs output) (hop : op.isPointwise = true)
    {statements : Stmt} :
    body op output inputs = .value statements ↔ ∃ es e, loadInputs inputs = some es ∧
      combinedText op es = some e ∧ statements = .assign result e := by
  cases h with
  | @elementary fn s =>
    refine (Outcome.return_eq_value (x := loadInput [s] 0)).trans ?_
    simp only [loadInputs_one]
    constructor
    · rintro ⟨e, he, rfl⟩
      exact ⟨[e], _, ⟨e, he, rfl⟩, rfl, rfl⟩
    · rintro ⟨_, _, ⟨e, he, rfl⟩, h, rfl⟩
      cases h
      exact ⟨e, he, rfl⟩
  | @contiguous s =>
    refine (Outcome.return_eq_value (x := loadInput [s] 0)).trans ?_
    simp only [loadInputs_one]
    constructor
    · rintro ⟨e, he, rfl⟩
      exact ⟨[e], _, ⟨e, he, rfl⟩, rfl, rfl⟩
    · rintro ⟨_, _, ⟨e, he, rfl⟩, h, rfl⟩
      cases h
      exact ⟨_, he, rfl⟩
  | @add a b =>
    refine Outcome.bind_eq_value.trans ?_
    simp only [loadInputs_two]
    constructor
    · rintro ⟨d, hd, h⟩
      obtain ⟨e, he, rfl⟩ := Outcome.return_eq_value.mp h
      exact ⟨[d, e], _, ⟨d, e, Outcome.ofOption_eq_value.mp hd, he, rfl⟩, rfl, rfl⟩
    · rintro ⟨_, _, ⟨d, e, hd, he, rfl⟩, h, rfl⟩
      cases h
      exact ⟨d, Outcome.ofOption_eq_value.mpr hd, Outcome.return_eq_value.mpr ⟨e, he, rfl⟩⟩
  | @mul a b rest =>
    refine (Outcome.return_eq_value (x := loadInputs (a :: b :: rest))).trans ?_
    constructor
    · rintro ⟨es, hes, rfl⟩
      cases es with
      | nil => exact absurd (loadInputs_eq_some.mp hes).length_eq (by simp)
      | cons e es => exact ⟨_, _, hes, rfl, rfl⟩
    · rintro ⟨es, e, hes, he, rfl⟩
      cases es with
      | nil => cases he
      | cons d es =>
        cases he
        exact ⟨_, hes, rfl⟩
  | _ => cases hop

/-- A product of loads is read from the left. -/
theorem isGrouped_foldl_mul {es : List Expr} (h : ∀ e ∈ es, e.isGrouped = true ∧ e.strength = 6)
    {d : Expr} (hd : d.isGrouped = true) (hstrength : 4 ≤ d.strength) :
    (es.foldl (· * ·) d).isGrouped = true := by
  induction es generalizing d with
  | nil => exact hd
  | cons e es ih =>
    obtain ⟨he, hes⟩ := h e List.mem_cons_self
    have hmul : (d * e).isGrouped = true := by
      show (decide (4 ≤ d.strength) && decide (4 < e.strength) && d.isGrouped && e.isGrouped) = true
      rw [hes, hd, he, decide_eq_true hstrength]
      rfl
    exact ih (fun e he => h e (List.mem_cons_of_mem _ he)) hmul (Nat.le_refl 4)

/-- What is made of loads is read as it is meant. -/
theorem isGrouped_combinedText {es : List Expr}
    (h : ∀ e ∈ es, e.isGrouped = true ∧ e.strength = 6) {e : Expr}
    (he : combinedText op es = some e) : e.isGrouped = true := by
  unfold combinedText Operator.combined at he
  split at he
  · next fn x =>
    cases he
    exact (h x List.mem_cons_self).1
  · next x y =>
    cases he
    obtain ⟨hx, hxs⟩ := h x List.mem_cons_self
    obtain ⟨hy, hys⟩ := h y (List.mem_cons_of_mem _ List.mem_cons_self)
    show (decide (3 ≤ x.strength) && decide (3 < y.strength) && x.isGrouped && y.isGrouped) = true
    rw [hx, hxs, hy, hys]
    rfl
  · next x xs =>
    cases he
    obtain ⟨hx, hxs⟩ := h x List.mem_cons_self
    exact isGrouped_foldl_mul (fun e he => h e (List.mem_cons_of_mem _ he)) hx (by omega)
  · next x =>
    cases he
    exact (h e List.mem_cons_self).1
  · cases he

theorem isGrouped_of_offset {s : Shape} {o : Expr} (h : offset s = some o) :
    o.isGrouped = true := by
  unfold offset at h
  obtain ⟨standard, -, h⟩ := Option.bind_eq_some_iff.mp h
  cases standard with
  | true =>
    cases h
    rfl
  | false =>
    obtain ⟨ts, hts, h⟩ := Option.bind_eq_some_iff.mp h
    cases h
    have hgrouped := isGrouped_of_mem_axisTerms hts
    cases ts with
    | nil => rfl
    | cons t ts =>
      obtain ⟨ht, hstrength⟩ := hgrouped t List.mem_cons_self
      exact isGrouped_foldl_add (fun t ht => hgrouped t (List.mem_cons_of_mem _ ht)) ht (by omega)

theorem isGrouped_of_mem_loadInputs {es : List Expr} (h : loadInputs inputs = some es) :
    ∀ e ∈ es, e.isGrouped = true ∧ e.strength = 6 := by
  intro e he
  obtain ⟨n, hn, rfl⟩ := List.mem_iff_getElem.mp he
  have hall := loadInputs_eq_some.mp h
  have hload := hall.get (hall.length_eq ▸ hn) hn
  obtain ⟨s, o, -, ho, heq⟩ := loadInput_eq_some.mp hload
  have hget : es[n] = .load (Source.input _) o := heq
  have hgrouped : o.isGrouped = true := isGrouped_of_offset ho
  rw [hget]
  exact ⟨hgrouped, rfl⟩

/-! ## The thread -/

def Floating.combined (f : Floating ρ) (op : Operator) (xs : List ρ) : Option ρ :=
  op.combined (fun fn x => f.call fn.name x) (f.arithmetic .add) (f.arithmetic .mul) xs

theorem eval_call {function : String} {e : Expr} {x : ρ} {l : List (Access ρ)}
    (h : e.eval m env = .done (.real x) l) :
    (Expr.call function e).eval m env = .done (.real (m.floating.call function x)) l := by
  rw [← List.append_nil l]
  exact Traced.bind_eq_done h rfl

/-- What is made of expressions is worked out from what each of them gives, and loads what they
load, in order. -/
theorem eval_combinedText {es : List Expr} {ps : List (ρ × List (Access ρ))}
    (h : List.Forall₂ (fun e p => e.eval m env = .done (.real p.1) p.2) es ps) {e : Expr}
    (he : combinedText op es = some e) :
    ∃ x, m.floating.combined op (ps.map Prod.fst) = some x ∧
      e.eval m env = .done (.real x) (ps.map Prod.snd).flatten := by
  obtain ⟨p, hp, heval⟩ := Operator.combined_rel
    (fun fn p => (m.floating.call fn.name p.1, p.2))
    (fun p q => (m.floating.arithmetic .add p.1 q.1, p.2 ++ q.2))
    (fun p q => (m.floating.arithmetic .mul p.1 q.1, p.2 ++ q.2))
    (R := fun e (p : ρ × List (Access ρ)) => e.eval m env = .done (.real p.1) p.2)
    (fun fn {_ _} h => eval_call h)
    (fun {_ _ _ _} h h' => Expr.eval_arithmetic h h' (Or.inl rfl))
    (fun {_ _ _ _} h h' => Expr.eval_arithmetic h h' (Or.inr (Or.inr (Or.inl rfl)))) h he
  have hvalue : m.floating.combined op (ps.map Prod.fst) = some p.1 :=
    Operator.combined_map _ _ _ Prod.fst (fun _ _ => rfl) (fun _ _ => rfl) (fun _ _ => rfl) hp
  have hloads : p.2 = (ps.map Prod.snd).flatten :=
    Operator.eq_flatten_of_combined
      (Operator.combined_map _ _ _ Prod.snd (fun _ _ => rfl) (fun _ _ => rfl) (fun _ _ => rfl) hp)
  exact ⟨p.1, hvalue, hloads ▸ heval⟩

end Cuda

/-! ## Operands in arrays -/

def View.ofArray (s : Shape) (xs : List Nat) : View :=
  ⟨s.lens, fun idx => xs.getD (Index.offset idx s.axes) 0⟩

def View.ofArrays (inputs : List Shape) (arrays : List (List Nat)) : List View :=
  List.zipWith ofArray inputs arrays

namespace Cuda

variable {ρ : Type} {m : Machine ρ} {env : Scope ρ}
variable {op : Operator} {inputs : List Shape} {output : Shape}

/-- Arrays that are as long as the strides of the operands span. -/
def Spanned (inputs : List Shape) (arrays : List (List Nat)) : Prop :=
  List.Forall₂ (fun s xs => s.space ≤ xs.length) inputs arrays

theorem shaped_ofArrays {arrays : List (List Nat)} (h : Spanned inputs arrays) :
    View.Shaped inputs (View.ofArrays inputs arrays) := by
  induction h with
  | nil => exact .nil
  | cons _ _ ih => exact .cons rfl ih

theorem Spanned.exists_array {arrays : List (List Nat)} (h : Spanned inputs arrays) {k : Nat}
    {s : Shape} (hs : inputs[k]? = some s) :
    ∃ xs, arrays[k]? = some xs ∧ s.space ≤ xs.length ∧
      (View.ofArrays inputs arrays)[k]? = some (View.ofArray s xs) := by
  obtain ⟨hk, rfl⟩ := List.getElem?_eq_some_iff.mp hs
  have hk' : k < arrays.length := h.length_eq ▸ hk
  refine ⟨arrays[k], List.getElem?_eq_getElem hk', h.get hk hk', ?_⟩
  rw [View.ofArrays, List.getElem?_zipWith, hs, List.getElem?_eq_getElem hk']

def operandVisits (inputs : List Shape) (idx : List Nat) : List Visit :=
  (List.range inputs.length).map fun k => ⟨k, idx⟩

/-- A kernel gathers what the reference kernel combines, whatever floating operations do: its
text is read as it is meant; the thread of an element loads the elements of the operands at
the index of that element, in order and each at the offset that the strides give it, makes of
them what the reference kernel makes of the same elements with its own operations, and stores
that as the element; all other threads do nothing; and a launch with enough threads has
exactly one for each element. -/
structure Source.Gathers (s : Source) (op : Operator) (inputs : List Shape) (output : Shape) :
    Prop where
  grouped : s.body.isGrouped = true
  reads : ∀ (num : Arithmetic) {arrays : List (List Nat)}, Spanned inputs arrays →
    ∃ r, (Kernel.run num op output.lens (View.ofArrays inputs arrays)).Ends
        (View.isListable num.size output.lens = true) (· = r) ∧
      ∀ {ρ : Type} (f : Floating ρ) (value : Nat → ρ) {g : Grid} (t : g.Thread),
        t.number < output.lens.prod →
          ∃ idx xs e y, (Index.indices output.lens)[t.number]? = some idx ∧
            xs = (View.ofArrays inputs arrays).map (·.read idx) ∧
            num.combined op xs = some e ∧ r.elements[t.number]? = some e ∧
            f.combined op (xs.map value) = some y ∧
            s.accesses f (arrays.map (List.map value)) output.lens.prod t =
              some ((operandVisits inputs idx).map (Visit.load inputs) ++
                [.store t.number (f.convert (.element output.dtype.cName) y)])
  idle : ∀ {ρ : Type} (f : Floating ρ) (operands : List (List ρ)) {g : Grid} (t : g.Thread),
    output.lens.prod ≤ t.number → s.accesses f operands output.lens.prod t = some []
  writes : ∀ {arrays : List (List Nat)}, Spanned inputs arrays →
    ∀ {ρ : Type} (f : Floating ρ) (value : Nat → ρ) {g : Grid},
      output.lens.prod ≤ g.blocks * g.width → ∀ p < output.lens.prod,
        ∃! t : g.Thread, s.Stores f (arrays.map (List.map value)) output.lens.prod t p

theorem populated_of_prod_pos {s : Shape} (h : 0 < s.lens.prod) : s.Populated := by
  intro n hn
  refine Nat.pos_of_ne_zero ?_
  rintro rfl
  rw [List.prod_eq_zero hn] at h
  exact absurd h (Nat.lt_irrefl 0)

section

variable {arrays : List (List Nat)} {es : List Expr} {i : Nat} {idx : List Nat}

/-- The load of an operand, for the thread of an element: it leads to the element of the operand
at the same index. -/
theorem eval_loadInput {k : Nat} {e : Expr} (value : Nat → ρ) (h : loadInput inputs k = some e)
    (hlens : ∀ s ∈ inputs, s.lens = output.lens)
    (hspaces : ∀ s ∈ inputs, s.Populated → s.space ≤ Word.maxUnsigned)
    (hfit : output.lens.prod ≤ Word.maxUnsigned) (harrays : Spanned inputs arrays)
    (harray : ∀ k xs, k < inputs.length → arrays[k]? = some xs →
      m.array (Source.input k) = some (xs.map value))
    (hi : i < output.lens.prod) (hidx : (Index.indices output.lens)[i]? = some idx)
    (henv : env.value? m "i" = some (.int .unsignedLongLong i)) :
    e.eval m env = .done
      (.real (value (((View.ofArrays inputs arrays).map (·.read idx)).getD k 0)))
      [(Visit.mk k idx).load inputs] := by
  obtain ⟨s, o, hs, ho, rfl⟩ := loadInput_eq_some.mp h
  have hmem : s ∈ inputs := List.mem_of_getElem? hs
  obtain ⟨hk, -⟩ := List.getElem?_eq_some_iff.mp hs
  have hsl := hlens s hmem
  have hpopulated : s.Populated := populated_of_prod_pos (by rw [hsl]; omega)
  obtain ⟨o', ho', haddress⟩ :=
    exists_addressing hpopulated (hsl ▸ hfit) (hspaces s hmem hpopulated)
  rw [ho] at ho'
  cases ho'
  obtain ⟨jdx, hjdx, hexact⟩ := haddress.exact i (hsl ▸ hi)
  rw [hsl, hidx] at hjdx
  cases hjdx
  obtain ⟨xs, hxs, hlen, hview⟩ := harrays.exists_array hs
  have hwithin : Index.Within idx s.lens := hsl ▸ Index.mem_indices.mp (List.mem_of_getElem? hidx)
  have hlt : Index.offset idx s.axes < xs.length :=
    (Nat.lt_succ_of_le (Index.offset_le_reach hwithin)).trans_le hlen
  have hread : ((View.ofArrays inputs arrays).map (·.read idx)).getD k 0 =
      xs[Index.offset idx s.axes] := by
    rw [List.getD_eq_getElem?_getD, List.getElem?_map, hview]
    exact List.getD_eq_getElem _ _ hlt
  have haddr : (Visit.mk k idx).address inputs = Index.offset idx s.axes := by
    unfold Visit.address
    dsimp only
    rw [hs]
  have hyields := Expr.yields_of_exactValue henv (by omega) hexact
  rw [hread, Visit.load, haddr]
  refine hyields.eval_load (harray k xs hk hxs) ?_
  rw [List.getElem?_map, List.getElem?_eq_getElem hlt]
  rfl

theorem exec_combinedText {e : Expr} (value : Nat → ρ) (hes : loadInputs inputs = some es)
    (he : combinedText op es = some e) (hlens : ∀ s ∈ inputs, s.lens = output.lens)
    (hspaces : ∀ s ∈ inputs, s.Populated → s.space ≤ Word.maxUnsigned)
    (hfit : output.lens.prod ≤ Word.maxUnsigned) (harrays : Spanned inputs arrays)
    (harray : ∀ k xs, k < inputs.length → arrays[k]? = some xs →
      m.array (Source.input k) = some (xs.map value))
    (hcount : m.count = output.lens.prod) (helement : m.element.integer = none)
    (hi : i < output.lens.prod) (hidx : (Index.indices output.lens)[i]? = some idx) :
    ∃ y, m.floating.combined op
        (((View.ofArrays inputs arrays).map (·.read idx)).map value) = some y ∧
      (Stmt.assign result e).exec m [wordVar "i" i] = .done (.next, [wordVar "i" i])
        ((operandVisits inputs idx).map (Visit.load inputs) ++
          [.store i (m.floating.convert m.element y)]) := by
  let xs := (View.ofArrays inputs arrays).map (·.read idx)
  let p (k : Nat) : ρ × List (Access ρ) := (value (xs.getD k 0), [(Visit.mk k idx).load inputs])
  have hloads : List.Forall₂ (fun e p => e.eval m [wordVar "i" i] = .done (.real p.1) p.2) es
      ((List.range inputs.length).map p) := by
    rw [List.forall₂_map_right_iff]
    refine ((loadInputs_eq_some.mp hes).imp fun k e h => ?_).flip
    exact eval_loadInput value h hlens hspaces hfit harrays harray hi hidx rfl
  have hlength : xs.length = inputs.length := by
    rw [List.length_map, View.ofArrays, List.length_zipWith, harrays.length_eq, Nat.min_self]
  have hfst : ((List.range inputs.length).map p).map Prod.fst = xs.map value := by
    rw [List.map_map]
    refine List.ext_getElem (by simp [hlength]) fun k hk hk' => ?_
    have hlt : k < xs.length := by simpa using hk'
    simp [p, List.getD_eq_getElem?_getD, hlt]
  have hsnd : (((List.range inputs.length).map p).map Prod.snd).flatten =
      (operandVisits inputs idx).map (Visit.load inputs) := by
    rw [List.map_map, ← List.flatMap_def, operandVisits, List.map_map, List.map_eq_flatMap]
    rfl
  obtain ⟨y, hy, heval⟩ := eval_combinedText hloads he
  rw [hfst] at hy
  rw [hsnd] at heval
  exact ⟨y, hy, Stmt.exec_store_of_eval heval (yields_wordVar rfl (by omega)) (by omega) helement⟩

end

theorem source_eq_value_of_isPointwise (h : Operator.Infers op inputs output)
    (hop : op.isPointwise = true) {s : Source} :
    source op output inputs = .value s ↔ ∃ es e, output.elements = some output.lens.prod ∧
      loadInputs inputs = some es ∧ combinedText op es = some e ∧
      s = ⟨output.dtype.cName, inputs.length, frame output.lens.prod (.assign result e)⟩ := by
  constructor
  · intro hs
    obtain ⟨count, hcount, hs⟩ := Outcome.bind_eq_value.mp hs
    obtain ⟨statements, hbody, hs⟩ := Outcome.bind_eq_value.mp hs
    obtain ⟨es, e, hes, he, rfl⟩ := (body_eq_value h hop).mp hbody
    have hcount := Outcome.ofOption_eq_value.mp hcount
    obtain rfl := Shape.elements_eq_some hcount
    cases hs
    exact ⟨es, e, hcount, hes, he, rfl⟩
  · rintro ⟨es, e, hcount, hes, he, rfl⟩
    exact source_eq_value hcount ((body_eq_value h hop).mpr ⟨es, e, hes, he, rfl⟩)

theorem source_gathers {s : Source} (h : Operator.Infers op inputs output)
    (hop : op.isPointwise = true)
    (hspaces : ∀ s ∈ inputs, s.Populated → s.space ≤ Word.maxUnsigned)
    (hs : source op output inputs = .value s) : s.Gathers op inputs output := by
  obtain ⟨es, e, hcount, hes, he, rfl⟩ := (source_eq_value_of_isPointwise h hop).mp hs
  have hfit : output.lens.prod ≤ Word.maxUnsigned := Word.product_le hcount
  have hlens := h.lens_eq_of_isPointwise hop
  have hexec : ∀ {arrays : List (List Nat)}, Spanned inputs arrays → ∀ {ρ : Type} (f : Floating ρ)
      (value : Nat → ρ) {g : Grid} (t : g.Thread), t.number < output.lens.prod →
      ∀ idx, (Index.indices output.lens)[t.number]? = some idx →
      ∃ y, f.combined op (((View.ofArrays inputs arrays).map (·.read idx)).map value) = some y ∧
        (Source.mk output.dtype.cName inputs.length
          (frame output.lens.prod (.assign result e))).accesses f (arrays.map (List.map value))
            output.lens.prod t = some ((operandVisits inputs idx).map (Visit.load inputs) ++
              [.store t.number (f.convert (.element output.dtype.cName) y)]) := by
    intro arrays harrays ρ f value g t ht idx hidx
    let k : Source :=
      ⟨output.dtype.cName, inputs.length, frame output.lens.prod (.assign result e)⟩
    have harray : ∀ j xs, j < inputs.length → arrays[j]? = some xs →
        (k.machine f (arrays.map (List.map value)) output.lens.prod t).array (Source.input j) =
          some (xs.map value) := by
      intro j xs hj hxs
      refine array_input hj ?_
      rw [List.getElem?_map, hxs]
      rfl
    obtain ⟨y, hy, hassign⟩ := exec_combinedText
      (m := k.machine f (arrays.map (List.map value)) output.lens.prod t) value hes he hlens hspaces
      hfit harrays harray rfl rfl ht hidx
    exact ⟨y, hy, accesses_of_lt hfit ht hassign⟩
  refine ⟨?_, fun num arrays harrays => ?_, fun f operands g t ht => accesses_of_le hfit ht, ?_⟩
  · have hgrouped := isGrouped_combinedText (isGrouped_of_mem_loadInputs hes) he
    show (true && (true && (true && e.isGrouped))) = true
    rw [hgrouped]
    rfl
  · obtain ⟨v, hrun, hv, hcombined⟩ :=
      Kernel.exists_run_of_isPointwise num h hop (shaped_ofArrays harrays)
    refine ⟨v.toTensor, hrun, fun f value g t ht => ?_⟩
    obtain ⟨idx, hidx, -, -⟩ := exists_index ht
    obtain ⟨y, hy, haccesses⟩ := hexec harrays f value t ht idx hidx
    refine ⟨idx, _, v.read idx, y, hidx, rfl, hcombined idx, ?_, hy, haccesses⟩
    show ((Index.indices v.lens).map v.read)[t.number]? = _
    rw [hv, List.getElem?_map, hidx]
    rfl
  · intro arrays harrays ρ f value g henough p hp
    refine existsUnique_of_own inputs (fun t ht => ?_)
      (fun t ht => accesses_of_le hfit ht) henough hp
    obtain ⟨idx, hidx, -, -⟩ := exists_index ht
    obtain ⟨y, -, haccesses⟩ := hexec harrays f value t ht idx hidx
    exact ⟨_, _, haccesses⟩

/-- Such an operator has a source where no operand has extent 0. -/
theorem exists_source_of_isPointwise (h : Operator.Infers op inputs output)
    (hop : op.isPointwise = true) (hpopulated : ∀ s ∈ inputs, s.Populated)
    (hspaces : ∀ s ∈ inputs, s.Populated → s.space ≤ Word.maxUnsigned) :
    ∃ s, source op output inputs = .value s := by
  have hlens := h.lens_eq_of_isPointwise hop
  obtain ⟨a, ha, hstandard⟩ := h.exists_asStandard hop
  have hfit : output.lens.prod ≤ Word.maxUnsigned := Shape.prod_le_of_standard hstandard
  have houtput : output.Populated := fun n hn => hpopulated a ha n (hlens a ha ▸ hn)
  have hcount : output.elements = some output.lens.prod := Word.product_of_pos houtput hfit
  obtain ⟨es, hes⟩ : ∃ es, loadInputs inputs = some es := exists_loadInputs fun s hs => by
    obtain ⟨o, ho, -⟩ := exists_addressing (hpopulated s hs) (hlens s hs ▸ hfit)
      (hspaces s hs (hpopulated s hs))
    exact ⟨o, ho⟩
  have hlength : es.length = inputs.length := by
    rw [← (loadInputs_eq_some.mp hes).length_eq, List.length_range]
  obtain ⟨e, he⟩ : ∃ e, combinedText op es = some e := h.exists_combined hop _ _ _ hlength
  exact ⟨_, (source_eq_value_of_isPointwise h hop).mpr ⟨es, e, hcount, hes, he, rfl⟩⟩

/-- Offsets are exact and kernels gather.

For a shape without extent 0 whose count and span are words, the offset that is written is
worked out for every element to the sum of its coordinates times the strides, and there is
always something to write.  A kernel of an operator that takes one element from each operand
loads, for every element of its output, the elements that the reference kernel combines. -/
theorem offset_and_source_gather :
    (∀ (s : Shape) {count space : Nat}, s.Populated → s.elements = some count →
      s.elementSpace = some space → ∃ e, offset s = some e ∧ Addressing s e) ∧
    ∀ {op : Operator} {inputs : List Shape} {output : Shape}, op.isPointwise = true →
      op.infer inputs = .value output → (∀ s ∈ inputs, ∃ space, s.elementSpace = some space) →
        ((∀ s ∈ inputs, s.Populated) → ∃ s, source op output inputs = .value s) ∧
        ∀ s, source op output inputs = .value s → s.Gathers op inputs output := by
  have hspace : ∀ (s : Shape) {space : Nat}, s.Populated → s.elementSpace = some space →
      s.space ≤ Word.maxUnsigned := by
    intro s space hpopulated h
    rw [Shape.elementSpace_eq_fit hpopulated] at h
    exact (Word.fit_eq_some.mp h).1
  refine ⟨fun s count space hpopulated hcount h => ?_,
    fun {op inputs output} hop hinfer hspaces => ?_⟩
  · obtain rfl := Shape.elements_eq_some hcount
    exact exists_addressing hpopulated (Word.product_le hcount) (hspace s hpopulated h)
  · have hinfers := Operator.infers_of_infer hinfer
    have hwords : ∀ s ∈ inputs, s.Populated → s.space ≤ Word.maxUnsigned := fun s hs hpopulated => by
      obtain ⟨space, h⟩ := hspaces s hs
      exact hspace s hpopulated h
    exact ⟨fun hpopulated => exists_source_of_isPointwise hinfers hop hpopulated hwords,
      fun s hs => source_gathers hinfers hop hwords hs⟩

def skewed : Shape := ⟨.float, [⟨3, 1⟩, ⟨1, 9⟩, ⟨2, 3⟩]⟩

def repeated : Shape := ⟨.float, [⟨3, 0⟩, ⟨1, 9⟩, ⟨2, 1⟩]⟩

def summed : Shape := ⟨.float, [⟨3, 2⟩, ⟨1, 2⟩, ⟨2, 1⟩]⟩

/-- The thread of the fourth element adds the fifth of the one array and the second of the
other. -/
theorem offset_and_source_gather_skewed :
    (skewed.Populated ∧ skewed.elements = some 6 ∧ skewed.elementSpace = some 6 ∧
      Operator.add.infer [skewed, repeated] = .value summed ∧
      (∀ s ∈ [skewed, repeated], s.Populated) ∧
      ∀ s ∈ [skewed, repeated], ∃ space, s.elementSpace = some space) ∧
    (∃ e, offset skewed = some e ∧ e.exactValue 3 = some 4) ∧
    ∃ s, source .add summed [skewed, repeated] = .value s ∧
      ∀ (f : Floating Nat) (g : Grid) (t : g.Thread), t.number = 3 →
        s.accesses f [[10, 11, 12, 13, 14, 15], [7, 8]] 6 t =
          some [.load "in0" 4, .load "in1" 1,
            .store 3 (f.convert (.element "float") (f.arithmetic .add 14 8))] := by
  have hskewed : skewed.Populated := by
    unfold Shape.Populated
    decide
  have hpopulated : ∀ s ∈ [skewed, repeated], s.Populated := by
    unfold Shape.Populated
    decide
  have hspaces : ∀ s ∈ [skewed, repeated], ∃ space, s.elementSpace = some space := by
    rw [List.forall_mem_cons]
    exact ⟨⟨6, rfl⟩, fun s hs => ⟨2, by rw [List.mem_singleton.mp hs]; rfl⟩⟩
  have hinfer : Operator.add.infer [skewed, repeated] = .value summed := rfl
  refine ⟨⟨hskewed, rfl, rfl, hinfer, hpopulated, hspaces⟩, ?_, ?_⟩
  · obtain ⟨e, he, haddress⟩ := offset_and_source_gather.1 skewed hskewed rfl rfl
    obtain ⟨idx, hidx, hexact⟩ := haddress.exact 3 (by decide)
    cases hidx
    exact ⟨e, he, hexact⟩
  · obtain ⟨hexists, hgathers⟩ := offset_and_source_gather.2 rfl hinfer hspaces
    obtain ⟨s, hs⟩ := hexists hpopulated
    refine ⟨s, hs, fun f g t ht => ?_⟩
    have harrays : Spanned [skewed, repeated] [[10, 11, 12, 13, 14, 15], [7, 8]] :=
      .cons (by decide) (.cons (by decide) .nil)
    obtain ⟨r, -, hreads⟩ := (hgathers s hs).reads Arithmetic.single harrays
    obtain ⟨idx, xs, e, y, hidx, rfl, -, -, hy, haccesses⟩ := hreads f id t (by rw [ht]; decide)
    rw [ht] at hidx haccesses
    have hindex : idx = [1, 0, 1] := Option.some.inj (hidx.symm.trans rfl)
    subst hindex
    cases hy
    exact haccesses

end Cuda
end TensorGraph
