/-
Computations that leave a trace.

A `Traced ι α` gives a value and the list of what was touched on the way, in order, or
gives nothing.  `value` forgets the trace, and `value_bind` and `value_foldlM` say that it
may be forgotten step by step: a computation written for any monad and run here has the
value that it has without a trace.
-/
import Mathlib.Tactic

namespace TensorGraph

/-- A computation with an answer and a trace, or without an answer. -/
def Traced (ι α : Type) : Type := Option (α × List ι)

namespace Traced

variable {ι α β : Type}

def done (a : α) (trace : List ι) : Traced ι α := some (a, trace)

def stuck : Traced ι α := none

/-- Carries on with the answer; the second trace stands behind the first. -/
def bind (x : Traced ι α) (f : α → Traced ι β) : Traced ι β :=
  match x with
  | none => none
  | some (a, first) =>
    match f a with
    | none => none
    | some (b, second) => some (b, first ++ second)

instance : Monad (Traced ι) where
  pure a := done a []
  bind := bind

def ofOption : Option α → Traced ι α
  | some a => done a []
  | none => stuck

instance : MonadLift Option (Traced ι) := ⟨ofOption⟩

def touching (i : ι) : Option α → Traced ι α
  | some a => done a [i]
  | none => stuck

def value (x : Traced ι α) : Option α := x.map Prod.fst

theorem value_pure (a : α) : (pure a : Traced ι α).value = pure a := rfl

theorem value_liftM (x : Option α) : (liftM x : Traced ι α).value = x := by
  cases x <;> rfl

theorem value_touching (i : ι) (x : Option α) : (touching i x).value = x := by
  cases x <;> rfl

theorem done_bind {a : α} {l l' : List ι} {f : α → Traced ι β} {b : β} (h : f a = done b l') :
    (done a l >>= f) = done b (l ++ l') := by
  show bind (done a l) f = _
  unfold bind done
  dsimp only
  rw [h]
  rfl

theorem pure_bind (a : α) (f : α → Traced ι β) : (pure a >>= f) = f a := by
  show bind (done a []) f = f a
  unfold bind done
  dsimp only
  cases h : f a with
  | none => rfl
  | some r => rfl

theorem liftM_some_bind (a : α) (f : α → Traced ι β) : (liftM (some a) >>= f) = f a :=
  pure_bind a f

theorem bind_eq_done {x : Traced ι α} {f : α → Traced ι β} {a : α} {b : β} {l l' : List ι}
    (h : x = done a l) (h' : f a = done b l') : (x >>= f) = done b (l ++ l') := by
  rw [h]
  exact done_bind h'

theorem bind_liftM_eq_done {x : Traced ι α} {f : α → Option β} {a : α} {b : β} {l : List ι}
    (h : x = done a l) (hf : f a = some b) : (x >>= fun a => liftM (f a)) = done b l := by
  have hlift : (liftM (f a) : Traced ι β) = done b [] := by
    rw [hf]
    rfl
  rw [← List.append_nil l]
  exact bind_eq_done h hlift

theorem bind_of_pure {x : Traced ι α} {f : α → Traced ι β} {a : α} (h : x = done a []) :
    (x >>= f) = f a := by
  rw [h]
  exact pure_bind a f

theorem value_bind (x : Traced ι α) (f : α → Traced ι β) :
    (x >>= f).value = x.value >>= fun a => (f a).value := by
  show (bind x f).value = _
  unfold bind
  cases x with
  | none => rfl
  | some r =>
    obtain ⟨a, l⟩ := r
    dsimp only
    show _ = (f a).value
    cases h : f a with
    | none => rfl
    | some r => rfl

theorem value_foldlM (f : β → α → Traced ι β) (as : List α) (b : β) :
    (as.foldlM f b).value = as.foldlM (fun b a => (f b a).value) b := by
  induction as generalizing b with
  | nil => rfl
  | cons a as ih =>
    rw [List.foldlM_cons, List.foldlM_cons, value_bind]
    exact congrArg ((f b a).value >>= ·) (funext ih)

/-! ## Traces that do not depend on answers -/

def Leaves (x : Traced ι α) (trace : List ι) : Prop := ∃ a, x = done a trace

theorem Leaves.bind {x : Traced ι α} {f : α → Traced ι β} {l l' : List ι} (h : x.Leaves l)
    (hf : ∀ a, (f a).Leaves l') : (x >>= f).Leaves (l ++ l') := by
  obtain ⟨a, ha⟩ := h
  obtain ⟨b, hb⟩ := hf a
  exact ⟨b, bind_eq_done ha hb⟩

theorem Leaves.bind_pure {x : Traced ι α} {f : α → β} {l : List ι} (h : x.Leaves l) :
    (x >>= fun a => (pure (f a) : Traced ι β)).Leaves l := by
  have hf : ∀ a, (pure (f a) : Traced ι β).Leaves [] := fun a => ⟨f a, rfl⟩
  rw [← List.append_nil l]
  exact h.bind hf

/-- A loop whose steps have traces of their own has them one after the other. -/
theorem leaves_foldlM {f : β → α → Traced ι β} {trace : α → List ι} {as : List α}
    (h : ∀ b, ∀ a ∈ as, (f b a).Leaves (trace a)) (b : β) :
    (as.foldlM f b).Leaves (as.flatMap trace) := by
  induction as generalizing b with
  | nil => exact ⟨b, rfl⟩
  | cons a as ih =>
    rw [List.foldlM_cons, List.flatMap_cons]
    exact (h b a List.mem_cons_self).bind
      (ih fun b a' ha' => h b a' (List.mem_cons_of_mem _ ha'))

/-! ## What is touched -/

def Touches (P : ι → Prop) (x : Traced ι α) : Prop := ∀ a l, x = done a l → ∀ i ∈ l, P i

theorem exists_of_bind_eq_done {x : Traced ι α} {f : α → Traced ι β} {b : β} {l : List ι}
    (h : (x >>= f) = done b l) :
    ∃ a first second, x = done a first ∧ f a = done b second ∧ l = first ++ second := by
  have hbind : bind x f = done b l := h
  unfold bind at hbind
  cases x with
  | none => cases hbind
  | some r =>
    obtain ⟨a, first⟩ := r
    dsimp only at hbind
    cases hf : f a with
    | none =>
      rw [hf] at hbind
      cases hbind
    | some s =>
      rw [hf] at hbind
      cases hbind
      exact ⟨a, first, s.2, rfl, hf, rfl⟩

section

variable {P : ι → Prop}

theorem touches_pure (a : α) : (pure a : Traced ι α).Touches P := by
  intro b l h
  cases h
  exact fun i hi => nomatch hi

theorem touches_liftM (x : Option α) : (liftM x : Traced ι α).Touches P := by
  cases x with
  | none => exact fun a l h => nomatch h
  | some a => exact touches_pure a

theorem touches_touching {i : ι} {x : Option α} (h : x.isSome = true → P i) :
    (touching i x).Touches P := by
  cases x with
  | none => exact fun a l h => nomatch h
  | some a =>
    intro b l hl j hj
    cases hl
    rw [List.mem_singleton.mp hj]
    exact h rfl

theorem Touches.bind {x : Traced ι α} {f : α → Traced ι β} (h : x.Touches P)
    (hf : ∀ a, (f a).Touches P) : (x >>= f).Touches P := by
  intro b l hl i hi
  obtain ⟨a, first, second, hx, hfa, rfl⟩ := exists_of_bind_eq_done hl
  rcases List.mem_append.mp hi with hi | hi
  · exact h a first hx i hi
  · exact hf a b second hfa i hi

theorem Touches.ite {p : Prop} [Decidable p] {x y : Traced ι α} (hx : x.Touches P)
    (hy : y.Touches P) : (if p then x else y).Touches P := by
  split
  · exact hx
  · exact hy

theorem touches_foldlM {f : β → α → Traced ι β} (h : ∀ b a, (f b a).Touches P) (as : List α)
    (b : β) : (as.foldlM f b).Touches P := by
  induction as generalizing b with
  | nil => exact touches_pure b
  | cons a as ih =>
    rw [List.foldlM_cons]
    exact (h b a).bind ih

end

end Traced
end TensorGraph
