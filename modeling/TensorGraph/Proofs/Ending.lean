/-
Reasoning about how computations end.

`Ends fits post` holds of a computation that gives a value for which `post` holds, or that
halts although not everything fits into the range of sizes; it never holds of a refusal.
So it says two things at once: whatever happens, a value is right, and where sizes do fit
there is one.  `fits` stays the same through a development, and only the leaves, where a
size is formed, have to look at it.

Beside it stand the inversions of `bind` for each way to end.
-/
import TensorGraph.Outcome
import Mathlib.Tactic

namespace TensorGraph

variable {α β σ : Type}

theorem mapM_eq_some {f : α → Option β} {as : List α} {bs : List β} :
    as.mapM f = some bs ↔ List.Forall₂ (fun a b => f a = some b) as bs := by
  induction as generalizing bs with
  | nil =>
    rw [List.forall₂_nil_left_iff]
    exact ⟨fun h => by cases h; rfl, fun h => by rw [h]; rfl⟩
  | cons a as ih =>
    rw [List.mapM_cons, List.forall₂_cons_left_iff]
    constructor
    · intro h
      obtain ⟨b, hb, h⟩ := Option.bind_eq_some_iff.mp h
      obtain ⟨bs', hbs, h⟩ := Option.bind_eq_some_iff.mp h
      cases h
      exact ⟨b, bs', hb, ih.mp hbs, rfl⟩
    · rintro ⟨b, bs', hb, hbs, rfl⟩
      rw [hb, ih.mpr hbs]
      rfl

namespace Outcome

/-- A value that is right, or a halt where sizes do not fit. -/
def Ends (fits : Prop) (post : α → Prop) : Outcome α → Prop
  | value a => post a
  | refused _ => False
  | halted => ¬fits

variable {fits : Prop} {P Q : α → Prop}

theorem Ends.mono {x : Outcome α} (h : x.Ends fits P) (hpq : ∀ a, P a → Q a) :
    x.Ends fits Q := by
  cases x with
  | value a => exact hpq a h
  | refused e => exact h
  | halted => exact h

theorem Ends.bind {x : Outcome α} {f : α → Outcome β} {R : β → Prop} (h : x.Ends fits P)
    (hf : ∀ a, P a → (f a).Ends fits R) : (x >>= f).Ends fits R := by
  cases x with
  | value a => exact hf a h
  | refused e => exact h
  | halted => exact h

theorem Ends.of_value {x : Outcome α} (h : x.Ends fits P) {a : α} (hx : x = value a) : P a := by
  rw [hx] at h
  exact h

theorem Ends.eq_value_of_fits {x : Outcome α} (h : x.Ends fits P) (hfits : fits) :
    ∃ a, x = value a ∧ P a := by
  cases x with
  | value a => exact ⟨a, rfl, h⟩
  | refused e => exact h.elim
  | halted => exact absurd hfits h

/-- An operation on words ends well when it has an answer wherever sizes fit. -/
theorem ends_ofOption {x : Option α} (hfit : fits → x.isSome = true)
    (hpost : ∀ a, x = some a → P a) : (ofOption x).Ends fits P := by
  cases x with
  | some a => exact hpost a rfl
  | none => exact fun h => absurd (hfit h) Bool.false_ne_true

theorem lift_eq (x : Option α) : (liftM x : Outcome α) = ofOption x := rfl

theorem ofOption_some (a : α) : ofOption (some a) = value a := rfl

theorem require_pos {c : Prop} [Decidable c] (h : c) (e : Error) : require c e = value () :=
  if_pos h

theorem require_neg {c : Prop} [Decidable c] (h : ¬c) (e : Error) : require c e = refused e :=
  if_neg h

theorem require_eq_value {c : Prop} [Decidable c] {e : Error} {u : Unit} :
    require c e = value u ↔ c := by
  by_cases h : c
  · rw [require_pos h]
    exact ⟨fun _ => h, fun _ => rfl⟩
  · rw [require_neg h]
    exact ⟨(fun hu => nomatch hu), fun hc => absurd hc h⟩

theorem forall₂_of_mapM {f : α → Outcome β} {as : List α} {bs : List β}
    (h : as.mapM f = value bs) : List.Forall₂ (fun a b => f a = value b) as bs := by
  induction as generalizing bs with
  | nil =>
    cases h
    exact .nil
  | cons a as ih =>
    rw [List.mapM_cons] at h
    obtain ⟨b, hb, h⟩ := bind_eq_value.mp h
    obtain ⟨bs', hbs, h⟩ := bind_eq_value.mp h
    cases h
    exact .cons hb (ih hbs)

end Outcome

def Turn.Ends (fits : Prop) (post : α → σ → Prop) : Turn σ α → Prop
  | .value a next => post a next
  | .refused _ _ => False
  | .halted => ¬fits

namespace Turn

def passes (test : α → σ → Bool) : Turn σ α → Bool
  | .value a s => test a s
  | .refused _ _ => false
  | .halted => false

theorem exists_of_passes {x : Turn σ α} {test : α → σ → Bool} (h : x.passes test = true) :
    ∃ a s, x = .value a s ∧ test a s = true := by
  cases x with
  | value a s => exact ⟨a, s, rfl, h⟩
  | refused e s => cases h
  | halted => cases h

def refusedWith (error : Error) : Turn σ α → Bool
  | .value _ _ => false
  | .refused e _ => e = error
  | .halted => false

theorem exists_of_refusedWith {x : Turn σ α} {e : Error} (h : x.refusedWith e = true) :
    ∃ s, x = .refused e s := by
  cases x with
  | value a s => cases h
  | refused e' s => exact ⟨s, by rw [of_decide_eq_true h]⟩
  | halted => cases h

def refusedIn (test : σ → Bool) : Turn σ α → Bool
  | .value _ _ => false
  | .refused _ s => test s
  | .halted => false

theorem exists_of_refusedIn {x : Turn σ α} {test : σ → Bool} (h : x.refusedIn test = true) :
    ∃ e s, x = .refused e s ∧ test s = true := by
  cases x with
  | value a s => cases h
  | refused e s => exact ⟨e, s, rfl, h⟩
  | halted => cases h

def halts : Turn σ α → Bool
  | .value _ _ => false
  | .refused _ _ => false
  | .halted => true

theorem eq_halted_of_halts {x : Turn σ α} (h : x.halts = true) : x = .halted := by
  cases x with
  | value a s => cases h
  | refused e s => cases h
  | halted => rfl

/-- Whether an action ends in a state, with a value or refused. -/
def Leaves (x : Turn σ α) (s : σ) : Prop := (∃ a, x = .value a s) ∨ ∃ e, x = .refused e s

/-- Whether something holds of the state that is left, whichever way. -/
def Always (post : σ → Prop) : Turn σ α → Prop
  | .value _ next => post next
  | .refused _ next => post next
  | .halted => True

/-- Whether one thing holds of a value in the state it leaves, and another of the state that a
refusal leaves. -/
def Meets (post : α → σ → Prop) (kept : σ → Prop) : Turn σ α → Prop
  | .value a next => post a next
  | .refused _ next => kept next
  | .halted => True

theorem Always.of_leaves {post : σ → Prop} {x : Turn σ α} {s : σ} (h : x.Always post)
    (hx : x.Leaves s) : post s := by
  rcases hx with ⟨a, rfl⟩ | ⟨e, rfl⟩
  · exact h
  · exact h

theorem Always.mono {post post' : σ → Prop} {x : Turn σ α} (h : x.Always post)
    (hpost : ∀ s, post s → post' s) : x.Always post' := by
  cases x with
  | value a s => exact hpost s h
  | refused e s => exact hpost s h
  | halted => exact trivial

variable {fits : Prop} {P Q : α → σ → Prop}

theorem Ends.mono {x : Turn σ α} (h : x.Ends fits P) (hpq : ∀ a s, P a s → Q a s) :
    x.Ends fits Q := by
  cases x with
  | value a s => exact hpq a s h
  | refused e s => exact h
  | halted => exact h

theorem Ends.of_value {x : Turn σ α} (h : x.Ends fits P) {a : α} {s : σ}
    (hx : x = value a s) : P a s := by
  rw [hx] at h
  exact h

theorem Ends.with_value {x : Turn σ α} (h : x.Ends fits P) :
    x.Ends fits fun a s => x = value a s ∧ P a s := by
  cases x with
  | value a s => exact ⟨rfl, h⟩
  | refused e s => exact h
  | halted => exact h

theorem Ends.exists_value {x : Turn σ α} (h : x.Ends fits P) (hx : x ≠ halted) :
    ∃ a s, x = value a s ∧ P a s := by
  cases x with
  | value a s => exact ⟨a, s, rfl, h⟩
  | refused e s => exact h.elim
  | halted => exact absurd rfl hx

theorem Ends.exists_value_of_fits {x : Turn σ α} (h : x.Ends fits P) (hfits : fits) :
    ∃ a s, x = value a s ∧ P a s := by
  refine h.exists_value fun hx => ?_
  rw [hx] at h
  exact h hfits

theorem Meets.mono {kept kept' : σ → Prop} {x : Turn σ α} (h : x.Meets P kept)
    (hpq : ∀ a s, P a s → Q a s) (hkept : ∀ s, kept s → kept' s) : x.Meets Q kept' := by
  cases x with
  | value a s => exact hpq a s h
  | refused e s => exact hkept s h
  | halted => exact trivial

theorem Meets.with_value {kept : σ → Prop} {x : Turn σ α} (h : x.Meets P kept) :
    x.Meets (fun a s => x = value a s ∧ P a s) kept := by
  cases x with
  | value a s => exact ⟨rfl, h⟩
  | refused e s => exact h
  | halted => exact trivial

theorem Meets.always {kept post : σ → Prop} {x : Turn σ α} (h : x.Meets P kept)
    (hp : ∀ a s, P a s → post s) (hkept : ∀ s, kept s → post s) : x.Always post := by
  cases x with
  | value a s => exact hp a s h
  | refused e s => exact hkept s h
  | halted => exact trivial

theorem Always.meets {post : σ → Prop} {x : Turn σ α} (h : x.Always post) :
    x.Meets (fun _ => post) post := by
  cases x with
  | value a s => exact h
  | refused e s => exact h
  | halted => exact trivial

end Turn

namespace Action

variable {fits : Prop} {s : σ}

theorem ends_bind {x : Action σ α} {f : α → Action σ β} {P : α → σ → Prop} {R : β → σ → Prop}
    (h : (x s).Ends fits P) (hf : ∀ a t, P a t → (f a t).Ends fits R) :
    ((x >>= f) s).Ends fits R := by
  rw [bind_apply]
  cases hx : x s with
  | value a t =>
    rw [hx] at h
    exact hf a t h
  | refused e t =>
    rw [hx] at h
    exact h
  | halted =>
    rw [hx] at h
    exact h

theorem ends_ofOutcome {x : Outcome α} {P : α → σ → Prop} (h : x.Ends fits fun a => P a s) :
    (ofOutcome x s).Ends fits P := by
  cases x with
  | value a => exact h
  | refused e => exact h
  | halted => exact h

/-- Cleaning up after a refusal plays no part where there is none. -/
theorem ends_onRefusal {x : Action σ α} {cleanup : Action σ Unit} {P : α → σ → Prop}
    (h : (x s).Ends fits P) : ((x.onRefusal cleanup) s).Ends fits P := by
  unfold onRefusal
  cases hx : x s with
  | value a t =>
    rw [hx] at h
    exact h
  | refused e t =>
    rw [hx] at h
    exact h.elim
  | halted =>
    rw [hx] at h
    exact h

theorem ends_forEach {f : α → Action σ Unit} {as : List α}
    (h : ∀ a ∈ as, (f a s).Ends fits fun _ t => t = s) :
    (forEach f as s).Ends fits fun _ t => t = s := by
  induction as with
  | nil => exact rfl
  | cons a as ih =>
    rw [List.forall_mem_cons] at h
    rw [forEach_cons]
    refine ends_bind h.1 ?_
    rintro _ _ rfl
    exact ih h.2

theorem always_bind {x : Action σ α} {f : α → Action σ β} {post : σ → Prop}
    (h : (x s).Always post) (hf : ∀ a t, post t → (f a t).Always post) :
    ((x >>= f) s).Always post := by
  rw [bind_apply]
  cases hx : x s with
  | value a t =>
    rw [hx] at h
    exact hf a t h
  | refused e t =>
    rw [hx] at h
    exact h
  | halted => exact trivial

theorem always_ofOutcome (x : Outcome α) {post : σ → Prop} (h : post s) :
    (ofOutcome x s).Always post := by
  cases x with
  | value a => exact h
  | refused e => exact h
  | halted => exact trivial

/-- Nothing is refused any more, and everything else stays. -/
theorem always_attempt {x : Action σ α} {post : σ → Prop} (h : (x s).Always post) :
    (attempt x s).Always post := by
  unfold attempt
  cases hx : x s with
  | value a t =>
    rw [hx] at h
    exact h
  | refused e t =>
    rw [hx] at h
    exact h
  | halted => exact trivial

/-! ## Values and refusals apart -/

section Meets

variable {P : α → σ → Prop} {kept kept' : σ → Prop}

theorem meets_bind {x : Action σ α} {f : α → Action σ β} {R : β → σ → Prop}
    (h : (x s).Meets P kept) (hf : ∀ a t, P a t → (f a t).Meets R kept) :
    ((x >>= f) s).Meets R kept := by
  rw [bind_apply]
  cases hx : x s with
  | value a t =>
    rw [hx] at h
    exact hf a t h
  | refused e t =>
    rw [hx] at h
    exact h
  | halted => exact trivial

theorem meets_ofOutcome {x : Outcome α} (h : ∀ a, x = .value a → P a s) (hs : kept s) :
    (ofOutcome x s).Meets P kept := by
  cases x with
  | value a => exact h a rfl
  | refused e => exact hs
  | halted => exact trivial

theorem meets_zoom {τ : Type} {view : σ → τ} {put : τ → σ → σ} {x : Action τ α}
    (h : (x (view s)).Meets (fun a t => P a (put t s)) fun t => kept (put t s)) :
    (x.zoom view put s).Meets P kept := by
  unfold zoom
  cases hx : x (view s) with
  | value a t =>
    rw [hx] at h
    exact h
  | refused e t =>
    rw [hx] at h
    exact h
  | halted => exact trivial

/-- Cleaning up leads from what a refusal leaves to what is left in the end. -/
theorem meets_onRefusal {x : Action σ α} {cleanup : Action σ Unit} {K : σ → Prop}
    (h : (x s).Meets P K) (hcleanup : ∀ t, K t → (cleanup t).Meets (fun _ => kept') kept') :
    ((x.onRefusal cleanup) s).Meets P kept' := by
  unfold onRefusal
  cases hx : x s with
  | value a t =>
    rw [hx] at h
    exact h
  | halted => exact trivial
  | refused e t =>
    rw [hx] at h
    have hends := hcleanup t h
    dsimp only
    cases hc : cleanup t with
    | value a u =>
      rw [hc] at hends
      exact hends
    | refused e' u =>
      rw [hc] at hends
      exact hends
    | halted => exact trivial

end Meets

/-! ## Inversions -/

theorem bind_eq_value {x : Action σ α} {f : α → Action σ β} {b : β} {u : σ} :
    (x >>= f) s = .value b u ↔ ∃ a t, x s = .value a t ∧ f a t = .value b u := by
  rw [bind_apply]
  cases hx : x s with
  | value a t =>
    exact ⟨fun h => ⟨a, t, rfl, h⟩, fun ⟨a', t', ha, h⟩ => by cases ha; exact h⟩
  | refused e t => exact ⟨(fun h => nomatch h), (fun ⟨_, _, h, _⟩ => nomatch h)⟩
  | halted => exact ⟨(fun h => nomatch h), (fun ⟨_, _, h, _⟩ => nomatch h)⟩

theorem bind_of_value {x : Action σ α} {f : α → Action σ β} {a : α} {t : σ}
    (h : x s = .value a t) : (x >>= f) s = f a t := by
  rw [bind_apply, h]

theorem bind_of_refused {x : Action σ α} {f : α → Action σ β} {e : Error} {t : σ}
    (h : x s = .refused e t) : (x >>= f) s = .refused e t := by
  rw [bind_apply, h]

theorem bind_of_halted {x : Action σ α} {f : α → Action σ β} (h : x s = .halted) :
    (x >>= f) s = .halted := by
  rw [bind_apply, h]

theorem bind_ne_halted {x : Action σ α} {f : α → Action σ β} (h : (x >>= f) s ≠ .halted) :
    x s ≠ .halted := fun hx => h (bind_of_halted hx)

theorem lift_apply (x : Outcome α) : (liftM x : Action σ α) s = ofOutcome x s := rfl

theorem bind_lift_of_value {x : Outcome α} {f : α → Action σ β} {a : α} (h : x = .value a) :
    ((liftM x : Action σ α) >>= f) s = f a s := by
  rw [h]
  rfl

theorem bind_lift_of_some {x : Option α} {f : α → Action σ β} {a : α} (h : x = some a) :
    ((liftM x : Action σ α) >>= f) s = f a s := by
  rw [h]
  rfl

theorem bind_lift_of_none {x : Option α} {f : α → Action σ β} (h : x = none) :
    ((liftM x : Action σ α) >>= f) s = .halted := by
  rw [h]
  rfl

theorem mapM_lift (f : α → Outcome β) (as : List α) :
    (as.mapM fun a => (liftM (f a) : Action σ β)) = ofOutcome (as.mapM f) := by
  have hbind : ∀ {γ δ : Type} (x : Outcome γ) (g : γ → Outcome δ),
      (ofOutcome (x >>= g) : Action σ δ) = ofOutcome x >>= fun c => ofOutcome (g c) := by
    intro γ δ x g
    cases x <;> rfl
  induction as with
  | nil => rfl
  | cons a as ih =>
    rw [List.mapM_cons, List.mapM_cons, ih, hbind]
    refine congrArg _ (funext fun b => ?_)
    rw [hbind]
    rfl

theorem ofOutcome_eq_value {x : Outcome α} {a : α} {t : σ} :
    ofOutcome x s = .value a t ↔ x = .value a ∧ t = s := by
  cases x with
  | value b =>
    constructor
    · intro h
      cases h
      exact ⟨rfl, rfl⟩
    · rintro ⟨h, rfl⟩
      cases h
      rfl
  | refused e => exact ⟨(fun h => nomatch h), (fun ⟨h, _⟩ => nomatch h)⟩
  | halted => exact ⟨(fun h => nomatch h), (fun ⟨h, _⟩ => nomatch h)⟩

theorem onRefusal_eq_value {x : Action σ α} {cleanup : Action σ Unit} {a : α} {t : σ} :
    x.onRefusal cleanup s = .value a t ↔ x s = .value a t := by
  unfold onRefusal
  cases hx : x s with
  | value b u => exact Iff.rfl
  | refused e u =>
    dsimp only
    cases cleanup u <;> exact ⟨(fun h => nomatch h), (fun h => nomatch h)⟩
  | halted => exact Iff.rfl

theorem attempt_eq_ok {x : Action σ α} {a : α} {t : σ} :
    attempt x s = .value (.ok a) t ↔ x s = .value a t := by
  unfold attempt
  cases x s with
  | value b u => exact ⟨fun h => by cases h; rfl, fun h => by cases h; rfl⟩
  | refused e u => exact ⟨(fun h => nomatch h), (fun h => nomatch h)⟩
  | halted => exact ⟨(fun h => nomatch h), (fun h => nomatch h)⟩

theorem get_apply : (MonadState.get : Action σ σ) s = .value s s := rfl

theorem set_apply (t : σ) : (MonadStateOf.set t : Action σ PUnit) s = .value () t := rfl

theorem modify_apply (f : σ → σ) : (modify f : Action σ PUnit) s = .value () (f s) := rfl

end Action

end TensorGraph
