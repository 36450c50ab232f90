/-
Computations that end alike.

`Foretells` compares two computations by how they end: where the first gives a value so does the
second, where it is refused the second is refused for the same reason, and in either case the
states that they leave are related.  Where the first halts nothing is said, so the comparison has
a direction.  `short` allows the second to go on where the first ran short of memory.  The lemmas
follow the ways in which computations are put together.
-/
import TensorGraph.Proofs.Ending

namespace TensorGraph

variable {α β γ δ σ τ : Type}

/-- Whether a request was refused for want of memory on a device. -/
def Error.OutOfMemory (e : Error) : Prop :=
  ∃ requested used capacity, e = .device .alloc (.outOfMemory requested used capacity)

inductive Outcome.Alike (R : α → β → Prop) : Outcome α → Outcome β → Prop
  | value {a : α} {b : β} : R a b → Alike R (.value a) (.value b)
  | refused (e : Error) : Alike R (.refused e) (.refused e)
  | halted : Alike R .halted .halted

namespace Outcome

variable {R : α → β → Prop} {S : γ → δ → Prop} {x : Outcome α} {y : Outcome β}

theorem alike_self (x : Outcome α) : x.Alike Eq x := by
  cases x with
  | value a => exact .value rfl
  | refused e => exact .refused e
  | halted => exact .halted

theorem Alike.bind {f : α → Outcome γ} {g : β → Outcome δ} (h : x.Alike R y)
    (hf : ∀ a b, x = .value a → R a b → (f a).Alike S (g b)) : (x >>= f).Alike S (y >>= g) := by
  cases h with
  | value hab => exact hf _ _ rfl hab
  | refused e => exact .refused e
  | halted => exact .halted

theorem Alike.mono {Q : α → β → Prop} (h : x.Alike R y)
    (hrq : ∀ a b, x = .value a → R a b → Q a b) : x.Alike Q y := by
  cases h with
  | value hab => exact .value (hrq _ _ rfl hab)
  | refused e => exact .refused e
  | halted => exact .halted

theorem alike_mapM {f : α → Outcome γ} {g : β → Outcome δ} {as : List α} {bs : List β}
    (h : List.Forall₂ (fun a b => (f a).Alike S (g b)) as bs) :
    (as.mapM f).Alike (List.Forall₂ S) (bs.mapM g) := by
  induction h with
  | nil => exact .value .nil
  | cons hab _ ih =>
    rw [List.mapM_cons, List.mapM_cons]
    refine hab.bind fun c d _ hcd => ?_
    exact ih.bind fun cs ds _ hcds => .value (.cons hcd hcds)

end Outcome

/-- Whether the end of one computation tells that of another, unless it halts. -/
def Turn.Foretells (short : Prop) (R : α → σ → β → τ → Prop) (K : σ → τ → Prop) (x : Turn σ α)
    (y : Turn τ β) : Prop :=
  match x with
  | .value a s => ∃ b t, y = .value b t ∧ R a s b t
  | .refused e s => (∃ t, y = .refused e t ∧ K s t) ∨ short ∧ e.OutOfMemory
  | .halted => True

namespace Turn

variable {short : Prop} {P R : α → σ → β → τ → Prop} {K L : σ → τ → Prop} {x : Turn σ α}
variable {y : Turn τ β}

theorem Foretells.mono {short' : Prop} (h : x.Foretells short P K y) (hshort : short → short')
    (hpr : ∀ a s b t, P a s b t → R a s b t) (hk : ∀ s t, K s t → L s t) :
    x.Foretells short' R L y := by
  cases x with
  | value a s =>
    obtain ⟨b, t, rfl, hp⟩ := h
    exact ⟨b, t, rfl, hpr a s b t hp⟩
  | refused e s =>
    exact h.imp (fun ⟨t, hy, hst⟩ => ⟨t, hy, hk s t hst⟩) fun ⟨hs, he⟩ => ⟨hshort hs, he⟩
  | halted => exact trivial

/-- What is never refused runs in any comparison. -/
theorem Foretells.of_never (h : x.Foretells False P (fun _ _ => False) y) :
    x.Foretells short P K y :=
  h.mono False.elim (fun _ _ _ _ hp => hp) fun _ _ => False.elim

end Turn

namespace Action

variable {short : Prop} {s : σ} {t : τ} {R : α → σ → β → τ → Prop} {S : γ → σ → δ → τ → Prop}
variable {K L : σ → τ → Prop} {x : Action σ α} {y : Action τ β}

theorem foretells_bind {f : α → Action σ γ} {g : β → Action τ δ}
    (h : (x s).Foretells short R K (y t))
    (hf : ∀ a s' b t', R a s' b t' → (f a s').Foretells short S K (g b t')) :
    ((x >>= f) s).Foretells short S K ((y >>= g) t) := by
  rw [bind_apply, bind_apply]
  cases hx : x s with
  | value a s' =>
    rw [hx] at h
    obtain ⟨b, t', hy, hr⟩ := h
    rw [hy]
    exact hf a s' b t' hr
  | refused e s' =>
    rw [hx] at h
    refine h.imp_left ?_
    rintro ⟨t', hy, hk⟩
    rw [hy]
    exact ⟨t', rfl, hk⟩
  | halted => exact trivial

theorem foretells_ofOutcome {x : Outcome α} {y : Outcome β} {Q : α → β → Prop} (h : x.Alike Q y)
    (hR : ∀ a b, x = .value a → Q a b → R a s b t) (hK : K s t) :
    (ofOutcome x s).Foretells short R K (ofOutcome y t) := by
  cases h with
  | value hab => exact ⟨_, _, rfl, hR _ _ rfl hab⟩
  | refused e => exact Or.inl ⟨_, rfl, hK⟩
  | halted => exact trivial

theorem foretells_lift {x : Outcome α} {R : α → σ → α → τ → Prop}
    (hR : ∀ a, x = .value a → R a s a t) (hK : K s t) :
    (ofOutcome x s).Foretells short R K (ofOutcome x t) :=
  foretells_ofOutcome x.alike_self (fun a _ ha heq => heq ▸ hR a ha) hK

/-- Cleaning up that is not refused leads from what refusals leave to what is left in the end. -/
theorem foretells_onRefusal {cleanup : Action σ Unit} {cleanup' : Action τ Unit}
    (h : (x s).Foretells short R L (y t))
    (hcleanup : ∀ s t, L s t → (cleanup s).Foretells False (fun _ s _ t => K s t)
      (fun _ _ => False) (cleanup' t)) :
    ((x.onRefusal cleanup) s).Foretells short R K ((y.onRefusal cleanup') t) := by
  unfold onRefusal
  cases hx : x s with
  | value a s' =>
    rw [hx] at h
    obtain ⟨b, t', hy, hr⟩ := h
    rw [hy]
    exact ⟨b, t', rfl, hr⟩
  | halted => exact trivial
  | refused e s' =>
    rw [hx] at h
    rcases h with ⟨t', hy, hk⟩ | hshort
    · rw [hy]
      dsimp only
      have hends := hcleanup s' t' hk
      cases hc : cleanup s' with
      | value u s'' =>
        rw [hc] at hends
        obtain ⟨u', t'', hc', hk'⟩ := hends
        rw [hc']
        exact Or.inl ⟨t'', rfl, hk'⟩
      | refused e' s'' =>
        rw [hc] at hends
        obtain ⟨t'', -, hfalse⟩ | ⟨hfalse, -⟩ := hends <;> exact hfalse.elim
      | halted => exact trivial
    · dsimp only
      cases cleanup s' with
      | value u s'' => exact Or.inr hshort
      | refused e' s'' => exact Or.inr hshort
      | halted => exact trivial

end Action

end TensorGraph
