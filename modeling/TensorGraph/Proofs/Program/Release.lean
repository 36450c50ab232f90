/-
Releasing values is exact and harmless.

Kernels that are functions of a shape and of input values (`Compute.IsFunction`) cannot tell
whether a run keeps a value that it does not read again, so a run that lets go of values ends as
one that keeps them all: `Abreast.walk` goes through the instructions of both runs side by side.
Who passes an argument holds it throughout, and so does the program with its residents, so what is
let go is never the last holder of a buffer.  `run_release` puts this beside the exact account of
what is held at which point, which does not depend on the kernels at all.  The kernels that call no
device are such functions.
-/
import TensorGraph.Proofs.Program.Host
import TensorGraph.Proofs.Program.Walk

namespace TensorGraph

/-- Whether two computations end the same way: both halt, both are refused for one reason, or both
give values. -/
inductive Turn.Coincides {α β σ τ : Type} (R : α → σ → β → τ → Prop) (K : σ → τ → Prop) :
    Turn σ α → Turn τ β → Prop
  | value {a : α} {s : σ} {b : β} {t : τ} : R a s b t → Coincides R K (.value a s) (.value b t)
  | refused (e : Error) {s : σ} {t : τ} : K s t → Coincides R K (.refused e s) (.refused e t)
  | halted : Coincides R K .halted .halted

theorem Action.coincides_bind {α β γ δ σ τ : Type} {R : α → σ → β → τ → Prop} {K : σ → τ → Prop}
    {S : γ → σ → δ → τ → Prop} {x : Action σ α} {y : Action τ β} {f : α → Action σ γ}
    {g : β → Action τ δ} {s : σ} {t : τ} (h : (x s).Coincides R K (y t))
    (hf : ∀ a s' b t', R a s' b t' → (f a s').Coincides S K (g b t')) :
    ((x >>= f) s).Coincides S K ((y >>= g) t) := by
  rw [bind_apply, bind_apply]
  revert h
  generalize x s = first
  generalize y t = second
  intro h
  cases h with
  | value hr => exact hf _ _ _ _ hr
  | refused e hk => exact .refused e hk
  | halted => exact .halted

theorem Action.coincides_onRefusal {α β σ τ : Type} {R : α → σ → β → τ → Prop}
    {K L : σ → τ → Prop} {x : Action σ α} {y : Action τ β} {cleanup : Action σ Unit}
    {cleanup' : Action τ Unit} {s : σ} {t : τ} (h : (x s).Coincides R K (y t))
    (hcleanup : ∀ s' t', K s' t' → ∃ s'' t'', cleanup s' = .value () s'' ∧
      cleanup' t' = .value () t'' ∧ L s'' t'') :
    ((x.onRefusal cleanup) s).Coincides R L ((y.onRefusal cleanup') t) := by
  unfold onRefusal
  revert h
  generalize x s = first
  generalize y t = second
  intro h
  cases h with
  | value hr => exact .value hr
  | @refused e s' t' hk =>
    obtain ⟨s'', t'', hs, ht, hl⟩ := hcleanup s' t' hk
    dsimp only
    rw [hs, ht]
    exact .refused e hl
  | halted => exact .halted

namespace World

variable {w : World} {a : Argument} {H : List DeviceBuffer} {as : List Argument}

/-- Whether two worlds differ in the order of the holders only. -/
def Reordered (w w' : World) : Prop := ∃ held, w' = { w with held := held } ∧ w.held.Perm held

/-! ## Holders that are not the last -/

theorem retain_apply (a : Argument) (w : World) :
    retain a w = .value () { w with held := a.holds ++ w.held } := by
  unfold retain Argument.holds
  cases a.deviceBuffer? with
  | none => rfl
  | some b => rfl

/-- Nothing is freed while somebody else holds it. -/
theorem release_of_subset (h : w.held.Perm (a.holds ++ H)) (hsub : a.holds ⊆ H) :
    ∃ held, release a w = .value () { w with held := held } ∧ held.Perm H := by
  unfold Argument.holds at h hsub
  unfold release
  cases hb : a.deviceBuffer? with
  | none =>
    rw [hb] at h
    exact ⟨w.held, rfl, h⟩
  | some b =>
    rw [hb] at h hsub
    have herase := h.erase b
    rw [Option.toList_some, List.singleton_append, List.erase_cons_head] at herase
    have hmem : b ∈ w.held.erase b := herase.mem_iff.mpr (hsub (by simp))
    refine ⟨w.held.erase b, ?_, herase⟩
    show releaseBuffer b w = _
    unfold releaseBuffer
    rw [Action.bind_of_value (Action.modify_apply _), Action.bind_of_value Action.get_apply,
      if_neg (not_not.mpr hmem)]
    rfl

theorem forEach_release_of_subset (h : w.held.Perm (as.flatMap Argument.holds ++ H))
    (hsub : as.flatMap Argument.holds ⊆ H) :
    ∃ held, Action.forEach release as w = .value () { w with held := held } ∧ held.Perm H := by
  induction as generalizing w with
  | nil => exact ⟨w.held, rfl, h⟩
  | cons a as ih =>
    rw [List.flatMap_cons, List.append_subset] at hsub
    rw [List.flatMap_cons, List.append_assoc] at h
    obtain ⟨held, hrelease, hperm⟩ := release_of_subset h
      (List.subset_append_of_subset_right _ hsub.1)
    obtain ⟨held', hrest, hperm'⟩ := ih (w := { w with held := held }) hperm hsub.2
    refine ⟨held', ?_, hperm'⟩
    rw [Action.forEach_cons, Action.bind_of_value hrelease]
    exact hrest

end World

/-- Whether a kernel is a function of the shape and of the values of its inputs: it gives fresh
keys to what it makes on the host, and looks at nothing else of the world and changes nothing.  On
a device its value has no buffers but those of its inputs and those that are `known`. -/
def Compute.IsFunction (known : List DeviceBuffer) (c : Compute) : Prop :=
  ∃ f : Shape → List Argument → Action Nat Argument,
    (∀ s args, c s args = do
      let a ← Action.zoom World.nextKey (fun key w => { w with nextKey := key }) (f s args)
      World.retain a
      return a) ∧
    ∀ s args key a key', f s args key = .value a key' →
      a.holds ⊆ known ++ args.flatMap Argument.holds

namespace Program

open World (Reordered)

variable {kernels : Kernels} {params : Parameters} {values values₁ values₂ : Values}
variable {is : List Instruction} {i : Instruction} {last : List (Option Nat)} {output k m : Nat}
variable {w s t : World} {a : Argument} {H known : List DeviceBuffer} {p : Program}

/-! ## Releases that free nothing -/

theorem releaseValues_of_subset (h : w.held.Perm (heldBy values ++ H)) (hsub : heldBy values ⊆ H) :
    ∃ held, releaseValues values w = .value () { w with held := held } ∧ held.Perm H := by
  rw [heldBy_eq] at h hsub
  exact World.forEach_release_of_subset h hsub

theorem releaseDead_of_subset (last : List (Option Nat)) (m : Nat) (inputs : List Nat)
    (h : w.held.Perm (heldBy values ++ H))
    (hsub : heldBy values ⊆ H) :
    ∃ held, releaseDead last m values inputs w =
        .value (cleared last m values inputs) { w with held := held } ∧
      held.Perm (heldBy (cleared last m values inputs) ++ H) := by
  induction inputs generalizing values w with
  | nil => exact ⟨w.held, rfl, h⟩
  | cons r rest ih =>
    rcases releaseDead_cons last m values r rest with ⟨a, ha, heq, hclear⟩ | ⟨heq, hclear⟩
    · have hperm := heldBy_set_none ha
      have hsub' : a.holds ++ heldBy (values.set r none) ⊆ H := fun b hb =>
        hsub (hperm.mem_iff.mpr hb)
      rw [List.append_subset] at hsub'
      have hheld := h.trans (hperm.append_right H)
      rw [List.append_assoc] at hheld
      obtain ⟨held, hrelease, hperm'⟩ := World.release_of_subset hheld
        (List.subset_append_of_subset_right _ hsub'.1)
      obtain ⟨held', hrest, hperm''⟩ := ih (w := { w with held := held }) hperm' hsub'.2
      refine ⟨held', ?_, ?_⟩
      · rw [heq, hclear, Action.bind_of_value hrelease]
        exact hrest
      · rw [hclear]
        exact hperm''
    · rw [heq, hclear]
      exact ih h hsub

/-- A run goes on without freeing anything, if all that its values hold is held besides. -/
theorem releasing_of_subset (last : List (Option Nat)) (output : Nat) (i : Instruction)
    (h : w.held.Perm (a.holds ++ (heldBy values ++ H)))
    (hvalues : heldBy values ⊆ H) (ha : a.holds ⊆ H) (hfree : values[k]? = some none) :
    ∃ held, releasing last output k i values a w =
        .value (succeeding last output k values a i.inputs) { w with held := held } ∧
      held.Perm (heldBy (succeeding last output k values a i.inputs) ++ H) := by
  unfold releasing succeeding
  split
  · have hperm := heldBy_set_some a hfree
    apply releaseDead_of_subset
    · rw [← List.append_assoc] at h
      exact h.trans (hperm.symm.append_right H)
    · intro b hb
      rcases List.mem_append.mp (hperm.mem_iff.mp hb) with hb | hb
      · exact ha hb
      · exact hvalues hb
  · have hswap : (a.holds ++ (heldBy values ++ H)).Perm (heldBy values ++ (a.holds ++ H)) := by
      rw [← List.append_assoc, ← List.append_assoc]
      exact List.perm_append_comm.append_right H
    obtain ⟨held, hclear, hperm⟩ := releaseDead_of_subset last k i.inputs
      (h.trans hswap) (List.subset_append_of_subset_right _ hvalues)
    have hback : held.Perm (a.holds ++ (heldBy (cleared last k values i.inputs) ++ H)) := by
      refine hperm.trans ?_
      rw [← List.append_assoc, ← List.append_assoc]
      exact List.perm_append_comm.append_right H
    obtain ⟨held', hrelease, hperm'⟩ := World.release_of_subset (w := { w with held := held }) hback
      (List.subset_append_of_subset_right _ ha)
    refine ⟨held', ?_, hperm'⟩
    rw [Action.bind_of_value hclear, Action.bind_of_value hrelease]
    rfl

/-! ## Two runs side by side -/

/-- A run that lets go of values and one that keeps them all, at the same instruction.  They have
the same values where both have one, in worlds that differ in the holders only, and whatever the
values hold is held besides. -/
structure Abreast (is : List Instruction) (H : List DeviceBuffer) (k : Nat) (values₁ : Values)
    (s : World) (values₂ : Values) (t : World) : Prop where
  world : t = { s with held := t.held }
  held₁ : s.held.Perm (heldBy values₁ ++ H)
  held₂ : t.held.Perm (heldBy values₂ ++ H)
  subset : heldBy values₂ ⊆ H
  table : Held is k values₁
  length : values₂.length = is.length
  all : ∀ j : Nat, (∃ a, values₂[j]? = some (some a)) ↔ j < k
  same : ∀ (j : Nat) (a : Argument), values₁[j]? = some (some a) → values₂[j]? = some (some a)

theorem Abreast.subset₁ (h : Abreast is H k values₁ s values₂ t) : heldBy values₁ ⊆ H := by
  intro b hb
  obtain ⟨j, a, hj, hmem⟩ := exists_of_mem_heldBy hb
  exact h.subset (holds_subset_heldBy (h.same j a hj) hmem)

theorem inputValues_congr {inputs : List Nat} (h : ∀ r ∈ inputs, values₁[r]? = values₂[r]?) :
    inputValues k values₁ inputs = inputValues k values₂ inputs := by
  induction inputs with
  | nil => rfl
  | cons r inputs ih =>
    rw [List.forall_mem_cons] at h
    rw [inputValues, inputValues, h.1, ih h.2]

structure AbreastWith (H : List DeviceBuffer) (values₁ values₂ : Values) (a : Argument) (s : World)
    (b : Argument) (t : World) : Prop where
  value : a = b
  world : t = { s with held := t.held }
  held₁ : s.held.Perm (a.holds ++ (heldBy values₁ ++ H))
  held₂ : t.held.Perm (a.holds ++ (heldBy values₂ ++ H))
  subset : a.holds ⊆ H

theorem retain_abreastWith (hworld : t = { s with held := t.held })
    (held₁ : s.held.Perm (heldBy values₁ ++ H)) (held₂ : t.held.Perm (heldBy values₂ ++ H))
    (ha : a.holds ⊆ H) {K : World → World → Prop} :
    ((do World.retain a; return a : Action World Argument) s).Coincides
      (AbreastWith H values₁ values₂) K
      ((do World.retain a; return a : Action World Argument) t) := by
  rw [Action.bind_of_value (World.retain_apply a s), Action.bind_of_value (World.retain_apply a t)]
  refine .value ⟨rfl, ?_, held₁.append_left _, held₂.append_left _, ha⟩
  rw [hworld]

/-- A kernel that is a function gives the same in worlds that differ in the holders only. -/
theorem coincides_of_isFunction {c : Compute} {shape : Shape} {args : List Argument}
    (hc : c.IsFunction known) (hworld : t = { s with held := t.held })
    (held₁ : s.held.Perm (heldBy values₁ ++ H)) (held₂ : t.held.Perm (heldBy values₂ ++ H))
    (hknown : known ⊆ H) (hargs : args.flatMap Argument.holds ⊆ H) :
    (c shape args s).Coincides (AbreastWith H values₁ values₂)
      (fun s' t' => t' = { s' with held := t'.held } ∧ s'.held.Perm (heldBy values₁ ++ H) ∧
        t'.held.Perm (heldBy values₂ ++ H)) (c shape args t) := by
  obtain ⟨f, hf, hholds⟩ := hc
  have hkey : t.nextKey = s.nextKey := by rw [hworld]
  rw [hf shape args]
  refine Action.coincides_bind (R := fun a s' b t' => a = b ∧ a.holds ⊆ H ∧
    t' = { s' with held := t'.held } ∧ s'.held = s.held ∧ t'.held = t.held) ?_ ?_
  · unfold Action.zoom
    rw [hkey]
    cases hrun : f shape args s.nextKey with
    | halted => exact .halted
    | refused e key =>
      refine .refused e ⟨?_, held₁, held₂⟩
      rw [hworld]
    | value a key =>
      refine .value ⟨rfl, fun b hb => ?_, ?_, rfl, rfl⟩
      · rcases List.mem_append.mp (hholds _ _ _ _ _ hrun hb) with hb | hb
        · exact hknown hb
        · exact hargs hb
      · rw [hworld]
  · rintro a s' _ t' ⟨rfl, ha, hworld', hs, ht⟩
    exact retain_abreastWith hworld' (hs ▸ held₁) (ht ▸ held₂) ha

theorem Abreast.valueWith (h : Abreast is H k values₁ s values₂ t) (hb : Backward is)
    (hi : is[k]? = some i) (hknown : known ⊆ H)
    (hparams : ∀ name a, params.lookup name = some a → a.holds ⊆ H)
    (hkernels : ∀ c, kernels k = some c → c.IsFunction known) :
    (valueWith kernels params k i values₁ s).Coincides (AbreastWith H values₁ values₂)
      (fun s' t' => t' = { s' with held := t'.held } ∧ s'.held.Perm (heldBy values₁ ++ H) ∧
        t'.held.Perm (heldBy values₂ ++ H))
      (valueWith kernels params k i values₂ t) := by
  have hinputs : ∀ r ∈ i.inputs, values₁[r]? = values₂[r]? := by
    intro r hr
    obtain ⟨a, ha⟩ := (h.table.live_iff r).mpr (live_of_readsAt hb ⟨i, hi, hr⟩)
    rw [ha, h.same r a ha]
  have hstay : t = { s with held := t.held } ∧ s.held.Perm (heldBy values₁ ++ H) ∧
      t.held.Perm (heldBy values₂ ++ H) := ⟨h.world, h.held₁, h.held₂⟩
  by_cases hp : i.isParameter = true
  · obtain ⟨name, shape, hop⟩ := exists_parameter hp
    rw [valueWith_of_parameter hop, valueWith_of_parameter hop]
    cases hlookup : params.lookup name with
    | none => exact .refused _ hstay
    | some a => exact retain_abreastWith h.world h.held₁ h.held₂ (hparams name a hlookup)
  · rw [Bool.not_eq_true] at hp
    rw [valueWith_of_not_isParameter hp, valueWith_of_not_isParameter hp]
    cases hkernel : kernels k with
    | none => exact .refused _ hstay
    | some c =>
      dsimp only
      rw [inputValues_congr hinputs]
      obtain ⟨args, hargs⟩ := h.table.inputValues hb hi
      rw [inputValues_congr hinputs] at hargs
      rw [Action.bind_lift_of_value hargs, Action.bind_lift_of_value hargs]
      refine coincides_of_isFunction (hkernels c hkernel) h.world h.held₁ h.held₂ hknown ?_
      intro b hb'
      obtain ⟨x, hx, hmem⟩ := List.mem_flatMap.mp hb'
      obtain ⟨r, hr⟩ := mem_of_inputValues hargs x hx
      exact h.subset (holds_subset_heldBy hr hmem)

/-- Both runs let go of their values where one is refused. -/
theorem releaseValues_reordered (hworld : t = { s with held := t.held })
    (held₁ : s.held.Perm (heldBy values₁ ++ H)) (held₂ : t.held.Perm (heldBy values₂ ++ H))
    (hsub₁ : heldBy values₁ ⊆ H) (hsub₂ : heldBy values₂ ⊆ H) :
    ∃ s' t', releaseValues values₁ s = .value () s' ∧ releaseValues values₂ t = .value () t' ∧
      Reordered s' t' := by
  obtain ⟨held, hrelease, hperm⟩ := releaseValues_of_subset held₁ hsub₁
  obtain ⟨held', hrelease', hperm'⟩ := releaseValues_of_subset held₂ hsub₂
  refine ⟨_, _, hrelease, hrelease', held', ?_, hperm.trans hperm'.symm⟩
  rw [hworld]

theorem Abreast.advance {s₀ t₀ : World} {b : Argument} (h : Abreast is H k values₁ s₀ values₂ t₀)
    (hb : Backward is) (hl : LastReads is last) (hlength : last.length = is.length)
    (ho : output + 1 = is.length) (hi : is[k]? = some i)
    (hwith : AbreastWith H values₁ values₂ a s b t) :
    (releasing last output k i values₁ a s).Coincides (Abreast is H (k + 1)) Reordered
      (keeping k i values₂ b t) := by
  have hk := (List.getElem?_eq_some_iff.mp hi).1
  have hfree₁ : values₁[k]? = some none :=
    getElem?_eq_some_none (by rwa [h.table.length]) fun c hc =>
      Nat.lt_irrefl k ((h.table.live_iff k).mp ⟨c, hc⟩).1
  have hfree₂ : values₂[k]? = some none :=
    getElem?_eq_some_none (by rwa [h.length]) fun c hc =>
      Nat.lt_irrefl k ((h.all k).mp ⟨c, hc⟩)
  have hset := heldBy_set_some a hfree₂
  obtain ⟨held, hrelease, hperm⟩ := releasing_of_subset last output i hwith.held₁
    h.subset₁ hwith.subset hfree₁
  rw [hrelease]
  obtain rfl := hwith.value
  refine .value ⟨?_, hperm, ?_, ?_, ?_, ?_, ?_, ?_⟩
  · rw [hwith.world]
  · have hheld := hwith.held₂
    rw [← List.append_assoc] at hheld
    exact hheld.trans (hset.symm.append_right H)
  · intro c hc
    rcases List.mem_append.mp (hset.mem_iff.mp hc) with hc | hc
    · exact hwith.subset hc
    · exact h.subset hc
  · exact h.table.succeeding hl hlength hb hi ho a
  · rw [List.length_set, h.length]
  · intro j
    by_cases hj : j = k
    · subst hj
      rw [List.getElem?_set_self (by rw [h.length]; exact hk)]
      exact iff_of_true ⟨a, rfl⟩ (Nat.lt_succ_self j)
    · rw [List.getElem?_set_ne (Ne.symm hj), h.all]
      omega
  · intro j c hc
    by_cases hj : j = k
    · subst hj
      rw [List.getElem?_set_self (by rw [h.length]; exact hk)]
      rcases getElem?_of_succeeding hc with hold | ⟨-, rfl⟩
      · rw [hfree₁] at hold
        cases hold
      · rfl
    · rw [List.getElem?_set_ne (Ne.symm hj)]
      rcases getElem?_of_succeeding hc with hold | ⟨heq, -⟩
      · exact h.same j c hold
      · exact absurd heq hj

theorem Abreast.stepWith (h : Abreast is H k values₁ s values₂ t) (hb : Backward is)
    (hl : LastReads is last) (hlength : last.length = is.length) (ho : output + 1 = is.length)
    (hi : is[k]? = some i) (hknown : known ⊆ H)
    (hparams : ∀ name a, params.lookup name = some a → a.holds ⊆ H)
    (hkernels : ∀ c, kernels k = some c → c.IsFunction known) :
    (stepWith kernels params (releasing last output) k values₁ i s).Coincides
      (Abreast is H (k + 1)) Reordered (stepWith kernels params keeping k values₂ i t) := by
  unfold Program.stepWith
  apply Action.coincides_bind (Action.coincides_onRefusal
    (h.valueWith hb hi hknown hparams hkernels) ?_)
  · intro a s₁ b t₁ hwith
    have hsettings : t₁.settings = s₁.settings := by rw [hwith.world]
    rw [Action.bind_of_value Action.get_apply, Action.bind_of_value Action.get_apply, hsettings]
    obtain rfl := hwith.value
    split
    · apply h.advance hb hl hlength ho hi
      refine ⟨rfl, ?_, hwith.held₁, hwith.held₂, hwith.subset⟩
      rw [hwith.world]
    · exact h.advance hb hl hlength ho hi hwith
  · rintro s₁ t₁ ⟨hworld, held₁, held₂⟩
    exact releaseValues_reordered hworld held₁ held₂ h.subset₁ h.subset

theorem Abreast.walk {done rest : List Instruction}
    (h : Abreast is H done.length values₁ s values₂ t) (hb : Backward is) (hl : LastReads is last)
    (hlength : last.length = is.length) (ho : output + 1 = is.length) (his : is = done ++ rest)
    (hknown : known ⊆ H) (hparams : ∀ name a, params.lookup name = some a → a.holds ⊆ H)
    (hkernels : ∀ k c, kernels k = some c → c.IsFunction known) :
    (walk kernels params (releasing last output) done.length values₁ rest s).Coincides
      (Abreast is H is.length) Reordered
      (walk kernels params keeping done.length values₂ rest t) := by
  induction rest generalizing done values₁ values₂ s t with
  | nil =>
    rw [List.append_nil] at his
    rw [← his] at h ⊢
    exact .value h
  | cons i rest ih =>
    have hi : is[done.length]? = some i := by simp [his]
    apply Action.coincides_bind
      (h.stepWith hb hl hlength ho hi hknown hparams (hkernels done.length))
    intro values₁' s' values₂' t' hnext
    have hlen : done.length + 1 = (done ++ [i]).length := by simp
    rw [hlen] at hnext ⊢
    exact ih hnext (by simp [his])

theorem abreast_zero (hsub : w.held.Perm H) (is : List Instruction) :
    Abreast is H 0 (List.replicate is.length none) w (List.replicate is.length none) w := by
  have hnone : heldBy (List.replicate is.length none) = [] := by rw [heldBy, kept_replicate]; rfl
  refine ⟨rfl, ?_, ?_, ?_, held_zero is, List.length_replicate, ?_, fun _ _ hj => hj⟩
  · rw [hnone]
    exact hsub
  · rw [hnone]
    exact hsub
  · rw [hnone]
    exact List.nil_subset _
  · intro j
    refine iff_of_false ?_ (Nat.not_lt_zero j)
    rintro ⟨a, ha⟩
    exact getElem?_replicate_none _ j a ha

/-- The end of both runs: the value of the output, and nothing else is held any more. -/
theorem Abreast.finish (h : Abreast is H is.length values₁ s values₂ t)
    (ho : output + 1 = is.length) :
    ∃ a s' t', values₁.getD output none = some a ∧ values₂.getD output none = some a ∧
      releaseValues (values₁.set output none) s = .value () s' ∧
      releaseValues (values₂.set output none) t = .value () t' ∧ Reordered s' t' := by
  obtain ⟨a, ha⟩ := (h.table.live_iff output).mpr (live_length_iff.mpr ho)
  have hb := h.same output a ha
  have hsub : ∀ {values : Values}, values[output]? = some (some a) → heldBy values ⊆ H →
      heldBy (values.set output none) ⊆ a.holds ++ H := by
    intro values hv hvalues b hmem
    exact List.mem_append_right _ (hvalues ((heldBy_set_none hv).mem_iff.mpr
      (List.mem_append_right _ hmem)))
  have hperm : ∀ {values : Values}, values[output]? = some (some a) →
      (heldBy values ++ H).Perm (heldBy (values.set output none) ++ (a.holds ++ H)) := by
    intro values hv
    rw [← List.append_assoc]
    exact ((heldBy_set_none hv).trans List.perm_append_comm).append_right H
  obtain ⟨s', t', hs, ht, hreordered⟩ := releaseValues_reordered h.world
    (h.held₁.trans (hperm ha)) (h.held₂.trans (hperm hb)) (hsub ha h.subset₁) (hsub hb h.subset)
  refine ⟨a, s', t', ?_, ?_, hs, ht, hreordered⟩
  · exact getD_eq_some.mpr ha
  · exact getD_eq_some.mpr hb

theorem output_succ_of_output? (h : p.output? = some output) :
    output + 1 = p.instructions.length := by
  unfold output? at h
  split at h
  · cases h
  · next hne =>
    cases h
    rw [List.isEmpty_iff] at hne
    have hpos := List.length_pos_iff.mpr hne
    unfold size
    omega

/-- An evaluation that lets go of values ends as one that keeps them. -/
theorem runWith_coincides (hb : Backward p.instructions) (hknown : known ⊆ w.held)
    (hparams : ∀ name a, params.lookup name = some a → a.holds ⊆ w.held)
    (hkernels : ∀ k c, kernels k = some c → c.IsFunction known) :
    (runWith kernels p params w).Coincides (fun a s b t => a = b ∧ Reordered s t) Reordered
      (runKeeping kernels p params w) := by
  have hsame : Reordered w w := ⟨w.held, rfl, .refl _⟩
  unfold runWith runKeeping evaluateBy
  split
  · exact .refused _ hsame
  · have hlift : ((liftM (checkParameters params p.parameters) : Action World Unit) w).Coincides
        (fun _ s _ t => s = w ∧ t = w) Reordered
        ((liftM (checkParameters params p.parameters) : Action World Unit) w) := by
      rw [Action.lift_apply]
      cases checkParameters params p.parameters with
      | value u => exact .value ⟨rfl, rfl⟩
      | refused e => exact .refused e hsame
      | halted => exact .halted
    apply Action.coincides_bind hlift
    rintro _ _ _ _ ⟨hs, ht⟩
    rw [hs, ht]
    cases houtput : p.output? with
    | none => exact .refused _ hsame
    | some output =>
      have ho := output_succ_of_output? houtput
      obtain ⟨last, hlast, hlength, hl⟩ := exists_lastUses_of_backward hb
      dsimp only
      rw [bind_assoc, Action.bind_lift_of_some hlast]
      have hstart : Abreast p.instructions w.held ([] : List Instruction).length _ w _ w :=
        abreast_zero (.refl _) p.instructions
      apply Action.coincides_bind (hstart.walk hb hl hlength ho rfl hknown hparams hkernels)
      intro values₁ s values₂ t h
      obtain ⟨a, s', t', ha₁, ha₂, hs, ht, hreordered⟩ := h.finish ho
      rw [ha₁, ha₂]
      dsimp only
      rw [Action.bind_of_value hs, Action.bind_of_value ht]
      exact .value ⟨rfl, hreordered⟩

end Program

/-! ## Kernels that are functions -/

def BoundKernel.callsDevice : BoundKernel → Bool
  | upload _ | download | launch _ _ => true
  | _ => false

def BoundKernel.value (c : BoundKernel) (s : Shape) (args : List Argument) : Action Nat Argument :=
  match c with
  | host op => fun key => Action.ofOutcome (Kernel.onHost key op s args) (key + 1)
  | literal l => pure (.ofLiteral l)
  | resident a => pure a
  | view _ =>
    match args with
    | a :: _ => Action.ofOutcome (a.withShape s)
    | [] => Action.halt
  | _ => Action.halt

theorem BoundKernel.compute_eq_value {c : BoundKernel} (hc : c.callsDevice = false) (s : Shape)
    (args : List Argument) : c.compute s args = do
      let a ← Action.zoom World.nextKey (fun key w => { w with nextKey := key }) (c.value s args)
      World.retain a
      return a := by
  funext w
  cases c with
  | upload | download | launch => cases hc
  | literal | resident => rfl
  | host op =>
    have hleft : (host op).compute s args w =
        (Action.ofOutcome (Kernel.onHost w.nextKey op s args) >>= fun a => do
          World.retain a
          return a) { w with nextKey := w.nextKey + 1 } := rfl
    rw [hleft, Action.bind_apply, Action.bind_apply]
    dsimp only [value, Action.zoom]
    cases Kernel.onHost w.nextKey op s args <;> rfl
  | view name =>
    cases args with
    | nil => rfl
    | cons a rest =>
      have hleft : (view name).compute s (a :: rest) w =
          (Action.ofOutcome (a.withShape s) >>= fun a => do
            World.retain a
            return a) w := rfl
      rw [hleft, Action.bind_apply, Action.bind_apply]
      dsimp only [value, Action.zoom]
      cases a.withShape s <;> rfl

/-- A kernel that calls no device is a function. -/
theorem BoundKernel.isFunction_compute {known : List DeviceBuffer} {c : BoundKernel}
    (hc : c.callsDevice = false) (hknown : ∀ b, c.resident? = some b → b ∈ known) :
    Compute.IsFunction known c.compute := by
  refine ⟨c.value, compute_eq_value hc, fun s args key a key' h => ?_⟩
  cases c with
  | upload | download | launch => cases hc
  | host op =>
    obtain ⟨hvalue, -⟩ := Action.ofOutcome_eq_value.mp h
    apply List.subset_append_of_subset_right
    rcases Kernel.holds_of_onHost hvalue with hnil | ⟨b, hb, heq⟩
    · rw [hnil]
      exact List.nil_subset _
    · rw [heq]
      exact fun c hc => List.mem_flatMap.mpr ⟨b, hb, hc⟩
  | literal =>
    cases h
    exact List.nil_subset _
  | resident a =>
    cases h
    intro b hb
    exact List.mem_append_left _ (hknown b (Option.mem_toList.mp hb))
  | view =>
    cases args with
    | nil => cases h
    | cons b rest =>
      obtain ⟨hvalue, -⟩ := Action.ofOutcome_eq_value.mp h
      apply List.subset_append_of_subset_right
      rw [Argument.holds_of_withShape hvalue, List.flatMap_cons]
      exact List.subset_append_left _ _

namespace Program

open World (Reordered)

/-! ## Evaluation -/

/-- Releasing values is exact and harmless.  A run is an evaluation with the bound kernels; with
kernels that are functions it ends as the evaluation that keeps every value, with the same buffers
held; and with any kernels, errors and devices included, after each of its instructions it holds
the values with a use to come and no others, so the next one finds what it reads. -/
theorem run_release (kernels : Kernels) (p : Program) (params : Parameters) (w : World)
    (hb : Backward p.instructions) :
    p.run params = runWith p.bound p params ∧
    (∀ known, known ⊆ w.held → (∀ name a, params.lookup name = some a → a.holds ⊆ w.held) →
      (∀ k c, kernels k = some c → c.IsFunction known) →
      (runWith kernels p params w).Coincides (fun a s b t => a = b ∧ Reordered s t) Reordered
        (runKeeping kernels p params w)) ∧
    ∃ last, lastUses p = some last ∧
      ∀ output, p.output? = some output → ∀ done rest, p.instructions = done ++ rest →
        let begin := walk kernels params (releasing last output) 0 (List.replicate p.size none)
        begin p.instructions = begin done >>= (fun values =>
          walk kernels params (releasing last output) done.length values rest) ∧
        ∀ start values end', begin done start = .value values end' →
          (∀ j : Nat, (∃ a, values[j]? = some (some a)) ↔
            j < done.length ∧ (j = output ∨ ∃ m, done.length ≤ m ∧ ReadsAt p.instructions m j)) ∧
          ∀ i ∈ rest.head?, ∃ args, inputValues done.length values i.inputs = .value args := by
  refine ⟨run_eq_runWith p params, fun known hknown hparams hkernels =>
    runWith_coincides hb hknown hparams hkernels, ?_⟩
  obtain ⟨last, hlast, hlength, hl⟩ := exists_lastUses_of_backward hb
  refine ⟨last, hlast, fun output houtput done rest his => ⟨?_, fun start values end' hwalk => ?_⟩⟩
  · rw [his, walk_append, Nat.zero_add]
  have ho := output_succ_of_output? houtput
  have hheld : Held p.instructions done.length values := by
    have hstart : Held p.instructions ([] : List Instruction).length _ := held_zero p.instructions
    have h := held_of_walk hstart hl hlength hb ho his hwalk
    rwa [List.length_nil, Nat.zero_add] at h
  constructor
  · intro j
    rw [hheld.live_iff, Live]
    apply and_congr_right
    intro _
    apply or_congr_left
    omega
  · intro i hi
    apply hheld.inputValues hb
    rw [his, List.getElem?_append_right le_rfl, Nat.sub_self, ← List.head?_eq_getElem?]
    exact hi

def doubled : Program where
  instructions :=
    [{ op := .parameter "x" matrix, inputs := [], shape := matrix },
     { op := .add, inputs := [0, 0], shape := matrix, kernel := some (.host .add) },
     { op := .transpose [1, 0], inputs := [1], shape := ⟨.float, [⟨3, 1⟩, ⟨2, 3⟩]⟩,
       kernel := some (.host (.transpose [1, 0])) }]
  parameters := [("x", matrix)]
  target := some .host

theorem run_release_doubled : Backward doubled.instructions ∧
    (∀ k c, doubled.bound k = some c → c.IsFunction []) ∧
    (doubled.run [("x", oneToSix)] {}).Coincides (fun a s b t => a = b ∧ Reordered s t) Reordered
      (runKeeping doubled.bound doubled [("x", oneToSix)] {}) ∧
    ∃ a w, doubled.run [("x", oneToSix)] {} = .value a w := by
  have hb : Backward doubled.instructions := by
    intro k r hkr
    obtain ⟨i, hi, hr⟩ := hkr
    match k with
    | 0 => cases hi; cases hr
    | 1 => cases hi; simp at hr; omega
    | 2 => cases hi; simp at hr; omega
  have hkernels : ∀ k c, doubled.bound k = some c → c.IsFunction [] := by
    intro k c hc
    match k with
    | 0 => cases hc
    | 1 => cases hc; exact BoundKernel.isFunction_compute rfl (fun _ h => nomatch h)
    | 2 => cases hc; exact BoundKernel.isFunction_compute rfl (fun _ h => nomatch h)
  obtain ⟨hrun, hsame, -⟩ := run_release doubled.bound doubled [("x", oneToSix)] {} hb
  rw [hrun]
  refine ⟨hb, hkernels, hsame [] (List.nil_subset _) ?_ hkernels, ?_⟩
  · intro name a ha
    obtain ⟨b, hb, -⟩ := hostParameters_oneToSix name a ha
    rw [Argument.holds, Argument.deviceBuffer?, hb]
    exact List.nil_subset _
  · rw [← hrun]
    exact ⟨_, _, rfl⟩

end Program
end TensorGraph
