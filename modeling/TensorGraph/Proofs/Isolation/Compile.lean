/-
Compilations in two worlds.

Compiling one program for targets that differ in the device only gives programs that differ in
their kernels only, and links the constants that were moved.  While nothing is bound a program
holds nothing, so passes do the same in both worlds; from then on what has been bound in either
world is what a refusal gives back.
-/
import TensorGraph.Proofs.Isolation.Kernels

namespace TensorGraph

inductive Backend.Alike (here there : DeviceId) : Backend → Backend → Prop
  | host (refused : List String) : Alike here there (.host refused) (.host refused)
  | device : Alike here there (.device here) (.device there)

structure Target.Alike (here there : DeviceId) (t₁ t₂ : Target) : Prop where
  name : t₂.name = t₁.name
  passes : t₂.passes = t₁.passes
  backend : Backend.Alike here there t₁.backend t₂.backend

theorem Target.alike_device (here there : DeviceId) (offload : Bool) :
    Target.Alike here there (.device here offload) (.device there offload) := ⟨rfl, rfl, .device⟩

theorem Argument.links_self_subset {a : Argument} {bs : List DeviceBuffer} (h : a.holds ⊆ bs) :
    a.links a ⊆ bs.map fun b => (b, b) := by
  intro r hr
  unfold Argument.holds at h
  unfold Argument.links at hr
  cases hb : a.deviceBuffer? with
  | none =>
    rw [hb] at hr
    cases hr
  | some b =>
    rw [hb] at hr h
    rw [List.mem_singleton.mp hr]
    exact List.mem_map.mpr ⟨b, h List.mem_cons_self, rfl⟩

namespace Program

variable {c : Comparison} {ps : List Pair} {w₁ w₂ : World} {p p₁ p₂ : Program} {t₁ t₂ : Target}
variable {i₁ i₂ j₁ j₂ : Instruction} {is₁ is₂ : List Instruction} {k₁ k₂ : BoundKernel}
variable {here there : DeviceId} {position r : Nat} {short : Prop}

/-! ## What programs hold -/

theorem map_fst_links (h : i₁.Alike here there i₂) :
    (i₁.links i₂).map Prod.fst = i₁.resident?.toList := by
  have hresident := h.resident
  unfold Instruction.links
  cases h₁ : i₁.resident? <;> cases h₂ : i₂.resident? <;> rw [h₁, h₂] at hresident
  · rfl
  · cases hresident
  · cases hresident
  · rfl

theorem map_snd_links (h : i₁.Alike here there i₂) :
    (i₁.links i₂).map Prod.snd = i₂.resident?.toList := by
  have hresident := h.resident
  unfold Instruction.links
  cases h₁ : i₁.resident? <;> cases h₂ : i₂.resident? <;> rw [h₁, h₂] at hresident
  · rfl
  · cases hresident
  · cases hresident
  · rfl

/-- The buffers that programs link are those that either holds. -/
theorem Resembles.residents (h : p₁.Resembles here there p₂) :
    (p₁.links p₂).map Prod.fst = p₁.residents ∧ (p₁.links p₂).map Prod.snd = p₂.residents := by
  obtain ⟨hall, -, -⟩ := h
  unfold links Program.residents
  generalize p₁.instructions = is₁, p₂.instructions = is₂ at hall
  induction hall with
  | nil => exact ⟨rfl, rfl⟩
  | cons hi _ ih =>
    have hcons : ∀ (i : Instruction) (is : List Instruction),
        (i :: is).filterMap (fun i => i.kernel.bind BoundKernel.resident?) =
          i.resident?.toList ++ is.filterMap fun i => i.kernel.bind BoundKernel.resident? :=
      filterMap_resident?_cons
    rw [List.zip_cons_cons, List.flatMap_cons, List.map_append, List.map_append, map_fst_links hi,
      map_snd_links hi, hcons, hcons, ih.1, ih.2]
    exact ⟨rfl, rfl⟩

theorem resembles_self (here there : DeviceId) (p : Program) : p.Resembles here there p :=
  ⟨List.forall₂_same.mpr fun i _ => i.alike_self here there, rfl, rfl⟩

theorem links_self (h : p.residents = []) : p.links p = [] := by
  have hfst := (resembles_self 0 0 p).residents.1
  rwa [h, List.map_eq_nil_iff] at hfst

/-- What is linked of a program with itself is each buffer that it holds, beside itself. -/
theorem links_self_subset {bs : List DeviceBuffer} (h : p.residents ⊆ bs) :
    p.links p ⊆ bs.map fun b => (b, b) := by
  intro r hr
  unfold links at hr
  obtain ⟨⟨i, j⟩, hij, hr⟩ := List.mem_flatMap.mp hr
  obtain ⟨n, hn⟩ := List.mem_iff_getElem?.mp hij
  obtain ⟨hi, hj⟩ := List.getElem?_zip_eq_some.mp hn
  cases hi.symm.trans hj
  unfold Instruction.links at hr
  cases hresident : i.resident? with
  | none =>
    rw [hresident] at hr
    cases hr
  | some b =>
    rw [hresident] at hr
    rw [List.mem_singleton.mp hr]
    have hmem := List.mem_filterMap.mpr ⟨i, List.mem_of_getElem? hi, hresident⟩
    exact List.mem_map.mpr ⟨b, h hmem, rfl⟩

/-! ## Passes -/

/-- A pass over a program that holds nothing does the same in both worlds. -/
theorem passRun_foretells (h : Linked c [] w₁ w₂) (hp : p.residents = []) (pass : Pass) :
    (pass.run p w₁).Foretells short
      (fun r₁ w₁ r₂ w₂ => r₁ = r₂ ∧ r₁.1.residents = [] ∧ Linked c [] w₁ w₂) (fun _ _ => False)
      (pass.run p w₂) := by
  have hsurrendered : ∀ q : Program, World.surrendered p.residents q.residents = [] := by
    intro q
    have hnil : ∀ bs : List DeviceBuffer, bs.foldl List.erase [] = [] := by
      intro bs
      induction bs with
      | nil => rfl
      | cons b bs ih => exact ih
    rw [hp]
    exact hnil _
  have hsheds := sheds_apply pass p
  have hresidents : ∀ q, Sheds p q → q.residents = [] := fun q hq =>
    List.sublist_nil.mp (hp ▸ hq.residents)
  unfold Pass.run
  cases happly : pass.apply p with
  | halted => exact trivial
  | value u q =>
    rw [happly] at hsheds
    dsimp only
    rw [hsurrendered]
    cases pass.report p q with
    | none => exact ⟨_, _, rfl, rfl, hresidents q hsheds, h⟩
    | some report =>
      exact Action.foretells_bind (R := fun _ w₁ _ w₂ => Linked c [] w₁ w₂) ⟨_, _, rfl, h⟩
        fun _ w₁ _ w₂ h => Action.foretells_bind (h.note _ _ _ _).of_never fun _ _ _ _ h =>
          ⟨_, _, rfl, rfl, hresidents q hsheds, h⟩
  | refused e q =>
    rw [happly] at hsheds
    dsimp only
    rw [hsurrendered]
    exact ⟨_, _, rfl, rfl, hresidents q hsheds, h⟩

theorem releaseProgram_of_nil (h : p.residents = []) : World.releaseProgram p = pure () := by
  unfold World.releaseProgram
  rw [h]
  rfl

theorem lower_foretells {passes : List Pass} (ht : t₂.name = t₁.name) (h : Linked c [] w₁ w₂)
    (hp : p.residents = []) :
    (lower t₁ p passes w₁).Foretells short
      (fun q₁ w₁ q₂ w₂ => q₁ = q₂ ∧ q₁.residents = [] ∧ Linked c [] w₁ w₂) (Linked c [])
      (lower t₂ p passes w₂) := by
  induction passes generalizing p w₁ w₂ with
  | nil => exact ⟨_, _, rfl, rfl, hp, h⟩
  | cons pass rest ih =>
    unfold lower
    refine Action.foretells_bind ((passRun_foretells h hp pass).mono id (fun _ _ _ _ hr => hr)
      fun _ _ => False.elim) ?_
    rintro ⟨q, stopped⟩ w₁ _ w₂ ⟨rfl, hq, h⟩
    cases stopped with
    | some e =>
      dsimp only
      rw [releaseProgram_of_nil hq]
      exact Or.inl ⟨_, rfl, h⟩
    | none =>
      dsimp only
      rw [Action.bind_of_value Action.get_apply, Action.bind_of_value Action.get_apply, h.settings,
        ht]
      split
      · exact Action.foretells_bind (h.note _ _ _ _).of_never fun _ _ _ _ h => ih h hq
      · exact ih h hq

/-! ## Kernels -/

theorem get_alike (h : p₁.Resembles here there p₂) (r : Nat) :
    (p₁.get r).Alike (fun i₁ i₂ => p₁.instructions[r]? = some i₁ ∧
      p₂.instructions[r]? = some i₂ ∧ i₁.Alike here there i₂) (p₂.get r) := by
  unfold Program.get
  rw [h.size]
  cases hi₁ : p₁.instructions[r]? with
  | none =>
    have hlen := List.getElem?_eq_none_iff.mp hi₁
    rw [List.getElem?_eq_none_iff.mpr (h.instructions.length_eq ▸ hlen)]
    exact .refused _
  | some i₁ =>
    obtain ⟨i₂, hi₂, hi⟩ := h.exists_right hi₁
    rw [hi₂]
    exact .value ⟨rfl, rfl, hi⟩

/-- Whether alike kernels hold the buffers of a pair, or neither holds one, besides what is
held. -/
def Binds (c : Comparison) (ps : List Pair) (k₁ : BoundKernel) (w₁ : World) (k₂ : BoundKernel)
    (w₂ : World) : Prop :=
  k₁.Alike c.here c.there k₂ ∧
    (k₁.resident? = none ∧ k₂.resident? = none ∧ Linked c ps w₁ w₂ ∨
      ∃ p, k₁.resident? = some p.1 ∧ k₂.resident? = some p.2 ∧ Linked c (p :: ps) w₁ w₂)

/-- Both devices have a kernel to launch or neither has. -/
theorem launch_foretells (h : Linked c ps w₁ w₂) (target : String) (op : Operator) (s : Shape) :
    ((do
      let some d := (← MonadState.get).devices[c.here]? | Action.halt
      if op.isCompute && d.supports op s.dtype then return BoundKernel.launch op c.here
      else
        Action.refuse (.lowering op.name (target ++ ":" ++ deviceName)
          (.noKernelProducing s.dtype)) : Action World BoundKernel) w₁).Foretells c.short
      (Binds c ps) (Linked c ps) ((do
      let some d := (← MonadState.get).devices[c.there]? | Action.halt
      if op.isCompute && d.supports op s.dtype then return BoundKernel.launch op c.there
      else
        Action.refuse (.lowering op.name (target ++ ":" ++ deviceName)
          (.noKernelProducing s.dtype)) : Action World BoundKernel) w₂) := by
  rw [Action.bind_of_value Action.get_apply, Action.bind_of_value Action.get_apply]
  rcases Option.eq_none_or_eq_some w₁.devices[c.here]? with hnone | ⟨d₁, hd₁⟩
  · rw [hnone]
    exact trivial
  · obtain ⟨d₂, hd₂, hkin, -⟩ := h.exists_devices hd₁
    have hsupports : d₂.supports op s.dtype = d₁.supports op s.dtype := by
      unfold Device.supports
      rw [hkin.unsupported]
    rw [hd₁, hd₂]
    dsimp only
    rw [hsupports]
    split
    · exact ⟨_, _, rfl, .launch _, Or.inl ⟨rfl, rfl, h⟩⟩
    · exact Or.inl ⟨_, rfl, h⟩

theorem bindDevice_foretells (h : Linked c ps w₁ w₂) (hp : p₁.Resembles c.here c.there p₂)
    (hi : i₁.Alike c.here c.there i₂) (target : String) :
    (Backend.bindDevice c.here target p₁ i₁ w₁).Foretells c.short (Binds c ps) (Linked c ps)
      (Backend.bindDevice c.there target p₂ i₂ w₂) := by
  have hplain : ∀ k₁ k₂ : BoundKernel, k₁.Alike c.here c.there k₂ → k₁.resident? = none →
      k₂.resident? = none → ((pure k₁ : Action World BoundKernel) w₁).Foretells c.short (Binds c ps)
        (Linked c ps) ((pure k₂ : Action World BoundKernel) w₂) := fun k₁ k₂ hk h₁ h₂ =>
    ⟨_, _, rfl, hk, Or.inl ⟨h₁, h₂, h⟩⟩
  obtain ⟨op, inputs, s, kernel₁⟩ := i₁
  obtain ⟨op₂, inputs₂, s₂, kernel₂⟩ := i₂
  obtain ⟨hop, hin, hs, -⟩ := hi
  dsimp only at hop hin hs
  subst hop hin hs
  unfold Backend.bindDevice
  cases op₂ with
  | literal l => exact hplain _ _ (.same _) rfl rfl
  | hostToDevice =>
    cases inputs₂ with
    | nil => exact trivial
    | cons r rest =>
      refine Action.foretells_bind (R := fun j₁ w₁ j₂ w₂ => j₂.op = j₁.op ∧ Linked c ps w₁ w₂)
        (Action.foretells_ofOutcome (get_alike hp r) (fun _ _ _ hj => ⟨hj.2.2.op, h⟩) h) ?_
      rintro j₁ w₁ j₂ w₂ ⟨hop, h⟩
      rw [hop]
      cases j₁.op with
      | literal l =>
        refine Action.foretells_bind (h.toDevice (Argument.ofLiteral l).alike_self
          (List.nil_subset _)) ?_
        rintro _ w₁ _ w₂ ⟨p, rfl, rfl, -, hfresh, h⟩
        exact ⟨_, _, rfl, .resident (.device _ hfresh.size), Or.inr ⟨p, rfl, rfl, h⟩⟩
      | _ => exact ⟨_, _, rfl, .upload, Or.inl ⟨rfl, rfl, h⟩⟩
  | deviceToHost => exact hplain _ _ (.same _) rfl rfl
  | reshape => exact hplain _ _ (.same _) rfl rfl
  | transpose => exact hplain _ _ (.same _) rfl rfl
  | _ => exact launch_foretells h target _ _

theorem bind_foretells (ht : Target.Alike c.here c.there t₁ t₂) (h : Linked c ps w₁ w₂)
    (hp : p₁.Resembles c.here c.there p₂) (position : Nat) :
    (t₁.bind p₁ position w₁).Foretells c.short (Binds c ps) (Linked c ps)
      (t₂.bind p₂ position w₂) := by
  unfold Target.bind
  refine Action.foretells_bind
    (R := fun i₁ w₁ i₂ w₂ => i₁.Alike c.here c.there i₂ ∧ Linked c ps w₁ w₂)
    (Action.foretells_ofOutcome (get_alike hp position) (fun _ _ _ hi => ⟨hi.2.2, h⟩) h) ?_
  rintro i₁ w₁ i₂ w₂ ⟨hi, h⟩
  obtain ⟨name, passes, backend₁⟩ := t₁
  obtain ⟨name₂, passes₂, backend₂⟩ := t₂
  obtain ⟨hname, -, hbackend⟩ := ht
  dsimp only at hname hbackend ⊢
  rw [hname]
  cases hbackend with
  | host refused =>
    dsimp only
    rw [hi.op]
    split
    · exact Or.inl ⟨_, rfl, h⟩
    · refine Action.foretells_lift (fun k hk => ?_) h
      unfold Backend.bindHost at hk
      split at hk
      · cases hk
      · cases hk
        exact ⟨.same _, Or.inl ⟨rfl, rfl, h⟩⟩
  | device => exact bindDevice_foretells h hp hi name

/-! ## Programs that are being bound -/

/-- Binding kernels where nothing is held adds what they hold. -/
theorem links_modify (hall : List.Forall₂ (Instruction.Alike here there) is₁ is₂)
    (hi₁ : is₁[r]? = some i₁) (hi₂ : is₂[r]? = some i₂) (hfree : i₁.resident? = none)
    (f g : Instruction → Instruction) :
    (((is₁.modify r f).zip (is₂.modify r g)).flatMap fun e => e.1.links e.2).Perm
      ((f i₁).links (g i₂) ++ (is₁.zip is₂).flatMap fun e => e.1.links e.2) := by
  induction hall generalizing r with
  | nil => cases hi₁
  | @cons j₁ j₂ is₁ is₂ hj _ ih =>
    cases r with
    | zero =>
      cases hi₁
      cases hi₂
      rw [List.modify_zero_cons, List.modify_zero_cons, List.zip_cons_cons, List.zip_cons_cons,
        List.flatMap_cons, List.flatMap_cons, Instruction.links_of_none hfree]
      exact .refl _
    | succ r =>
      rw [List.modify_succ_cons, List.modify_succ_cons, List.zip_cons_cons, List.zip_cons_cons,
        List.flatMap_cons, List.flatMap_cons]
      refine ((ih hi₁ hi₂).append_left _).trans ?_
      rw [← List.append_assoc, ← List.append_assoc]
      exact List.perm_append_comm.append_right _

theorem Resembles.setKernel (h : p₁.Resembles here there p₂) (hk : k₁.Alike here there k₂)
    (r : Nat) : (p₁.setKernel r k₁).Resembles here there (p₂.setKernel r k₂) := by
  refine ⟨List.forall₂_iff_get.mpr ⟨?_, fun n hn₁ hn₂ => ?_⟩, h.parameters, h.isCompiled⟩
  · rw [Program.setKernel, Program.setKernel, List.length_modify, List.length_modify,
      h.instructions.length_eq]
  · have hlt : n < p₁.instructions.length := by
      rwa [Program.setKernel, List.length_modify] at hn₁
    obtain ⟨i₂, hi₂, hi⟩ := h.exists_right (List.getElem?_eq_getElem hlt)
    have hget₁ := getElem?_setKernel p₁ r k₁ n
    have hget₂ := getElem?_setKernel p₂ r k₂ n
    rw [List.getElem?_eq_getElem hlt, List.getElem?_eq_getElem hn₁, Option.map_some,
      Option.some.injEq] at hget₁
    rw [hi₂, List.getElem?_eq_getElem hn₂, Option.map_some, Option.some.injEq] at hget₂
    rw [List.get_eq_getElem, List.get_eq_getElem, hget₁, hget₂]
    split
    · exact ⟨hi.op, hi.inputs, hi.shape, .some hk⟩
    · exact hi

theorem linked_setKernel (hp : p₁.Resembles c.here c.there p₂) (hi₁ : p₁.instructions[r]? = some i₁)
    (hi₂ : p₂.instructions[r]? = some i₂) (hfree : i₁.resident? = none)
    (h : Binds c (p₁.links p₂) k₁ w₁ k₂ w₂) :
    (p₁.setKernel r k₁).Resembles c.here c.there (p₂.setKernel r k₂) ∧
      Linked c ((p₁.setKernel r k₁).links (p₂.setKernel r k₂)) w₁ w₂ := by
  have hperm := links_modify hp.instructions hi₁ hi₂ hfree
    (fun i => { i with kernel := some k₁ }) fun i => { i with kernel := some k₂ }
  obtain ⟨hk, hheld⟩ := h
  refine ⟨hp.setKernel hk r, ?_⟩
  rcases hheld with ⟨h₁, -, h⟩ | ⟨p, h₁, h₂, h⟩
  · have hnone : ({ i₁ with kernel := some k₁ } : Instruction).resident? = none := h₁
    rw [Instruction.links_of_none hnone] at hperm
    exact h.perm hperm.symm
  · have hsome₁ : ({ i₁ with kernel := some k₁ } : Instruction).resident? = some p.1 := h₁
    have hsome₂ : ({ i₂ with kernel := some k₂ } : Instruction).resident? = some p.2 := h₂
    rw [Instruction.links_of_some hsome₁ hsome₂] at hperm
    exact h.perm hperm.symm

theorem forEach_releaseBuffer {qs : List Pair} (h : Linked c (qs ++ ps) w₁ w₂) :
    (Action.forEach World.releaseBuffer (qs.map Prod.fst) w₁).Foretells short
      (fun _ w₁ _ w₂ => Linked c ps w₁ w₂) (fun _ _ => False)
      (Action.forEach World.releaseBuffer (qs.map Prod.snd) w₂) := by
  induction qs generalizing w₁ w₂ with
  | nil => exact ⟨(), _, rfl, h⟩
  | cons q qs ih => exact Action.foretells_bind h.releaseBuffer fun _ _ _ _ h => ih h

theorem releaseProgram_foretells (hp : p₁.Resembles c.here c.there p₂)
    (h : Linked c (p₁.links p₂ ++ ps) w₁ w₂) :
    (World.releaseProgram p₁ w₁).Foretells short (fun _ w₁ _ w₂ => Linked c ps w₁ w₂)
      (fun _ _ => False) (World.releaseProgram p₂ w₂) := by
  unfold World.releaseProgram
  rw [← hp.residents.1, ← hp.residents.2]
  exact forEach_releaseBuffer h

/-- Binding goes on in both worlds, or both give back what was bound. -/
theorem bindAll_foretells {positions : List Nat} (ht : Target.Alike c.here c.there t₁ t₂)
    (hnd : positions.Nodup) (hvacant : Vacant p₁ positions) (hp : p₁.Resembles c.here c.there p₂)
    (h : Linked c (p₁.links p₂) w₁ w₂) :
    (bindAll t₁ p₁ positions w₁).Foretells c.short
      (fun q₁ w₁ q₂ w₂ => q₁.Resembles c.here c.there q₂ ∧ Linked c (q₁.links q₂) w₁ w₂)
      (Linked c [])
      (bindAll t₂ p₂ positions w₂) := by
  induction positions generalizing p₁ p₂ w₁ w₂ with
  | nil => exact ⟨_, _, rfl, hp, h⟩
  | cons position rest ih =>
    obtain ⟨hnot, hrest⟩ := List.nodup_cons.mp hnd
    obtain ⟨⟨i₁, hi₁, hfree⟩, hvacant⟩ := vacant_cons.mp hvacant
    obtain ⟨i₂, hi₂, hi⟩ := hp.exists_right hi₁
    have hparameter : i₂.isParameter = i₁.isParameter := by
      rw [Instruction.isParameter, hi.op]
      rfl
    unfold bindAll
    rw [Action.bind_lift_of_value (get_of_getElem? hi₁),
      Action.bind_lift_of_value (get_of_getElem? hi₂), hparameter]
    split
    · exact ih hrest hvacant hp h
    · refine Action.foretells_bind (Action.foretells_onRefusal (bind_foretells ht h hp position)
        fun w₁ w₂ h => releaseProgram_foretells hp (by rwa [List.append_nil])) ?_
      intro k₁ w₁ k₂ w₂ hk
      obtain ⟨hp', h'⟩ := linked_setKernel hp hi₁ hi₂ hfree hk
      exact ih hrest (hvacant.setKernel hnot k₁) hp' h'

/-- Compilations of one program end alike. -/
theorem compile_foretells (ht : Target.Alike c.here c.there t₁ t₂) (h : Linked c [] w₁ w₂)
    (hp : p.target = none → p.residents = []) :
    (p.compile t₁ w₁).Foretells c.short
      (fun q₁ w₁ q₂ w₂ => q₁.Resembles c.here c.there q₂ ∧ Linked c (q₁.links q₂) w₁ w₂)
      (Linked c [])
      (p.compile t₂ w₂) := by
  unfold compile
  rcases Option.eq_none_or_eq_some p.target with hopen | ⟨current, hopen⟩
  · rw [hopen, ht.passes]
    refine Action.foretells_bind (lower_foretells ht.name h (hp hopen)) ?_
    rintro lowered w₁ _ w₂ ⟨rfl, hnil, h⟩
    have hstart : Linked c (lowered.links lowered) w₁ w₂ := by rwa [links_self hnil]
    refine Action.foretells_bind (bindAll_foretells ht List.nodup_range (vacant_of_residents hnil)
      (resembles_self _ _ lowered) hstart) ?_
    rintro q₁ w₁ q₂ w₂ ⟨hq, h⟩
    exact Action.foretells_bind (h.note _ _ _ _).of_never fun _ _ _ _ h =>
      ⟨_, _, rfl, ⟨hq.instructions, hq.parameters, rfl⟩, h⟩
  · rw [hopen, ht.name]
    exact Or.inl ⟨_, rfl, h⟩

end Program
end TensorGraph
