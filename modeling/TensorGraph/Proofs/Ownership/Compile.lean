/-
Holders in a compilation.

The kernels of a program hold the constants that were moved to a device for them.  A pass keeps
or drops kernels and never makes one, so it can only let go of some; binding adds one holder
for every constant that is moved, and whatever is refused on the way gives all of them
back.  `compile_meets` is what comes of it for any target.
-/
import TensorGraph.Proofs.Ownership.Holders
import TensorGraph.Proofs.Program.History

namespace TensorGraph

open World (Holding Conserves Leads)

def Instruction.resident? (i : Instruction) : Option DeviceBuffer :=
  i.kernel.bind BoundKernel.resident?

namespace Program

variable {w : World} {H bs bs' : List DeviceBuffer} {p q r : Program} {is js : List Instruction}
variable {i : Instruction} {k : BoundKernel} {t : Target} {position : Nat}

theorem filterMap_resident?_cons (i : Instruction) (is : List Instruction) :
    (i :: is).filterMap Instruction.resident? =
      i.resident?.toList ++ is.filterMap Instruction.resident? := by
  rw [List.filterMap_cons]
  cases i.resident? <;> rfl

theorem residents_append (p : Program) (js : List Instruction) :
    ({ p with instructions := p.instructions ++ js } : Program).residents =
      p.residents ++ js.filterMap Instruction.resident? := List.filterMap_append

/-! ## Passes -/

/-- Whether a program holds what another holds, and some of the given buffers besides. -/
structure Appends (p : Program) (bs : List DeviceBuffer) (q : Program) : Prop where
  target : q.target = p.target
  residents : ∃ sub, sub.Sublist bs ∧ q.residents = p.residents ++ sub

theorem appends_refl (p : Program) (bs : List DeviceBuffer) : Appends p bs p :=
  ⟨rfl, [], List.nil_sublist _, (List.append_nil _).symm⟩

theorem Appends.trans (h : Appends p bs q) (h' : Appends q bs' r) : Appends p (bs ++ bs') r := by
  obtain ⟨htarget, sub, hsub, hq⟩ := h
  obtain ⟨htarget', sub', hsub', hr⟩ := h'
  refine ⟨htarget'.trans htarget, sub ++ sub', hsub.append hsub', ?_⟩
  rw [hr, hq, List.append_assoc]

theorem Appends.mono (h : Appends p bs q) (hsub : bs.Sublist bs') : Appends p bs' q := by
  obtain ⟨htarget, sub, hsub', hq⟩ := h
  exact ⟨htarget, sub, hsub'.trans hsub, hq⟩

/-- Whether whatever a computation adds to a program holds no more than the given buffers. -/
def Grows {α : Type} (bs : List DeviceBuffer) (x : Action Program α) : Prop :=
  ∀ p, (x p).Meets (fun _ q => Appends p bs q) fun q => Appends p bs q

theorem grows_bind {α β : Type} (bs bs' : List DeviceBuffer) {x : Action Program α}
    {f : α → Action Program β} (h : Grows bs x) (hf : ∀ a, Grows bs' (f a)) :
    Grows (bs ++ bs') (x >>= f) := by
  intro p
  refine Action.meets_bind ((h p).mono (fun _ _ hq => hq) fun q hq =>
    hq.mono (List.sublist_append_left bs bs')) fun a q hq => ?_
  exact (hf a q).mono (fun _ _ hr => hq.trans hr) fun _ hr => hq.trans hr

theorem grows_lift {α : Type} (x : Outcome α) : Grows [] (liftM x : Action Program α) := fun p =>
  Action.meets_ofOutcome (fun _ _ => appends_refl p []) (appends_refl p [])

theorem grows_lift_option {α : Type} (x : Option α) : Grows [] (liftM x : Action Program α) :=
  grows_lift (Outcome.ofOption x)

theorem grows_push (i : Instruction) : Grows i.resident?.toList (push i) := by
  intro p
  refine ⟨rfl, _, .refl _, ?_⟩
  rw [residents_append, filterMap_resident?_cons]
  exact congrArg _ (List.append_nil _)

theorem grows_get : Grows [] (MonadState.get : Action Program Program) := fun p =>
  appends_refl p []

theorem grows_pure {α : Type} (a : α) : Grows [] (pure a : Action Program α) := fun p =>
  appends_refl p []

theorem Grows.mono {α : Type} {x : Action Program α} (h : Grows bs x) (hsub : bs.Sublist bs') :
    Grows bs' x := fun p =>
  (h p).mono (fun _ _ hq => hq.mono hsub) fun _ hq => hq.mono hsub

theorem grows_push_pure {α : Type} (i : Instruction) (f : Nat → α) :
    Grows i.resident?.toList (do return f (← push i)) := by
  have hpush := grows_bind _ [] (grows_push i) fun r => grows_pure (f r)
  rwa [List.append_nil] at hpush

/-- A new instruction has no kernel yet. -/
theorem grows_addInstruction (op : Operator) (inputs : List Nat) :
    Grows [] (addInstruction op inputs) := by
  intro p
  rcases addInstruction_cases op inputs p with hhalt | ⟨e, hrefused⟩ | ⟨s, -, -, -, hvalue⟩
  · rw [hhalt]
    exact trivial
  · rw [hrefused]
    exact appends_refl p []
  · rw [hvalue]
    exact ⟨rfl, [], .refl _, residents_append p _⟩

theorem grows_addParameter (name : String) (s : Shape) : Grows [] (addParameter name s) := by
  intro p
  rcases addParameter_cases name s p with ⟨e, hrefused⟩ | ⟨-, -, hvalue⟩
  · rw [hrefused]
    exact appends_refl p []
  · rw [hvalue]
    exact ⟨rfl, [], .refl _, residents_append p _⟩

theorem grows_contiguousInputs (inputs : List Nat) : Grows [] (contiguousInputs inputs) := by
  induction inputs with
  | nil => exact grows_pure []
  | cons r rest ih =>
    refine grows_bind [] [] grows_get fun p => ?_
    refine grows_bind [] [] (grows_lift _) fun i => ?_
    refine grows_bind [] [] (grows_lift_option _) fun standard => ?_
    cases standard with
    | true => exact grows_bind [] [] ih fun rest => grows_pure _
    | false =>
      refine grows_bind [] [] (grows_addInstruction _ _) fun copy => ?_
      exact grows_bind [] [] ih fun rest => grows_pure _

theorem grows_rebuildFrom {step : Nat → Instruction → Action Program (Option Nat)}
    (hstep : ∀ old i, Grows i.resident?.toList (step old i)) (positions : List (Option Nat))
    (rest : List Instruction) :
    Grows (rest.filterMap Instruction.resident?) (rebuildFrom step positions rest) := by
  induction rest generalizing positions with
  | nil => exact grows_pure ()
  | cons i rest ih =>
    rw [filterMap_resident?_cons]
    refine grows_bind [] _ (grows_lift _) fun inputs => ?_
    exact grows_bind _ _ (hstep _ { i with inputs := inputs }) fun now => ih _

/-- Whether a program holds no more than another, and is compiled for the same target. -/
structure Sheds (p q : Program) : Prop where
  target : q.target = p.target
  residents : q.residents.Sublist p.residents

theorem sheds_rebuild {step : Nat → Instruction → Action Program (Option Nat)}
    (hstep : ∀ old i, Grows i.resident?.toList (step old i)) (p : Program) :
    (rebuild step p).Meets (fun _ q => Sheds p q) fun q => Sheds p q := by
  have hsheds : ∀ q, Appends { p with instructions := [] } p.residents q → Sheds p q := by
    rintro q ⟨htarget, sub, hsub, hq⟩
    refine ⟨htarget, ?_⟩
    rw [hq]
    exact hsub
  have hrun := grows_rebuildFrom hstep [] p.instructions { p with instructions := [] }
  exact hrun.mono (fun _ q hq => hsheds q hq) hsheds

/-- No pass makes a kernel. -/
theorem sheds_apply (pass : Pass) (p : Program) :
    (pass.apply p).Meets (fun _ q => Sheds p q) fun q => Sheds p q := by
  cases pass with
  | eliminateDeadCode =>
    show (eliminateDeadCode p).Meets _ _
    unfold eliminateDeadCode
    rw [Action.bind_of_value Action.get_apply]
    split
    · exact ⟨rfl, .refl _⟩
    · refine Action.meets_bind (P := fun _ q => q = p) (Action.meets_ofOutcome (fun _ _ => rfl)
        ⟨rfl, .refl _⟩) ?_
      rintro live _ rfl
      refine sheds_rebuild (fun old i => ?_) _
      split
      · exact grows_push_pure i some
      · exact (grows_pure _).mono (List.nil_sublist _)
  | insertContiguous needs =>
    refine sheds_rebuild (fun old i => ?_) p
    split
    · refine grows_bind [] _ (grows_contiguousInputs _) fun inputs => ?_
      exact grows_push_pure { i with inputs := inputs } some
    · exact grows_push_pure i some
  | insertTransfers offload =>
    show (insertTransfers offload p).Meets _ _
    unfold insertTransfers
    refine Action.meets_bind (sheds_rebuild (fun old i => ?_) p) fun _ q hq => ?_
    · dsimp only
      split
      · have hmove : ∀ r, Grows [] (do return some (← addInstruction .hostToDevice [r])) := fun r =>
          grows_bind [] [] (grows_addInstruction _ _) fun _ => grows_pure _
        have hpush := grows_bind _ [] (grows_push i) hmove
        rwa [List.append_nil] at hpush
      · exact grows_push_pure i some
    · rw [Action.bind_of_value Action.get_apply]
      have hsheds : ∀ q', Appends q [] q' → Sheds p q' := by
        rintro q' ⟨htarget, sub, hsub, hq'⟩
        refine ⟨htarget.trans hq.target, ?_⟩
        rw [hq', List.sublist_nil.mp hsub, List.append_nil]
        exact hq.residents
      cases offload with
      | false => exact hq
      | true =>
        cases q.output? with
        | none => exact hq
        | some output =>
          exact Action.meets_bind ((grows_addInstruction .deviceToHost [output] q).mono
            (fun _ q' hq' => hsheds q' hq') hsheds) fun _ q' hq' => hq'

/-! ## Passes in a world -/

/-- What a pass lets go of is given back. -/
theorem passRun_meets (h : Holding w (p.residents ++ H)) (pass : Pass) :
    (pass.run p w).Meets (fun r w' => Holding w' (r.1.residents ++ H) ∧ Sheds p r.1)
      fun _ => False := by
  have hsurrender : ∀ q, Sheds p q →
      Leads (q.residents ++ H)
        (Action.forEach World.releaseBuffer (World.surrendered p.residents q.residents) w) := by
    intro q hq
    have hperm : (q.residents ++ World.surrendered p.residents q.residents).Perm p.residents := by
      have hdiff : World.surrendered p.residents q.residents = p.residents.diff q.residents := by
        rw [List.diff_eq_foldl]
        rfl
      rw [hdiff]
      exact List.subperm_append_diff_self_of_count_le fun b _ => hq.residents.count_le b
    refine World.Holding.forEach_releaseBuffer (h.trans ?_)
    rw [← List.append_assoc]
    exact (hperm.symm.trans List.perm_append_comm).append_right H
  have hsheds := sheds_apply pass p
  unfold Pass.run
  cases happly : pass.apply p with
  | halted => exact trivial
  | value u q =>
    rw [happly] at hsheds
    refine Action.meets_bind (hsurrender q hsheds).meets fun _ w₁ h₁ => ?_
    cases pass.report p q with
    | none => exact ⟨h₁, hsheds⟩
    | some report =>
      exact Action.meets_bind (P := fun _ w' => Holding w' (q.residents ++ H)) (h₁.congr rfl rfl)
        fun _ w₂ h₂ => ⟨h₂, hsheds⟩
  | refused e q =>
    rw [happly] at hsheds
    exact Action.meets_bind (hsurrender q hsheds).meets fun _ w₁ h₁ => ⟨h₁, hsheds⟩

theorem releaseProgram_leads (h : Holding w (p.residents ++ H)) :
    Leads H (World.releaseProgram p w) := h.forEach_releaseBuffer

theorem retainProgram_leads (h : Holding w H) (hp : p.residents ⊆ H) :
    Leads (p.residents ++ H) (World.retainProgram p w) := h.forEach_retainBuffer hp

theorem lower_meets {passes : List Pass} (h : Holding w (p.residents ++ H)) :
    (lower t p passes w).Meets (fun q w' => Holding w' (q.residents ++ H) ∧ Sheds p q)
      fun w' => Holding w' H := by
  induction passes generalizing p w with
  | nil => exact ⟨h, rfl, .refl _⟩
  | cons pass rest ih =>
    unfold lower
    refine Action.meets_bind ((passRun_meets h pass).mono (fun _ _ hr => hr) fun _ => False.elim) ?_
    rintro ⟨q, stopped⟩ w₁ ⟨h₁, hsheds⟩
    have hrest : ∀ w', Holding w' (q.residents ++ H) → (lower t q rest w').Meets
        (fun q w' => Holding w' (q.residents ++ H) ∧ Sheds p q) fun w' => Holding w' H := by
      intro w' h'
      refine (ih h').mono ?_ fun _ h'' => h''
      rintro r w'' ⟨h'', hsheds'⟩
      exact ⟨h'', hsheds'.target.trans hsheds.target, hsheds'.residents.trans hsheds.residents⟩
    cases stopped with
    | some e => exact Action.meets_bind (releaseProgram_leads h₁).meets fun _ w₂ h₂ => h₂
    | none =>
      dsimp only
      rw [Action.bind_of_value Action.get_apply]
      split
      · exact Action.meets_bind (P := fun _ w' => Holding w' (q.residents ++ H))
          (h₁.congr rfl rfl) fun _ w₂ h₂ => hrest w₂ h₂
      · exact hrest w₁ h₁

/-! ## Kernels -/

/-- What a kernel holds that is bound is new. -/
theorem launch_conserves (h : Holding w H) (id : DeviceId) (target : String) (op : Operator)
    (s : Shape) : Conserves (fun k => k.resident?.toList) H ((do
      let some d := (← MonadState.get).devices[id]? | Action.halt
      if op.isCompute && d.supports op s.dtype then return BoundKernel.launch op id
      else
        Action.refuse (.lowering op.name (target ++ ":" ++ deviceName)
          (.noKernelProducing s.dtype)) : Action World BoundKernel) w) := by
  rw [Action.bind_of_value Action.get_apply]
  cases w.devices[id]? with
  | none => exact trivial
  | some d =>
    dsimp only
    split <;> exact h

theorem bind_conserves (h : Holding w H) (t : Target) (p : Program) (position : Nat) :
    Conserves (fun k => k.resident?.toList) H (t.bind p position w) := by
  unfold Target.bind
  refine Action.meets_bind (P := fun _ w' => Holding w' H)
    (Action.meets_ofOutcome (fun _ _ => h) h) fun i w₁ h₁ => ?_
  cases t.backend with
  | host refused =>
    dsimp only
    split
    · exact h₁
    · refine Action.meets_ofOutcome (fun k hk => ?_) h₁
      unfold Backend.bindHost at hk
      split at hk
      · cases hk
      · cases hk
        exact h₁
  | device id =>
    obtain ⟨op, inputs, s, kernel⟩ := i
    dsimp only
    unfold Backend.bindDevice
    cases op with
    | literal l => exact h₁
    | hostToDevice =>
      cases inputs with
      | nil => exact trivial
      | cons r rest =>
        refine Action.meets_bind (P := fun _ w' => Holding w' H)
          (Action.meets_ofOutcome (fun _ _ => h₁) h₁) fun j w₂ h₂ => ?_
        cases j.op with
        | literal l => exact Action.meets_bind (h₂.toDevice id (.ofLiteral l)) fun a w₃ h₃ => h₃
        | _ => exact h₂
    | deviceToHost => exact h₁
    | reshape => exact h₁
    | transpose => exact h₁
    | _ => exact launch_conserves h₁ id t.name _ s

theorem filterMap_set {is : List Instruction} (hi : is[position]? = some i)
    (hfree : i.resident? = none) (j : Instruction) :
    ((is.set position j).filterMap Instruction.resident?).Perm
      (j.resident?.toList ++ is.filterMap Instruction.resident?) := by
  induction is generalizing position with
  | nil => cases hi
  | cons first is ih =>
    cases position with
    | zero =>
      cases hi
      rw [List.set_cons_zero, filterMap_resident?_cons, filterMap_resident?_cons, hfree]
      exact .refl _
    | succ position =>
      rw [List.set_cons_succ, filterMap_resident?_cons, filterMap_resident?_cons]
      refine ((ih hi).append_left _).trans ?_
      rw [← List.append_assoc, ← List.append_assoc]
      exact List.perm_append_comm.append_right _

theorem residents_setKernel (hi : p.instructions[position]? = some i) (hfree : i.resident? = none)
    (k : BoundKernel) :
    (p.setKernel position k).residents.Perm (k.resident?.toList ++ p.residents) := by
  have hset : (p.setKernel position k).instructions =
      p.instructions.set position { i with kernel := some k } := by
    rw [setKernel, List.modify_eq_set_getElem?, hi]
    rfl
  show ((p.setKernel position k).instructions.filterMap Instruction.resident?).Perm _
  rw [hset]
  exact filterMap_set hi hfree { i with kernel := some k }

/-- Whether positions are those of instructions that hold nothing yet. -/
def Vacant (p : Program) (positions : List Nat) : Prop :=
  ∀ r ∈ positions, ∃ i, p.instructions[r]? = some i ∧ i.resident? = none

theorem vacant_cons {rest : List Nat} : Vacant p (position :: rest) ↔
    (∃ i, p.instructions[position]? = some i ∧ i.resident? = none) ∧ Vacant p rest :=
  List.forall_mem_cons

theorem Vacant.setKernel {positions : List Nat} (h : Vacant p positions)
    (hnot : position ∉ positions) (k : BoundKernel) :
    Vacant (p.setKernel position k) positions := by
  intro r hr
  have hne : position ≠ r := fun heq => hnot (heq ▸ hr)
  rw [getElem?_setKernel_of_ne hne]
  exact h r hr

/-- Binding holds on to every constant that it moves, and gives all of them back when it is
refused. -/
theorem bindAll_meets {positions : List Nat} (hnd : positions.Nodup) (hvacant : Vacant p positions)
    (h : Holding w (p.residents ++ H)) :
    (bindAll t p positions w).Meets (fun q w' => Holding w' (q.residents ++ H))
      fun w' => Holding w' H := by
  induction positions generalizing p w with
  | nil => exact h
  | cons position rest ih =>
    obtain ⟨hnot, hrest⟩ := List.nodup_cons.mp hnd
    obtain ⟨⟨i, hi, hfree⟩, hvacant⟩ := vacant_cons.mp hvacant
    unfold bindAll
    rw [Action.bind_lift_of_value (get_of_getElem? hi)]
    split
    · exact ih hrest hvacant h
    · refine Action.meets_bind (Action.meets_onRefusal (bind_conserves h t p position)
        fun w' h' => (releaseProgram_leads h').meets) fun k w₁ h₁ => ?_
      refine ih hrest (hvacant.setKernel hnot k) (h₁.trans ?_)
      rw [← List.append_assoc]
      exact (residents_setKernel hi hfree k).symm.append_right H

/-! ## Compiling -/

theorem vacant_of_residents (h : p.residents = []) : Vacant p (List.range p.size) := by
  intro r hr
  have hlt : r < p.instructions.length := List.mem_range.mp hr
  refine ⟨p.instructions[r], List.getElem?_eq_getElem hlt, ?_⟩
  exact List.filterMap_eq_nil_iff.mp h _ (List.getElem_mem hlt)

/-- Compiling a program that holds nothing adds what the compiled one holds, or nothing when it
is refused. -/
theorem compile_meets (h : Holding w H) (hp : p.target = none → p.residents = []) :
    (p.compile t w).Meets (fun q w' => Holding w' (q.residents ++ H) ∧ q.target = some t)
      fun w' => Holding w' H := by
  unfold compile
  rcases Option.eq_none_or_eq_some p.target with ht | ⟨current, ht⟩
  · rw [ht]
    have hnil := hp ht
    have hstart : Holding w (p.residents ++ H) := by rwa [hnil]
    refine Action.meets_bind (lower_meets hstart) ?_
    rintro lowered w₁ ⟨h₁, hsheds⟩
    have hvacant := hsheds.residents
    rw [hnil] at hvacant
    refine Action.meets_bind (bindAll_meets List.nodup_range
      (vacant_of_residents (List.sublist_nil.mp hvacant)) h₁) fun bound w₂ h₂ => ?_
    exact Action.meets_bind (P := fun _ w' => Holding w' (bound.residents ++ H)) (h₂.congr rfl rfl)
      fun _ w₃ h₃ => ⟨h₃, rfl⟩
  · rw [ht]
    exact h

/-- The kernel of a constant on its own holds no buffer. -/
theorem bind_literal {l : Literal} {s : Shape} (t : Target)
    (hi : p.instructions[position]? = some { op := .literal l, inputs := [], shape := s })
    (w : World) : (∃ k, t.bind p position w = .value k w ∧ k.resident? = none) ∨
      ∃ e, t.bind p position w = .refused e w := by
  unfold Target.bind
  rw [Action.bind_lift_of_value (get_of_getElem? hi)]
  cases t.backend with
  | host refused =>
    dsimp only
    split
    · exact Or.inr ⟨_, rfl⟩
    · exact Or.inl ⟨_, rfl, rfl⟩
  | device id => exact Or.inl ⟨_, rfl, rfl⟩

/-- A constant that is appended is not moved to a device. -/
theorem addLiteral_meets (h : Holding w H) (p : Program) (l : Literal) :
    (p.addLiteral l w).Meets (fun r w' => Holding w' H ∧ r.1.target = p.target ∧
      r.1.residents = p.residents) fun w' => Holding w' H := by
  let i : Instruction := { op := .literal l, inputs := [], shape := l.shape }
  have hlast : (p.instructions ++ [i])[p.size]? = some i := List.getElem?_concat_length
  have hheld : (p.instructions ++ [i]).filterMap Instruction.resident? = p.residents :=
    (residents_append p [i]).trans (List.append_nil _)
  unfold addLiteral
  cases p.target with
  | none => exact ⟨h, rfl, hheld⟩
  | some t =>
    dsimp only
    rw [Action.bind_apply]
    unfold Action.attempt
    let q : Program := ⟨p.instructions ++ [i], p.parameters, some t⟩
    rcases bind_literal (p := q) t hlast w with ⟨k, hbind, hk⟩ | ⟨e, hbind⟩
    · rw [hbind]
      refine ⟨h, rfl, ?_⟩
      show ((p.instructions ++ [i]).modify p.size _).filterMap Instruction.resident? = p.residents
      unfold size
      rw [modify_concat, List.filterMap_append, filterMap_resident?_cons]
      unfold Instruction.resident?
      rw [Option.bind_some, hk]
      exact List.append_nil _
    · rw [hbind]
      exact Action.meets_bind (P := fun _ w' => Holding w' H) (h.congr rfl rfl)
        fun _ w₁ h₁ => ⟨h₁, rfl, hheld⟩

end Program
end TensorGraph
