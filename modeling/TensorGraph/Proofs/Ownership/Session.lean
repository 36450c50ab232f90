/-
Holders in a session.

Between two calls the holders of device memory are the arguments and the programs of the
session, and nobody else (`Tracked`).  Each operation of a session is one or two operations of
the world with a change of a name in between, so its specification says what is held besides
the names: an argument that is made is held by its caller, and a name that is set or taken
away hands what it held to the caller, who lets go of it.
-/
import TensorGraph.Proofs.Ownership.Compile
import TensorGraph.Proofs.Ownership.Evaluate
import TensorGraph.Session

namespace TensorGraph

open World (Holding)

namespace Session

variable {α : Type} {name : String} {s s' : Session} {bs bs' : List DeviceBuffer} {a : Argument}
variable {p q : Program} {w : World}

/-! ## Names -/

section Names

variable {values : List (String × α)} {v : α}

theorem unassign_of_not_mem (h : name ∉ values.map Prod.fst) : unassign name values = values := by
  refine List.filter_eq_self.mpr fun q hq => decide_eq_true fun heq => h ?_
  rw [← heq]
  exact List.mem_map_of_mem hq

theorem not_mem_of_lookup (h : values.lookup name = none) : name ∉ values.map Prod.fst := by
  intro hmem
  obtain ⟨q, hq, heq⟩ := List.mem_map.mp hmem
  exact bne_iff_ne.mp (List.lookup_eq_none_iff.mp h q hq) heq.symm

theorem perm_assign (name : String) (v : α) (h : (values.map Prod.fst).Nodup) :
    (assign name v values).Perm ((name, v) :: unassign name values) := by
  induction values with
  | nil => exact .refl _
  | cons q rest ih =>
    obtain ⟨n, u⟩ := q
    obtain ⟨hn, hrest⟩ := List.nodup_cons.mp h
    unfold assign unassign
    by_cases heq : n = name
    · rw [if_pos heq, List.filter_cons, if_neg (by simpa using heq)]
      exact .cons _ (.of_eq (unassign_of_not_mem (heq ▸ hn)).symm)
    · rw [if_neg heq, List.filter_cons, if_pos (by simpa using heq)]
      exact ((ih hrest).cons _).trans (.swap _ _ _)

theorem perm_unassign (h : (values.map Prod.fst).Nodup) (hv : values.lookup name = some v) :
    values.Perm ((name, v) :: unassign name values) := by
  induction values with
  | nil => cases hv
  | cons q rest ih =>
    obtain ⟨n, u⟩ := q
    obtain ⟨hn, hrest⟩ := List.nodup_cons.mp h
    unfold unassign
    rw [List.lookup_cons] at hv
    by_cases heq : n = name
    · rw [show (name == n) = true from beq_iff_eq.mpr heq.symm] at hv
      cases hv
      rw [List.filter_cons, if_neg (by simpa using heq), heq]
      exact .cons _ (.of_eq (unassign_of_not_mem (heq ▸ hn)).symm)
    · rw [show (name == n) = false from beq_false_of_ne (Ne.symm heq)] at hv
      rw [List.filter_cons, if_pos (by simpa using heq)]
      exact ((ih hrest hv).cons _).trans (.swap _ _ _)

theorem nodup_unassign (h : (values.map Prod.fst).Nodup) :
    ((unassign name values).map Prod.fst).Nodup :=
  (List.filter_sublist.map Prod.fst).nodup h

theorem nodup_assign (v : α) (h : (values.map Prod.fst).Nodup) :
    ((assign name v values).map Prod.fst).Nodup := by
  rw [((perm_assign name v h).map Prod.fst).nodup_iff]
  refine List.nodup_cons.mpr ⟨fun hmem => ?_, nodup_unassign h⟩
  obtain ⟨q, hq, heq⟩ := List.mem_map.mp hmem
  exact absurd heq (of_decide_eq_true (List.mem_filter.mp hq).2)

theorem mem_of_lookup (h : values.lookup name = some v) : (name, v) ∈ values := by
  obtain ⟨before, after, rfl, -⟩ := List.lookup_eq_some_iff.mp h
  exact List.mem_append_right before List.mem_cons_self

end Names

/-! ## Holders -/

def holdings (s : Session) : List DeviceBuffer :=
  s.arguments.flatMap (fun e => e.2.holds) ++ s.programs.flatMap fun e => e.2.residents

/-- Whether the holders of a world are those of the session and the given ones. -/
structure Tracked (bs : List DeviceBuffer) (s : Session) : Prop where
  holding : s.world.Holding (bs ++ s.holdings)
  arguments : (s.arguments.map Prod.fst).Nodup
  programs : (s.programs.map Prod.fst).Nodup
  uncompiled : ∀ e ∈ s.programs, e.2.target = none → e.2.residents = []

theorem tracked_empty : Tracked [] {} where
  holding := ⟨⟨nofun, fun _ => ⟨nofun, fun ⟨_, h, _⟩ => nomatch h⟩⟩, .refl _⟩
  arguments := .nil
  programs := .nil
  uncompiled _ h := nomatch h

def Conserves (gives : α → List DeviceBuffer) (bs : List DeviceBuffer) (x : Turn Session α) : Prop :=
  x.Meets (fun a s => Tracked (gives a ++ bs) s) (Tracked bs)

theorem Tracked.trans (h : Tracked bs s) (hperm : bs.Perm bs') : Tracked bs' s :=
  { h with holding := h.holding.trans (hperm.append_right _) }

theorem Tracked.world (h : Tracked bs s) (hw : w.Holding (bs' ++ s.holdings)) :
    Tracked bs' { s with world := w } :=
  ⟨hw, h.arguments, h.programs, h.uncompiled⟩

theorem inWorld_meets {x : Action World α} {P : α → Session → Prop} {kept : Session → Prop}
    (h : (x s.world).Meets (fun a w => P a { s with world := w })
      fun w => kept { s with world := w }) : (inWorld x s).Meets P kept := Action.meets_zoom h

theorem Tracked.inWorld (h : Tracked bs s) {x : Action World α} {gives : α → List DeviceBuffer}
    (hx : World.Conserves gives (bs ++ s.holdings) (x s.world)) :
    Conserves gives bs (inWorld x s) := by
  refine inWorld_meets (hx.mono (fun a w hw => h.world ?_) fun w hw => h.world hw)
  rwa [List.append_assoc]

theorem Tracked.leads (h : Tracked (bs' ++ bs) s) {x : Action World α}
    (hx : s.world.Holding (bs' ++ (bs ++ s.holdings)) → World.Leads (bs ++ s.holdings) (x s.world))
    {kept : Session → Prop} : (Session.inWorld x s).Meets (fun _ => Tracked bs) kept := by
  have hholding := h.holding
  rw [List.append_assoc] at hholding
  exact inWorld_meets ((hx hholding).mono (fun _ w hw => h.world hw) fun _ => False.elim)

/-! ## Arguments -/

def withoutArgument (name : String) (s : Session) : Session :=
  { s with arguments := unassign name s.arguments }

theorem holdings_withoutArgument (h : (s.arguments.map Prod.fst).Nodup)
    (ha : s.arguments.lookup name = some a) :
    s.holdings.Perm (a.holds ++ (s.withoutArgument name).holdings) := by
  have hperm := (perm_unassign h ha).flatMap_right fun e => e.2.holds
  rw [List.flatMap_cons] at hperm
  unfold holdings
  rw [← List.append_assoc]
  exact hperm.append_right _

theorem holdings_assignArgument (h : (s.arguments.map Prod.fst).Nodup) (name : String)
    (a : Argument) : (holdings { s with arguments := assign name a s.arguments }).Perm
      (a.holds ++ (s.withoutArgument name).holdings) := by
  have hperm := (perm_assign name a h).flatMap_right fun e => e.2.holds
  rw [List.flatMap_cons] at hperm
  unfold holdings
  rw [← List.append_assoc]
  exact hperm.append_right _

theorem Tracked.withoutArgument (h : Tracked bs s) (ha : s.arguments.lookup name = some a) :
    Tracked (a.holds ++ bs) (s.withoutArgument name) := by
  refine ⟨h.holding.trans ?_, nodup_unassign h.arguments, h.programs, h.uncompiled⟩
  refine ((holdings_withoutArgument h.arguments ha).append_left bs).trans ?_
  rw [List.append_assoc]
  exact List.perm_append_comm_assoc ..

theorem Tracked.assignArgument (h : Tracked (a.holds ++ bs) (s.withoutArgument name))
    (hnd : (s.arguments.map Prod.fst).Nodup) :
    Tracked bs { s with arguments := assign name a s.arguments } := by
  refine ⟨h.holding.trans ?_, nodup_assign a hnd, h.programs, h.uncompiled⟩
  rw [List.append_assoc]
  exact (List.perm_append_comm_assoc ..).trans
    ((holdings_assignArgument hnd name a).symm.append_left bs)

theorem withoutArgument_of_none (h : s.arguments.lookup name = none) :
    s.withoutArgument name = s := by
  unfold withoutArgument
  rw [unassign_of_not_mem (not_mem_of_lookup h)]

theorem Tracked.release (h : Tracked (a.holds ++ bs) s) {kept : Session → Prop} :
    (Session.inWorld (World.release a) s).Meets (fun _ => Tracked bs) kept :=
  h.leads fun hholding => hholding.release

theorem Tracked.drop (h : Tracked bs s) (name : String) :
    Conserves (fun _ => []) bs (drop name s) := by
  unfold Session.drop
  rw [Action.bind_of_value Action.get_apply]
  cases ha : s.arguments.lookup name with
  | none => exact h
  | some a =>
    show ((modify _ >>= fun _ => _ : Action Session Bool) s).Meets _ _
    rw [Action.bind_of_value (Action.modify_apply _)]
    exact Action.meets_bind (h.withoutArgument ha).release fun _ _ h₁ => h₁

theorem Tracked.keep (h : Tracked (a.holds ++ bs) s) (name : String) {kept : Session → Prop} :
    (keep name a s).Meets (fun _ => Tracked bs) kept := by
  unfold Session.keep
  rw [Action.bind_of_value Action.get_apply]
  show ((modify _ >>= fun _ => _ : Action Session Unit) s).Meets _ _
  rw [Action.bind_of_value (Action.modify_apply _)]
  cases hold : s.arguments.lookup name with
  | none => exact Tracked.assignArgument ((withoutArgument_of_none hold).symm ▸ h) h.arguments
  | some b =>
    refine Tracked.release (Tracked.assignArgument ?_ h.arguments)
    exact (h.withoutArgument hold).trans (List.perm_append_comm_assoc ..)

theorem Tracked.settle (h : Tracked (a.holds ++ bs) s) (name : Option String)
    {kept : Session → Prop} : (settle name a s).Meets (fun _ => Tracked bs) kept := by
  cases name with
  | none => exact h.release
  | some name => exact h.keep name

/-- An argument of a session holds nothing that the session does not. -/
theorem holds_subset (h : s.arguments.lookup name = some a) : a.holds ⊆ s.holdings := by
  intro b hb
  exact List.mem_append_left _ (List.mem_flatMap.mpr ⟨(name, a), mem_of_lookup h, hb⟩)

theorem Tracked.share (h : Tracked bs s) (ha : a.holds ⊆ bs ++ s.holdings) :
    Conserves Argument.holds bs (share a s) := by
  refine Action.meets_bind (P := fun _ s' => Tracked (a.holds ++ bs) s') ?_ fun _ s' h' => h'
  refine inWorld_meets ((h.holding.retain ha).mono (fun _ w hw => h.world ?_) fun _ => False.elim)
  rwa [List.append_assoc]

theorem Tracked.withShape (h : Tracked bs s) (ha : a.holds ⊆ bs ++ s.holdings) (shape : Shape) :
    Conserves Argument.holds bs (withShape a shape s) := by
  refine Action.meets_bind (P := fun b s' => Tracked bs s' ∧ b.holds ⊆ bs ++ s'.holdings)
    (Action.meets_ofOutcome (fun b hb => ⟨h, ?_⟩) h) fun b s' ⟨h', hb⟩ => h'.share hb
  rwa [Argument.holds_of_withShape hb]

theorem Tracked.place {b : DeviceBuffer} (h : Tracked (b :: bs) s) (shape : Shape) :
    Conserves Argument.holds bs (Session.inWorld (World.place shape b) s) := by
  refine inWorld_meets ((World.Holding.place h.holding shape).mono (fun a w hw => h.world ?_)
    fun w hw => h.world hw)
  rwa [List.append_assoc]

/-! ## Programs -/

def withoutProgram (name : String) (s : Session) : Session :=
  { s with programs := unassign name s.programs }

theorem holdings_withoutProgram (h : (s.programs.map Prod.fst).Nodup)
    (hp : s.programs.lookup name = some p) :
    s.holdings.Perm (p.residents ++ (s.withoutProgram name).holdings) := by
  have hperm := (perm_unassign h hp).flatMap_right fun e => e.2.residents
  rw [List.flatMap_cons] at hperm
  unfold holdings
  exact (hperm.append_left _).trans (List.perm_append_comm_assoc ..)

theorem holdings_assignProgram (h : (s.programs.map Prod.fst).Nodup) (name : String)
    (p : Program) : (holdings { s with programs := assign name p s.programs }).Perm
      (p.residents ++ (s.withoutProgram name).holdings) := by
  have hperm := (perm_assign name p h).flatMap_right fun e => e.2.residents
  rw [List.flatMap_cons] at hperm
  unfold holdings
  exact (hperm.append_left _).trans (List.perm_append_comm_assoc ..)

theorem withoutProgram_of_none (h : s.programs.lookup name = none) : s.withoutProgram name = s := by
  unfold withoutProgram
  rw [unassign_of_not_mem (not_mem_of_lookup h)]

theorem Tracked.withoutProgram (h : Tracked bs s) (hp : s.programs.lookup name = some p) :
    Tracked (p.residents ++ bs) (s.withoutProgram name) := by
  refine ⟨h.holding.trans ?_, h.arguments, nodup_unassign h.programs, fun e he => ?_⟩
  · refine ((holdings_withoutProgram h.programs hp).append_left bs).trans ?_
    rw [List.append_assoc]
    exact List.perm_append_comm_assoc ..
  · exact h.uncompiled e (List.mem_of_mem_filter he)

theorem Tracked.assignProgram (h : Tracked (p.residents ++ bs) (s.withoutProgram name))
    (hnd : (s.programs.map Prod.fst).Nodup) (hp : p.target = none → p.residents = []) :
    Tracked bs { s with programs := assign name p s.programs } := by
  refine ⟨h.holding.trans ?_, h.arguments, nodup_assign p hnd, fun e he => ?_⟩
  · rw [List.append_assoc]
    exact (List.perm_append_comm_assoc ..).trans
      ((holdings_assignProgram hnd name p).symm.append_left bs)
  · rcases List.mem_cons.mp ((perm_assign name p hnd).mem_iff.mp he) with rfl | he
    · exact hp
    · exact h.uncompiled e he

theorem Tracked.uncompiled_of_lookup (h : Tracked bs s) (hp : s.programs.lookup name = some p) :
    p.target = none → p.residents = [] := h.uncompiled (name, p) (mem_of_lookup hp)

theorem residents_subset (h : s.programs.lookup name = some p) : p.residents ⊆ s.holdings := by
  intro b hb
  exact List.mem_append_right _ (List.mem_flatMap.mpr ⟨(name, p), mem_of_lookup h, hb⟩)

theorem Tracked.program (h : Tracked bs s) (name : String) {kept : Session → Prop} :
    (program name s).Meets (fun p s' => Tracked bs s' ∧ s'.programs.lookup name = some p ∧
      s'.arguments = s.arguments) kept := by
  unfold Session.program
  rw [Action.bind_of_value Action.get_apply]
  cases hp : s.programs.lookup name with
  | some p => exact ⟨h, hp, rfl⟩
  | none =>
    refine ⟨Tracked.assignProgram ?_ h.programs fun _ => rfl, lookup_assign_self name {} s.programs,
      rfl⟩
    rw [withoutProgram_of_none hp]
    exact h

theorem Tracked.reassign (h : Tracked bs s) (hp : s.programs.lookup name = some p)
    (hresidents : q.residents = p.residents) (htarget : q.target = p.target) :
    Tracked bs { s with programs := assign name q s.programs } := by
  refine Tracked.assignProgram ?_ h.programs ?_
  · rw [hresidents]
    exact h.withoutProgram hp
  · rw [hresidents, htarget]
    exact h.uncompiled_of_lookup hp

theorem Tracked.onProgram (h : Tracked bs s) (name : String) {x : Action Program α}
    (hx : Program.Grows [] x) : Conserves (fun _ => []) bs (onProgram name x s) := by
  refine Action.meets_bind (h.program name) fun p s₁ ⟨h₁, hp, _⟩ => Action.meets_zoom ?_
  have hgrown : ∀ q, Program.Appends p [] q →
      Tracked bs { s₁ with programs := assign name q s₁.programs } := by
    rintro q ⟨htarget, sub, hsub, hq⟩
    rw [List.sublist_nil.mp hsub, List.append_nil] at hq
    exact h₁.reassign hp hq htarget
  rw [hp]
  exact (hx p).mono (fun _ q hq => hgrown q hq) hgrown

theorem Tracked.addLiteral (h : Tracked bs s) (name : String) (l : Literal) :
    Conserves (fun _ => []) bs (addLiteral name l s) := by
  refine Action.meets_bind (h.program name) fun p s₁ ⟨h₁, hp, _⟩ => ?_
  refine Action.meets_bind (P := fun r s' => Tracked bs s' ∧ s'.programs.lookup name = some p ∧
    r.1.residents = p.residents ∧ r.1.target = p.target) ?_ ?_
  · refine inWorld_meets ((Program.addLiteral_meets h₁.holding p l).mono ?_
      fun w hw => h₁.world hw)
    exact fun r w ⟨hw, htarget, hresidents⟩ => ⟨h₁.world hw, hp, hresidents, htarget⟩
  · exact fun r s₂ ⟨h₂, hp₂, hresidents, htarget⟩ => h₂.reassign hp₂ hresidents htarget

theorem Tracked.compile (h : Tracked bs s) (name : String) (t : Target) :
    Conserves (fun _ => []) bs (compile name t s) := by
  refine Action.meets_bind (h.program name) fun p s₁ ⟨h₁, hp, _⟩ => ?_
  refine Action.meets_bind (P := fun q s' => Tracked (q.residents ++ bs) (s'.withoutProgram name) ∧
    (s'.programs.map Prod.fst).Nodup ∧ q.target = some t) (inWorld_meets ?_) ?_
  · rcases Option.eq_none_or_eq_some p.target with ht | ⟨current, ht⟩
    · have hnil := h₁.uncompiled_of_lookup hp ht
      have hwithout := h₁.withoutProgram hp
      rw [hnil, List.nil_append] at hwithout
      refine (Program.compile_meets hwithout.holding fun _ => hnil).mono ?_ fun w hw => ?_
      · rintro q w ⟨hw, htarget⟩
        rw [← List.append_assoc] at hw
        exact ⟨hwithout.world hw, h₁.programs, htarget⟩
      · refine h₁.world (hw.trans ?_)
        have hperm := (holdings_withoutProgram h₁.programs hp).append_left bs
        rw [hnil] at hperm
        exact hperm.symm
    · rw [Program.compile_of_isCompiled ht]
      exact h₁
  · rintro q s₂ ⟨h₂, hnd, htarget⟩
    refine h₂.assignProgram hnd fun hnone => ?_
    rw [htarget] at hnone
    cases hnone

theorem Tracked.runPass (h : Tracked bs s) (name : String) (pass : Pass) :
    Conserves (fun _ => []) bs (runPass name pass s) := by
  refine Action.meets_bind (h.program name) fun p s₁ ⟨h₁, hp, _⟩ => ?_
  have hwithout := h₁.withoutProgram hp
  have hholding := hwithout.holding
  rw [List.append_assoc] at hholding
  refine Action.meets_bind (P := fun r s' => Tracked (r.1.residents ++ bs) (s'.withoutProgram name) ∧
    (s'.programs.map Prod.fst).Nodup ∧ Program.Sheds p r.1) (inWorld_meets ?_) ?_
  · refine (Program.passRun_meets hholding pass).mono ?_ fun _ => False.elim
    rintro r w ⟨hw, hsheds⟩
    rw [← List.append_assoc] at hw
    exact ⟨hwithout.world hw, h₁.programs, hsheds⟩
  · rintro ⟨q, stopped⟩ s₂ ⟨h₂, hnd, hsheds⟩
    have hassigned := h₂.assignProgram hnd fun hnone => by
      have hsublist := hsheds.residents
      rw [hsheds.target] at hnone
      rw [h₁.uncompiled_of_lookup hp hnone] at hsublist
      exact List.sublist_nil.mp hsublist
    cases stopped with
    | none => exact hassigned
    | some e => exact hassigned

theorem Tracked.releaseProgram (h : Tracked (p.residents ++ bs) s) {kept : Session → Prop} :
    (Session.inWorld (World.releaseProgram p) s).Meets (fun _ => Tracked bs) kept :=
  h.leads fun hholding => Program.releaseProgram_leads hholding

/-- The copy shares what the program holds, and what had its name before is let go of. -/
theorem Tracked.copyProgram (h : Tracked bs s) (source target : String) :
    Conserves (fun _ => []) bs (copyProgram source target s) := by
  refine Action.meets_bind (h.program source) fun p s₁ ⟨h₁, hp, _⟩ => ?_
  have hsubset : p.residents ⊆ bs ++ s₁.holdings := fun b hb =>
    List.mem_append_right bs (residents_subset hp hb)
  refine Action.meets_bind (P := fun _ s' => Tracked (p.residents ++ bs) s')
    (inWorld_meets ((Program.retainProgram_leads h₁.holding hsubset).mono (fun _ w hw => ?_)
      fun _ => False.elim)) fun _ s₂ h₂ => ?_
  · rw [← List.append_assoc] at hw
    exact h₁.world hw
  · have hopen := h₁.uncompiled_of_lookup hp
    rw [Action.bind_of_value Action.get_apply]
    show ((modify _ >>= fun _ => _ : Action Session Unit) s₂).Meets _ _
    rw [Action.bind_of_value (Action.modify_apply _)]
    cases hold : s₂.programs.lookup target with
    | none => exact Tracked.assignProgram ((withoutProgram_of_none hold).symm ▸ h₂) h₂.programs hopen
    | some q =>
      refine Tracked.releaseProgram (Tracked.assignProgram ?_ h₂.programs hopen)
      exact (h₂.withoutProgram hold).trans (List.perm_append_comm_assoc ..)

theorem Tracked.dropProgram (h : Tracked bs s) (name : String) :
    Conserves (fun _ => []) bs (dropProgram name s) := by
  unfold Session.dropProgram
  rw [Action.bind_of_value Action.get_apply]
  cases hp : s.programs.lookup name with
  | none => exact h
  | some p =>
    show ((modify _ >>= fun _ => _ : Action Session Bool) s).Meets _ _
    rw [Action.bind_of_value (Action.modify_apply _)]
    exact Action.meets_bind (h.withoutProgram hp).releaseProgram fun _ _ h₁ => h₁

theorem Tracked.check (h : Tracked bs s) (name : String) (params : Parameters) :
    Conserves (fun _ => []) bs (check name params s) :=
  Action.meets_bind (h.program name) fun _ _ ⟨h₁, _, _⟩ =>
    Action.meets_ofOutcome (fun _ _ => h₁) h₁

theorem Tracked.eval (h : Tracked bs s) (name : String) {params : Parameters}
    (hparams : ∀ n a, params.lookup n = some a → ∃ slot, s.arguments.lookup slot = some a) :
    Conserves Argument.holds bs (eval name params s) := by
  refine Action.meets_bind (h.program name) fun p s₁ ⟨h₁, hp, harguments⟩ => ?_
  refine h₁.inWorld (Program.run_conserves h₁.holding (fun n a ha => ?_)
    fun b hb => List.mem_append_right bs (residents_subset hp hb))
  obtain ⟨slot, hslot⟩ := hparams n a ha
  rw [← harguments] at hslot
  exact fun b hb => List.mem_append_right bs (holds_subset hslot hb)

end Session
end TensorGraph
