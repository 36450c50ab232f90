/-
The transfers of a program that was compiled for a device.

In a program without transfers the pass moves what starts on the host, each value right behind the
instruction that produces it, and brings back the output last if that was asked for.  So there are
as many transfers to the device as constants and parameters (`Paired`).  Kernels are bound to those
of constants that hold what was moved then, and to those of parameters that move it in every run;
`Paired.work` counts from that what the kernels of a program make a device do.
-/
import TensorGraph.Proofs.Device.Work
import TensorGraph.Proofs.Ownership.Compile
import TensorGraph.Proofs.Program.Parity
import TensorGraph.Proofs.Program.Places

namespace TensorGraph

/-! ## Kernels -/

def BoundKernel.work : BoundKernel → Work
  | upload _ => ⟨1, 0, 0⟩
  | launch .. => ⟨1, 1, 0⟩
  | download => ⟨0, 0, 1⟩
  | _ => 0

namespace Instruction

def work (i : Instruction) : Work := (i.kernel.map BoundKernel.work).getD 0

def isLiteral (i : Instruction) : Bool :=
  match i.op with
  | .literal _ => true
  | _ => false

end Instruction

namespace Program

variable {p q r : Program} {is js all : List Instruction} {i j c : Instruction} {k : Nat}
variable {id : DeviceId} {offload : Bool} {w w' : World}

/-! ## The pass -/

inductive Paired : List Instruction → Prop
  | nil : Paired []
  | plain {is : List Instruction} {i : Instruction} : Paired is → startsOnHost i.op = false →
      i.op.isTransfer = false → Paired (is ++ [i])
  | moved {is : List Instruction} {i c : Instruction} : Paired is → startsOnHost i.op = true →
      c.op = .hostToDevice → c.inputs = [is.length] → Paired (is ++ [i] ++ [c])

theorem paired_step {positions : List (Option Nat)} {now : Option Nat}
    (ht : q.target = none) (hfree : i.op.isTransfer = false) (hq : Paired q.instructions)
    (hstep : stepOn moveStep positions i q = .value now r) :
    r.target = none ∧ Paired r.instructions := by
  obtain ⟨inputs, -, hstep⟩ := stepOn_eq_value hstep
  rw [moveStep_apply ht] at hstep
  split at hstep
  · next hhost =>
    cases hstep
    exact ⟨ht, hq.moved hhost rfl rfl⟩
  · next hhost =>
    cases hstep
    exact ⟨ht, hq.plain (Bool.eq_false_iff.mpr hhost) hfree⟩

theorem paired_of_rebuild (ht : p.target = none)
    (hfree : ∀ i ∈ p.instructions, i.op.isTransfer = false)
    (hr : rebuild moveStep p = .value () r) : Paired r.instructions := by
  rw [rebuild_apply] at hr
  obtain ⟨_, -, hpaired⟩ := rebuildFrom_value
    (I := fun _ _ q => q.target = none ∧ Paired q.instructions)
    (fun done i rest positions q now q' hsplit h hstep =>
      paired_step h.1 (hfree i (mem_of_split hsplit)) h.2 hstep)
    (List.nil_append p.instructions).symm
    (show p.target = none ∧ Paired [] from ⟨ht, .nil⟩) hr
  exact hpaired

/-- Whether what starts on the host is moved right behind, and the output is brought back if that
was asked for. -/
def Sent (offload : Bool) (is : List Instruction) : Prop :=
  ∃ body, Paired body ∧ (is = body ∧ (offload = true → body = []) ∨
    offload = true ∧ ∃ c : Instruction, c.op = .deviceToHost ∧ is = body ++ [c])

theorem sent_of_insertTransfers (ht : p.target = none)
    (hfree : ∀ i ∈ p.instructions, i.op.isTransfer = false) {u : Unit}
    (h : insertTransfers offload p = .value u q) : Sent offload q.instructions := by
  obtain ⟨r, hr, hback⟩ := insertTransfers_eq_value h
  refine ⟨r.instructions, paired_of_rebuild ht hfree hr, ?_⟩
  rcases hback with ⟨rfl, hnil⟩ | ⟨hoffload, -, s, rfl⟩
  · exact Or.inl ⟨rfl, hnil⟩
  · exact Or.inr ⟨hoffload, _, rfl, rfl⟩

/-! ## Up to kernels -/

theorem exists_concat_of_map_bare (h : js.map bare = (is ++ [i]).map bare) :
    ∃ js' j, js = js' ++ [j] ∧ js'.map bare = is.map bare ∧ j.op = i.op ∧ j.inputs = i.inputs := by
  rw [List.map_append, List.map_singleton, List.map_eq_append_iff] at h
  obtain ⟨js', last, rfl, hjs, hlast⟩ := h
  obtain ⟨j, rfl, hj⟩ := List.map_eq_singleton_iff.mp hlast
  injection hj with hop hin
  exact ⟨js', j, rfl, hjs, hop, hin⟩

theorem Paired.congr (hp : Paired is) (h : js.map bare = is.map bare) : Paired js := by
  induction hp generalizing js with
  | nil =>
    rw [List.map_nil, List.map_eq_nil_iff] at h
    rw [h]
    exact .nil
  | plain _ hhost htransfer ih =>
    obtain ⟨js', j, rfl, hjs, hop, -⟩ := exists_concat_of_map_bare h
    exact (ih hjs).plain (hop ▸ hhost) (hop ▸ htransfer)
  | @moved is i c _ hhost hop hin ih =>
    obtain ⟨js', j, rfl, hjs, hop', hin'⟩ := exists_concat_of_map_bare h
    obtain ⟨js'', j', rfl, hjs', hop'', -⟩ := exists_concat_of_map_bare hjs
    refine (ih hjs').moved (hop'' ▸ hhost) (hop'.trans hop) ?_
    have hlen := congrArg List.length hjs'
    rw [List.length_map, List.length_map] at hlen
    rw [hin', hin, hlen]

theorem Sent.congr (hs : Sent offload is) (h : js.map bare = is.map bare) : Sent offload js := by
  obtain ⟨body, hbody, ⟨rfl, hnil⟩ | ⟨hoffload, c, hop, rfl⟩⟩ := hs
  · refine ⟨js, hbody.congr h, Or.inl ⟨rfl, fun ho => ?_⟩⟩
    rw [hnil ho, List.map_nil, List.map_eq_nil_iff] at h
    exact h
  · obtain ⟨js', j, rfl, hjs, hop', -⟩ := exists_concat_of_map_bare h
    exact ⟨js', hbody.congr hjs, Or.inr ⟨hoffload, j, hop'.trans hop, rfl⟩⟩

/-- Compiling a program without transfers moves what starts on the host, and nothing else. -/
theorem sent_of_compile (hb : Built p) (hfree : ∀ i ∈ p.instructions, i.op.isTransfer = false)
    (h : p.compile (.device id offload) w = .value q w') : Sent offload q.instructions := by
  obtain ⟨lowered, hlower, hbare⟩ := exists_lowered h
  obtain ⟨hwell, hopen, -, -⟩ := hb.unbound
  obtain ⟨r, hdead, r', hinsert, r'', hmove, rfl⟩ := hlower
  have hlow := lowered_of_insertContiguous (fun op => deviceNeeds_keeps) hwell.consistent hopen
    hdead hinsert
  refine (sent_of_insertTransfers hlow.refines.target (fun j hj => ?_) hmove).congr hbare
  rcases hlow.refines.origin j hj with ⟨i, hi, hop, -⟩ | ⟨hop, -⟩
  · rw [hop, hfree i hi]
  · rw [List.mem_singleton.mp hop]
    rfl

/-! ## Counts -/

/-- A transfer to the device is of a value that starts on the host. -/
theorem Paired.exists_moved (h : Paired is) (hc : c ∈ is) (hop : c.op = .hostToDevice) :
    ∃ k i, c.inputs = [k] ∧ is[k]? = some i ∧ startsOnHost i.op = true := by
  induction h with
  | nil => cases hc
  | plain _ hhost htransfer ih =>
    rcases List.mem_append.mp hc with hc | hc
    · obtain ⟨k, i, hin, hi, hstarts⟩ := ih hc
      exact ⟨k, i, hin, getElem?_append_of_some hi _, hstarts⟩
    · rw [List.mem_singleton.mp hc] at hop
      rw [hop] at htransfer
      cases htransfer
  | @moved is i c' _ hhost hop' hin ih =>
    rcases List.mem_append.mp hc with hc | hc
    · rcases List.mem_append.mp hc with hc | hc
      · obtain ⟨k, j, hin', hj, hstarts⟩ := ih hc
        exact ⟨k, j, hin', getElem?_append_of_some (getElem?_append_of_some hj _) _, hstarts⟩
      · rw [List.mem_singleton.mp hc] at hop
        rw [hop] at hhost
        cases hhost
    · rw [List.mem_singleton.mp hc]
      exact ⟨is.length, i, hin, getElem?_append_of_some List.getElem?_concat_length _, hhost⟩

theorem Sent.exists_moved (h : Sent offload is) (hc : c ∈ is) (hop : c.op = .hostToDevice) :
    ∃ k i, c.inputs = [k] ∧ is[k]? = some i ∧ startsOnHost i.op = true := by
  obtain ⟨body, hbody, ⟨rfl, -⟩ | ⟨-, c', hop', rfl⟩⟩ := h
  · exact hbody.exists_moved hc hop
  · rcases List.mem_append.mp hc with hc | hc
    · obtain ⟨k, i, hin, hi, hstarts⟩ := hbody.exists_moved hc hop
      exact ⟨k, i, hin, getElem?_append_of_some hi _, hstarts⟩
    · rw [List.mem_singleton.mp hc, hop'] at hop
      cases hop

/-- Whether the kernels of instructions are those that a device has for them among all of a
program. -/
def Bound (id : DeviceId) (all is : List Instruction) : Prop :=
  ∀ i ∈ is, (i.isParameter = true → i.kernel = none) ∧
    (i.isParameter = false → ∃ k, i.kernel = some k ∧ (Backend.device id).Serves all i k)

/-- Whether the kernels of instructions upload each parameter and launch what computes, and hold a
buffer for each constant. -/
structure Counted (is : List Instruction) : Prop where
  work : (is.map Instruction.work).sum =
    ⟨is.countP Instruction.isParameter + is.countP fun i => i.op.isCompute,
      is.countP fun i => i.op.isCompute, 0⟩
  residents : (is.filterMap Instruction.resident?).length = is.countP Instruction.isLiteral

theorem Counted.append (h : Counted is) (h' : Counted js) : Counted (is ++ js) where
  work := by
    rw [List.map_append, List.sum_append, h.work, h'.work, List.countP_append, List.countP_append]
    refine Work.ext ?_ rfl rfl
    exact Nat.add_add_add_comm ..
  residents := by
    rw [List.filterMap_append, List.length_append, h.residents, h'.residents, List.countP_append]

/-- What neither starts on the host nor transfers launches if it computes, and otherwise makes the
device do nothing. -/
theorem counted_plain (hhost : startsOnHost i.op = false) (htransfer : i.op.isTransfer = false)
    (hb : Bound id all [i]) : Counted [i] := by
  have hp : i.isParameter = false := by
    obtain ⟨op, inputs, s, kernel⟩ := i
    cases op <;> first | rfl | cases hhost
  have hl : i.isLiteral = false := by
    obtain ⟨op, inputs, s, kernel⟩ := i
    cases op <;> first | rfl | cases hhost
  obtain ⟨k, hk, hserves⟩ := (hb i List.mem_cons_self).2 hp
  by_cases hview : i.op.isView = true
  · obtain rfl := eq_view_of_serves hview hserves
    have hcompute := Operator.isCompute_of_isView hview
    constructor
    · simp [Instruction.work, hk, hp, hcompute, BoundKernel.work]
    · simp [Instruction.resident?, hk, hl, BoundKernel.resident?]
  · have hcompute := isCompute_of_else hhost htransfer (Bool.eq_false_iff.mpr hview)
    obtain rfl := eq_launch_of_serves hcompute hserves
    constructor
    · simp [Instruction.work, hk, hp, hcompute, BoundKernel.work]
    · simp [Instruction.resident?, hk, hl, BoundKernel.resident?]

/-- A parameter is uploaded by its transfer, and a constant was moved before. -/
theorem counted_moved (hhost : startsOnHost i.op = true) (hop : c.op = .hostToDevice)
    (hin : c.inputs = [k]) (hi : all[k]? = some i) (hb : Bound id all [i, c]) :
    Counted [i, c] := by
  obtain ⟨kernel, hkernel, hserves⟩ :=
    (hb c (List.mem_cons_of_mem _ List.mem_cons_self)).2 (congrArg Operator.isParameter hop)
  have hcp : c.isParameter = false := congrArg Operator.isParameter hop
  have hcc : c.op.isCompute = false := by rw [hop]; rfl
  have hcl : c.isLiteral = false := by rw [Instruction.isLiteral, hop]
  cases hi' : i.op with
  | parameter name s =>
    have hp : i.isParameter = true := by rw [Instruction.isParameter, hi']; rfl
    have hc : i.op.isCompute = false := by rw [hi']; rfl
    have hl : i.isLiteral = false := by rw [Instruction.isLiteral, hi']
    have hnone := (hb i List.mem_cons_self).1 hp
    obtain ⟨l, _, hlit, -⟩ | ⟨-, rfl⟩ := serves_hostToDevice hop hin hi hserves
    · rw [hi'] at hlit
      cases hlit
    · constructor
      · simp [Instruction.work, hkernel, hnone, hp, hc, hcp, hcc, BoundKernel.work]
      · simp [Instruction.resident?, hkernel, hnone, hl, hcl, BoundKernel.resident?]
  | literal l =>
    have hp : i.isParameter = false := by rw [Instruction.isParameter, hi']; rfl
    have hc : i.op.isCompute = false := by rw [hi']; rfl
    have hl : i.isLiteral = true := by rw [Instruction.isLiteral, hi']
    obtain ⟨k', hk', hserves'⟩ := (hb i List.mem_cons_self).2 hp
    obtain rfl := eq_literal_of_serves hi' hserves'
    obtain ⟨_, b, -, rfl, -⟩ | ⟨hnot, -⟩ := serves_hostToDevice hop hin hi hserves
    swap
    · exact absurd hi' (hnot l)
    constructor
    · simp [Instruction.work, hkernel, hk', hp, hc, hcp, hcc, BoundKernel.work]
    · simp [Instruction.resident?, hkernel, hk', hl, hcl, BoundKernel.resident?,
        Argument.deviceBuffer?, Storage.deviceBuffer?]
  | _ =>
    rw [hi'] at hhost
    cases hhost

theorem Paired.counted (h : Paired is) (hget : ∀ (k : Nat) i, is[k]? = some i → all[k]? = some i)
    (hb : Bound id all is) : Counted is := by
  induction h with
  | nil => exact ⟨rfl, rfl⟩
  | @plain is i _ hhost htransfer ih =>
    refine (ih (fun k j hj => hget k j (getElem?_append_of_some hj _))
      fun j hj => hb j (List.mem_append_left _ hj)).append (counted_plain hhost htransfer
        fun j hj => hb j (List.mem_append_right _ hj))
  | @moved is i c _ hhost hop hin ih =>
    have hi : all[is.length]? = some i :=
      hget _ _ (getElem?_append_of_some List.getElem?_concat_length _)
    rw [List.append_assoc] at hget hb ⊢
    refine (ih (fun k j hj => hget k j (getElem?_append_of_some hj _))
      fun j hj => hb j (List.mem_append_left _ hj)).append (counted_moved hhost hop hin hi
        fun j hj => hb j (List.mem_append_right _ hj))

/-- What the kernels of a program make its device do in a run: upload the parameters, launch what
computes, and wait for the output if that is brought back. -/
theorem Sent.work (h : Sent offload is) (hb : Bound id is is) (hne : is ≠ []) :
    (is.map Instruction.work).sum =
      ⟨is.countP Instruction.isParameter + is.countP fun i => i.op.isCompute,
        is.countP fun i => i.op.isCompute, if offload = true then 1 else 0⟩ := by
  obtain ⟨body, hbody, ⟨rfl, hnil⟩ | ⟨rfl, c, hop, rfl⟩⟩ := h
  · have hcounted := hbody.counted (fun _ _ hi => hi) hb
    rw [hcounted.work, if_neg fun ho => hne (hnil ho)]
  · have hcounted := hbody.counted (fun _ _ hi => getElem?_append_of_some hi _)
      fun i hi => hb i (List.mem_append_left _ hi)
    have hp : c.isParameter = false := congrArg Operator.isParameter hop
    have hc : c.op.isCompute = false := by rw [hop]; rfl
    obtain ⟨k, hk, hserves⟩ := (hb c (List.mem_append_right _ List.mem_cons_self)).2 hp
    obtain rfl := eq_download_of_serves hop hserves
    have hwork : c.work = ⟨0, 0, 1⟩ := by rw [Instruction.work, hk]; rfl
    rw [List.map_append, List.sum_append, hcounted.work, List.countP_append, List.countP_append,
      List.map_singleton, List.sum_singleton, List.countP_singleton, List.countP_singleton, hwork,
      hp, hc]
    rfl

/-- A program that was compiled holds a buffer for each of its constants. -/
theorem Sent.residents (h : Sent offload is) (hb : Bound id is is) :
    (is.filterMap Instruction.resident?).length = is.countP Instruction.isLiteral := by
  obtain ⟨body, hbody, ⟨rfl, -⟩ | ⟨-, c, hop, rfl⟩⟩ := h
  · exact (hbody.counted (fun _ _ hi => hi) hb).residents
  · have hcounted := hbody.counted (fun _ _ hi => getElem?_append_of_some hi _)
      fun i hi => hb i (List.mem_append_left _ hi)
    have hl : c.isLiteral = false := by rw [Instruction.isLiteral, hop]
    obtain ⟨k, hk, hserves⟩ := (hb c (List.mem_append_right _ List.mem_cons_self)).2
      (congrArg Operator.isParameter hop)
    obtain rfl := eq_download_of_serves hop hserves
    rw [List.filterMap_append, List.length_append, hcounted.residents, List.countP_append,
      List.countP_singleton, hl]
    simp [Instruction.resident?, hk, BoundKernel.resident?]

end Program
end TensorGraph
