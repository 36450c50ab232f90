/-
What compiling makes of a program.

A compiled program is the program that its target's passes made, with a kernel for every
instruction but the parameters: `compile_eq_value`.  `Serves` says which kernel an operator
gets from which backend.
-/
import TensorGraph.Proofs.Program.Transfers

namespace TensorGraph

/-! ## Buffers on a device -/

namespace World

variable {w w' : World} {id : DeviceId}

theorem device_of_allocate {n : Nat} {b : DeviceBuffer} (h : allocate id n w = .value b w') :
    b.device = id := by
  unfold allocate at h
  obtain ⟨address, _, _, h⟩ := Action.bind_eq_value.mp h
  obtain ⟨_, _, _, h⟩ := Action.bind_eq_value.mp h
  cases h
  rfl

theorem device_of_upload {bytes : Bytes} {b : DeviceBuffer}
    (h : upload id bytes w = .value b w') : b.device = id := by
  unfold upload at h
  obtain ⟨b', _, hb, h⟩ := Action.bind_eq_value.mp h
  obtain ⟨_, _, _, h⟩ := Action.bind_eq_value.mp h
  cases h
  exact device_of_allocate hb

theorem eq_of_place {s : Shape} {b : DeviceBuffer} {a : Argument}
    (h : place s b w = .value a w') : a = ⟨s, some (.device b)⟩ :=
  Argument.shape_of_make (Action.ofOutcome_eq_value.mp (Action.onRefusal_eq_value.mp h)).1

theorem sendHost_eq_value {a a' : Argument} (h : sendHost id a w = .value a' w') :
    ∃ b, a' = ⟨a.shape, some (.device b)⟩ ∧ b.device = id := by
  unfold sendHost uploadAs at h
  obtain ⟨bytes, _, _, h⟩ := Action.bind_eq_value.mp h
  obtain ⟨b, _, hb, h⟩ := Action.bind_eq_value.mp h
  exact ⟨b, eq_of_place h, device_of_upload hb⟩

/-- A transfer to the host gives a tensor of the same shape over a buffer there. -/
theorem toHost_eq_value {a a' : Argument} (h : toHost a w = .value a' w') :
    ∃ b, a' = ⟨a.shape, some (.host b)⟩ := by
  unfold toHost at h
  obtain ⟨storage, _, _, h⟩ := Action.bind_eq_value.mp h
  cases storage with
  | device b =>
    obtain ⟨b', _, _, h⟩ := Action.bind_eq_value.mp h
    exact ⟨b', Argument.shape_of_make (Action.ofOutcome_eq_value.mp h).1⟩
  | host b =>
    obtain ⟨_, _, _, h⟩ := Action.bind_eq_value.mp h
    obtain ⟨_, _, _, h⟩ := Action.bind_eq_value.mp h
    obtain ⟨b', _, _, h⟩ := Action.bind_eq_value.mp h
    exact ⟨b', Argument.shape_of_make (Action.ofOutcome_eq_value.mp h).1⟩

/-- A transfer to a device gives a tensor of the same shape over a buffer there. -/
theorem toDevice_eq_value {a a' : Argument} (h : toDevice id a w = .value a' w') :
    ∃ b, a' = ⟨a.shape, some (.device b)⟩ ∧ b.device = id := by
  unfold toDevice at h
  split at h
  · obtain ⟨host, _, hhost, h⟩ := Action.bind_eq_value.mp h
    obtain ⟨_, rfl⟩ := toHost_eq_value hhost
    obtain ⟨b, hb⟩ := sendHost_eq_value h
    exact ⟨b, hb⟩
  · exact sendHost_eq_value h

end World

/-! ## Kernels -/

/-- The kernel that a backend has for an instruction among the given ones. -/
def Backend.Serves (backend : Backend) (is : List Instruction) (i : Instruction)
    (k : BoundKernel) : Prop :=
  match backend, i.op with
  | .host _, op => op.isTransfer = false ∧ k = .host op
  | .device _, .literal l => k = .literal l
  | .device id, .hostToDevice =>
    match (i.inputs.head?.bind fun r => is[r]?).map Instruction.op with
    | some (.literal l) => ∃ b, k = .resident ⟨l.shape, some (.device b)⟩ ∧ b.device = id
    | _ => k = .upload id
  | .device _, .deviceToHost => k = .download
  | .device id, op => if op.isView then k = .view op.name else op.isCompute = true ∧ k = .launch op id

namespace Program

variable {p q : Program} {t : Target} {w w' : World}

theorem eq_of_get {position : Nat} {i : Instruction} (h : p.get position = .value i) :
    p.instructions[position]? = some i := by
  unfold Program.get at h
  split at h
  · next hi =>
    cases h
    exact hi
  · cases h

theorem get_of_getElem? {position : Nat} {i : Instruction}
    (h : p.instructions[position]? = some i) : p.get position = .value i := by
  obtain ⟨hlt, hget⟩ := List.getElem?_eq_some_iff.mp h
  rw [get_of_lt hlt, hget]

theorem serves_of_bindHost {is : List Instruction} {i : Instruction} {k : BoundKernel}
    (refused : List String) (h : Backend.bindHost i.op = .value k) :
    (Backend.host refused).Serves is i k := by
  unfold Backend.bindHost at h
  split at h
  · cases h
  · next hop =>
    cases h
    exact ⟨Bool.eq_false_iff.mpr hop, rfl⟩

/-- A device binds the constant that is moved to it, and otherwise the kernel that moves. -/
theorem serves_of_bindDevice_transfer {id : DeviceId} {target : String} {i : Instruction}
    {k : BoundKernel} (hop : i.op = .hostToDevice)
    (h : Backend.bindDevice id target p i w = .value k w') :
    (Backend.device id).Serves p.instructions i k := by
  obtain ⟨op, inputs, s, kernel⟩ := i
  obtain rfl : op = .hostToDevice := hop
  unfold Backend.bindDevice at h
  unfold Backend.Serves
  dsimp only at h ⊢
  cases inputs with
  | nil => cases h
  | cons r rest =>
    dsimp only at h ⊢
    obtain ⟨j, _, hj, hbind⟩ := Action.bind_eq_value.mp h
    have hj' : p.instructions[r]? = some j := eq_of_get (Action.ofOutcome_eq_value.mp hj).1
    rw [List.head?_cons, Option.bind_some, hj', Option.map_some]
    revert hbind
    generalize j.op = op
    intro hbind
    cases op with
    | literal l =>
      obtain ⟨a, _, ha, hvalue⟩ := Action.bind_eq_value.mp hbind
      obtain ⟨b, rfl, hb⟩ := World.toDevice_eq_value ha
      cases hvalue
      exact ⟨b, rfl, hb⟩
    | _ =>
      cases hbind
      rfl

theorem serves_of_bindDevice {id : DeviceId} {target : String} {i : Instruction} {k : BoundKernel}
    (h : Backend.bindDevice id target p i w = .value k w') :
    (Backend.device id).Serves p.instructions i k := by
  by_cases hop : i.op = .hostToDevice
  · exact serves_of_bindDevice_transfer hop h
  unfold Backend.bindDevice at h
  obtain ⟨op, inputs, s, kernel⟩ := i
  unfold Backend.Serves
  cases op with
  | hostToDevice => exact absurd rfl hop
  | literal | deviceToHost | reshape | transpose =>
    cases h
    rfl
  | _ =>
    obtain ⟨w₁, _, hw, hbind⟩ := Action.bind_eq_value.mp h
    revert hbind
    generalize w₁.devices[id]? = device?
    intro hbind
    cases device? with
    | none => cases hbind
    | some d =>
      dsimp only at hbind
      split at hbind
      · next hsupports =>
        cases hbind
        rw [Bool.and_eq_true] at hsupports
        exact ⟨hsupports.1, rfl⟩
      · cases hbind

/-- A target binds to an instruction the kernel that its backend has for it. -/
theorem serves_of_bind {position : Nat} {i : Instruction} {k : BoundKernel}
    (hi : p.instructions[position]? = some i) (h : t.bind p position w = .value k w') :
    t.backend.Serves p.instructions i k := by
  unfold Target.bind at h
  rw [Action.bind_lift_of_value (get_of_getElem? hi)] at h
  cases hbackend : t.backend with
  | host refused =>
    rw [hbackend] at h
    dsimp only at h
    split at h
    · cases h
    · exact serves_of_bindHost refused (Action.ofOutcome_eq_value.mp h).1
  | device id =>
    rw [hbackend] at h
    exact serves_of_bindDevice h

/-- The same instructions with kernels bound to those at the given positions. -/
structure Rebound (backend : Backend) (positions : List Nat) (p q : Program) : Prop where
  parameters : q.parameters = p.parameters
  target : q.target = p.target
  length : q.instructions.length = p.instructions.length
  bound : ∀ k i, p.instructions[k]? = some i → ∃ kernel,
    q.instructions[k]? = some { i with kernel := kernel } ∧
      (k ∈ positions → i.isParameter = false →
        ∃ c, kernel = some c ∧ backend.Serves p.instructions i c) ∧
      (k ∉ positions ∨ i.isParameter = true → kernel = i.kernel)

theorem serves_congr {backend : Backend} {is js : List Instruction} {i : Instruction}
    {k : BoundKernel}
    (h : ∀ r : Nat, (is[r]?).map Instruction.op = (js[r]?).map Instruction.op) :
    backend.Serves is i k ↔ backend.Serves js i k := by
  have hhead : (i.inputs.head?.bind fun r => is[r]?).map Instruction.op =
      (i.inputs.head?.bind fun r => js[r]?).map Instruction.op := by
    cases i.inputs.head? with
    | none => rfl
    | some r => exact h r
  unfold Backend.Serves
  rw [hhead]

theorem getElem?_setKernel (p : Program) (position : Nat) (k : BoundKernel) (r : Nat) :
    (p.setKernel position k).instructions[r]? = (p.instructions[r]?).map fun i =>
      if position = r then { i with kernel := some k } else i := by
  rw [setKernel]
  exact List.getElem?_modify _ _ _ r

theorem getElem?_setKernel_of_ne {position r : Nat} (hr : position ≠ r) (k : BoundKernel) :
    (p.setKernel position k).instructions[r]? = p.instructions[r]? := by
  rw [getElem?_setKernel]
  simp only [if_neg hr]
  exact Option.map_id'

theorem op_setKernel (p : Program) (position : Nat) (k : BoundKernel) (r : Nat) :
    ((p.setKernel position k).instructions[r]?).map Instruction.op =
      (p.instructions[r]?).map Instruction.op := by
  rw [getElem?_setKernel, Option.map_map]
  cases p.instructions[r]? with
  | none => rfl
  | some j =>
    show some (Instruction.op (if position = r then { j with kernel := some k } else j)) = _
    split <;> rfl

section Rebound

variable {backend : Backend} {position : Nat} {rest : List Nat} {i : Instruction}

theorem Rebound.cons_parameter (h : Rebound backend rest p q)
    (hi : p.instructions[position]? = some i) (hp : i.isParameter = true) :
    Rebound backend (position :: rest) p q := by
  refine ⟨h.parameters, h.target, h.length, fun k j hj => ?_⟩
  obtain ⟨kernel, hq, hin, hout⟩ := h.bound k j hj
  refine ⟨kernel, hq, fun hk hj' => ?_, fun hk => hout ?_⟩
  · rcases List.mem_cons.mp hk with rfl | hk
    · rw [hi] at hj
      cases hj
      rw [hp] at hj'
      cases hj'
    · exact hin hk hj'
  · exact hk.imp_left fun hk hmem => hk (List.mem_cons_of_mem _ hmem)

/-- A kernel that was bound first stays. -/
theorem Rebound.cons_kernel {k : BoundKernel} (hnot : position ∉ rest)
    (hi : p.instructions[position]? = some i) (hp : i.isParameter = false)
    (hserves : backend.Serves p.instructions i k)
    (h : Rebound backend rest (p.setKernel position k) q) :
    Rebound backend (position :: rest) p q := by
  refine ⟨h.parameters, h.target, h.length.trans (List.length_modify ..), fun r j hj => ?_⟩
  by_cases hr : position = r
  · subst hr
    rw [hi] at hj
    cases hj
    obtain ⟨kernel, hq, -, hout⟩ := h.bound position { i with kernel := some k } (by
      rw [getElem?_setKernel, hi, Option.map_some, if_pos rfl])
    refine ⟨kernel, hq, fun _ _ => ⟨k, hout (Or.inl hnot), hserves⟩, fun hcontra => ?_⟩
    rcases hcontra with hmem | hpar
    · exact absurd List.mem_cons_self hmem
    · rw [hp] at hpar
      cases hpar
  · obtain ⟨kernel, hq, hin, hout⟩ := h.bound r j ((getElem?_setKernel_of_ne hr k).trans hj)
    refine ⟨kernel, hq, fun hmem hj' => ?_, fun hcase => hout ?_⟩
    · have hmem' : r ∈ rest := (List.mem_cons.mp hmem).resolve_left fun heq => hr heq.symm
      obtain ⟨c, hc, hs⟩ := hin hmem' hj'
      exact ⟨c, hc, (serves_congr (op_setKernel p position k)).mp hs⟩
    · exact hcase.imp_left fun hcase hmem => hcase (List.mem_cons_of_mem _ hmem)

end Rebound

/-- Binding goes through the positions and leaves the rest as it was. -/
theorem bindAll_eq_value {positions : List Nat} (hnd : positions.Nodup)
    (h : bindAll t p positions w = .value q w') : Rebound t.backend positions p q := by
  induction positions generalizing p w with
  | nil =>
    cases h
    exact ⟨rfl, rfl, rfl, fun k i hi => ⟨i.kernel, hi, fun hk => (nomatch hk), fun _ => rfl⟩⟩
  | cons position rest ih =>
    obtain ⟨hnot, hrest⟩ := List.nodup_cons.mp hnd
    unfold bindAll at h
    obtain ⟨i, _, hget, hbind⟩ := Action.bind_eq_value.mp h
    have hi := eq_of_get (Action.ofOutcome_eq_value.mp hget).1
    by_cases hp : i.isParameter = true
    · rw [if_pos hp] at hbind
      exact (ih hrest hbind).cons_parameter hi hp
    · rw [if_neg hp] at hbind
      obtain ⟨k, w₁, hk, hbind⟩ := Action.bind_eq_value.mp hbind
      exact Rebound.cons_kernel hnot hi (Bool.eq_false_iff.mpr hp)
        (serves_of_bind hi (Action.onRefusal_eq_value.mp hk)) (ih hrest hbind)

/-! ## Kernels apart -/

def bare (i : Instruction) : Instruction := { i with kernel := none }

theorem shapesAt_map_bare (is : List Instruction) (inputs : List Nat) :
    shapesAt (is.map bare) inputs = shapesAt is inputs := by
  unfold shapesAt
  congr 1
  funext r
  rw [List.getElem?_map, Option.map_map]
  rfl

theorem consistent_map_bare {is : List Instruction} :
    Consistent (is.map bare) ↔ Consistent is := by
  induction is using List.reverseRecOn with
  | nil => exact Iff.rfl
  | append_singleton is i ih =>
    rw [List.map_append, List.map_singleton, consistent_concat, consistent_concat, ih]
    unfold Fitted
    rw [shapesAt_map_bare]
    exact Iff.rfl

theorem declared_map_bare (is : List Instruction) : declared (is.map bare) = declared is := by
  rw [declared, declared, List.filterMap_map]
  rfl

theorem meanings_map_bare (env : String → Option View) (is : List Instruction) :
    meanings env (is.map bare) = meanings env is := by
  have hall : ∀ (is : List Instruction) (views : List View),
      denoteFrom env views (is.map bare) = denoteFrom env views is := by
    intro is
    induction is with
    | nil => exact fun _ => rfl
    | cons i is ih =>
      intro views
      rw [List.map_cons, denoteFrom, denoteFrom]
      simp only [ih]
      rfl
  exact hall is []

theorem standardAt_map_bare {is : List Instruction} {r : Nat} :
    StandardAt (is.map bare) r ↔ StandardAt is r := by
  unfold StandardAt
  rw [List.getElem?_map]
  cases is[r]? with
  | none => exact ⟨fun ⟨_, h, _⟩ => (nomatch h), fun ⟨_, h, _⟩ => (nomatch h)⟩
  | some i =>
    constructor
    · rintro ⟨_, h, hs⟩
      cases h
      exact ⟨i, rfl, hs⟩
    · rintro ⟨_, h, hs⟩
      cases h
      exact ⟨bare i, rfl, hs⟩

theorem readsRowMajor_map_bare {selects : Operator → Bool} {is : List Instruction} :
    ReadsRowMajor selects (is.map bare) ↔ ReadsRowMajor selects is := by
  unfold ReadsRowMajor
  simp only [List.forall_mem_map, standardAt_map_bare]
  rfl

theorem Rebound.bare_eq {backend : Backend} {positions : List Nat}
    (h : Rebound backend positions p q) :
    q.instructions.map bare = p.instructions.map bare := by
  refine List.ext_getElem? fun k => ?_
  rw [List.getElem?_map, List.getElem?_map]
  rcases hk : p.instructions[k]? with _ | i
  · rw [List.getElem?_eq_none (by
      rw [h.length]
      exact List.getElem?_eq_none_iff.mp hk)]
  · obtain ⟨kernel, hq, -⟩ := h.bound k i hk
    rw [hq]
    rfl

/-! ## Passes -/

/-- The programs that passes lead through. -/
def Lowers : List Pass → Program → Program → Prop
  | [], p, q => q = p
  | pass :: rest, p, q => ∃ r, pass.apply p = .value () r ∧ Lowers rest r q

theorem Lowers.unique {passes : List Pass} {r : Program} (h : Lowers passes p q)
    (h' : Lowers passes p r) : q = r := by
  induction passes generalizing p with
  | nil => exact h.trans h'.symm
  | cons pass rest ih =>
    obtain ⟨p₁, hp₁, h⟩ := h
    obtain ⟨p₂, hp₂, h'⟩ := h'
    rw [hp₁] at hp₂
    cases hp₂
    exact ih h h'

theorem run_eq_value {pass : Pass} {stopped : Option Error}
    (h : pass.run p w = .value (q, stopped) w') (hs : stopped = none) :
    pass.apply p = .value () q := by
  subst hs
  unfold Pass.run at h
  revert h
  cases pass.apply p with
  | halted => exact fun h => nomatch h
  | value u q' =>
    intro h
    obtain ⟨_, w₁, _, h⟩ := Action.bind_eq_value.mp h
    revert h
    generalize pass.report p q' = report?
    intro h
    cases report? with
    | none =>
      cases h
      rfl
    | some report =>
      obtain ⟨_, w₂, _, h⟩ := Action.bind_eq_value.mp h
      cases h
      rfl
  | refused e q' =>
    intro h
    obtain ⟨_, w₁, _, h⟩ := Action.bind_eq_value.mp h
    cases h

theorem lower_eq_value {passes : List Pass} (h : lower t p passes w = .value q w') :
    Lowers passes p q := by
  induction passes generalizing p w with
  | nil =>
    cases h
    rfl
  | cons pass rest ih =>
    unfold lower at h
    obtain ⟨⟨r, stopped⟩, w₁, hrun, h⟩ := Action.bind_eq_value.mp h
    cases stopped with
    | some e =>
      obtain ⟨_, w₂, _, h⟩ := Action.bind_eq_value.mp h
      cases h
    | none =>
      refine ⟨r, run_eq_value hrun rfl, ?_⟩
      obtain ⟨w₂, w₃, _, h⟩ := Action.bind_eq_value.mp h
      split at h
      · obtain ⟨_, w₄, _, h⟩ := Action.bind_eq_value.mp h
        exact ih h
      · exact ih h

/-- A compiled program is what the passes made, bound to the target. -/
theorem compile_eq_value (h : p.compile t w = .value q w') :
    p.target = none ∧ q.target = some t ∧ ∃ lowered, Lowers t.passes p lowered ∧
      Rebound t.backend (List.range lowered.size) lowered { q with target := lowered.target } := by
  unfold compile at h
  revert h
  rcases Option.eq_none_or_eq_some p.target with ht | ⟨current, ht⟩
  · rw [ht]
    intro h
    obtain ⟨lowered, w₁, hlower, h⟩ := Action.bind_eq_value.mp h
    obtain ⟨bound, w₂, hbind, h⟩ := Action.bind_eq_value.mp h
    obtain ⟨_, w₃, _, h⟩ := Action.bind_eq_value.mp h
    cases h
    obtain ⟨hparams, htarget, hlen, hbound⟩ := bindAll_eq_value List.nodup_range hbind
    exact ⟨rfl, rfl, lowered, lower_eq_value hlower, hparams, rfl, hlen, hbound⟩
  · rw [ht]
    exact fun h => nomatch h

theorem hostNeeds_keeps {op : Operator} (h : Target.hostNeeds op = true) :
    op.forwardsLayout = false := by
  cases op <;> first | rfl | cases h

theorem deviceNeeds_keeps {op : Operator} (h : Target.deviceNeeds op = true) :
    op.forwardsLayout = false := by
  cases op <;> first | rfl | cases h

theorem steady_of_keeps {needs : Operator → Bool} (is done : List Instruction)
    (h : ∀ op, needs op = true → op.forwardsLayout = false) : Steady needs is done := by
  intro i _ hneeds hforward
  rw [h i.op hneeds] at hforward
  cases hforward

structure Lowered (copies : List Operator) (p q : Program) : Prop where
  refines : Refines copies p q
  consistent : Consistent q.instructions
  laid : Laid q.instructions

theorem lowered_of_insertContiguous {r : Program} {needs : Operator → Bool}
    (hneeds : ∀ op, needs op = true → op.forwardsLayout = false)
    (hc : Consistent p.instructions) (ht : p.target = none)
    (hdead : eliminateDeadCode p = .value () r)
    (hinsert : insertContiguous needs r = .value () q) : Lowered [.contiguous] p q := by
  obtain ⟨hrefines, hcons⟩ := eliminateDeadCode_value hc ht hdead
  have hends : Turn.Ends False _ (insertContiguous needs r) :=
    insertContiguous_ends hcons hrefines.target False.elim
  obtain ⟨hrefines', hlaid, hiff, -⟩ := Turn.Ends.of_value hends hinsert
  exact ⟨hrefines.trans hrefines', hiff.mpr (steady_of_keeps _ _ hneeds), hlaid⟩

theorem lowered_host (hc : Consistent p.instructions) (ht : p.target = none)
    (h : Lowers Target.host.passes p q) : Lowered [.contiguous] p q := by
  obtain ⟨r, hdead, r', hinsert, rfl⟩ := h
  exact lowered_of_insertContiguous (fun op => hostNeeds_keeps) hc ht hdead hinsert

/-- The passes of a device feed it, and bring back the output if that was asked for. -/
theorem lowered_device {id : DeviceId} {offload : Bool} (hc : Consistent p.instructions)
    (ht : p.target = none) (h : Lowers (Target.device id offload).passes p q) :
    Lowered [.contiguous, .hostToDevice, .deviceToHost] p q ∧ Fed q.instructions ∧
      (∀ j, q.last? = some j → startsOnHost j.op = false ∧ (offload = true → j.op = .deviceToHost)) ∧
      ((∀ i ∈ p.instructions, i.op.isTransfer = false) → ∀ k j, q.instructions[k]? = some j →
        j.op = .deviceToHost → offload = true ∧ k + 1 = q.instructions.length) := by
  obtain ⟨r, hdead, r', hinsert, r'', hmove, rfl⟩ := h
  have hlow := lowered_of_insertContiguous (fun op => deviceNeeds_keeps) hc ht hdead hinsert
  have hends : Turn.Ends False _ (insertTransfers offload r') :=
    insertTransfers_ends offload hlow.consistent hlow.refines.target
  obtain ⟨hrefines, hcons, hlaid, hfed, hlast, honly⟩ := Turn.Ends.of_value hends hmove
  refine ⟨⟨hlow.refines.trans hrefines, hcons, hlaid hlow.laid⟩, hfed, hlast,
    fun hfree => honly fun j hj => ?_⟩
  rcases hlow.refines.origin j hj with ⟨i, hi, hop, -⟩ | ⟨hop, -⟩
  · rw [hop, hfree i hi]
  · rw [List.mem_singleton.mp hop]
    rfl

end Program
end TensorGraph
