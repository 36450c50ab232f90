/-
Binding kernels.

The host has a kernel for every operator that is no transfer, `compile_host_ends`.  On a device
a constant is moved when the kernel of its transfer is bound, so binding goes through where there
is room for the constants, and the device then keeps each of them: `compile_device_ends`.
-/
import TensorGraph.Proofs.Program.Lower
import TensorGraph.Proofs.Program.OnDevice

namespace TensorGraph

open Operator (Infers)

namespace Program

variable {p q : Program} {w w' : World} {id : DeviceId} {offload : Bool} {fits : Prop} {next : Nat}
variable {pins pins' : List Resident} {is : List Instruction} {i : Instruction} {position : Nat}
variable {c : BoundKernel}

/-! ## On the host -/

theorem setKernel_op {r : Nat} {j : Instruction} (hj : p.instructions[r]? = some j)
    (c : BoundKernel) :
    ∃ j', (p.setKernel position c).instructions[r]? = some j' ∧ j'.op = j.op := by
  have hop := op_setKernel p position c r
  rw [hj, Option.map_some] at hop
  exact Option.map_eq_some_iff.mp hop

theorem bindAll_host_ends {positions : List Nat}
    (h : ∀ r ∈ positions, ∃ i, p.instructions[r]? = some i ∧ i.op.isTransfer = false) :
    (bindAll .host p positions w).Ends fits fun _ _ => True := by
  induction positions generalizing p w with
  | nil => exact trivial
  | cons position rest ih =>
    rw [List.forall_mem_cons] at h
    obtain ⟨⟨i, hi, hop⟩, hrest⟩ := h
    unfold bindAll
    rw [Action.bind_lift_of_value (get_of_getElem? hi)]
    split
    · exact ih hrest
    · have hbind : Target.host.bind p position w = .value (.host i.op) w := by
        unfold Target.bind
        rw [Action.bind_lift_of_value (get_of_getElem? hi)]
        show Action.ofOutcome (Backend.bindHost i.op) w = _
        unfold Backend.bindHost
        rw [hop]
        rfl
      refine Action.ends_bind (P := fun _ _ => True)
        (Action.ends_onRefusal (by rw [hbind]; exact trivial)) fun c w₁ _ => ih fun r hr => ?_
      obtain ⟨j, hj, hjop⟩ := hrest r hr
      obtain ⟨j', hj', heq⟩ := setKernel_op hj c
      exact ⟨j', hj', heq ▸ hjop⟩

/-- Compiling a program without transfers for the host goes through where the passes do. -/
theorem compile_host_ends {lowered : Program} (hb : Built p)
    (hp : ∀ i ∈ p.instructions, i.op.isTransfer = false)
    (hlower : Lowers Target.host.passes p lowered) (w : World) :
    (p.compile .host w).Ends fits fun _ _ => True := by
  obtain ⟨hwell, hopen, hfree, -⟩ := hb.unbound
  have hlow := lowered_host hwell.consistent hopen hlower
  obtain ⟨w₁, -, hrun⟩ := lower_of_lowers (Or.inl rfl) hwell.consistent hopen hfree hlower w
  unfold compile
  rw [hopen]
  dsimp only
  rw [Action.bind_of_value hrun]
  refine Action.ends_bind (bindAll_host_ends fun r hr => ?_) fun _ _ _ => trivial
  have hlt : r < lowered.instructions.length := List.mem_range.mp hr
  refine ⟨_, List.getElem?_eq_getElem hlt, ?_⟩
  rcases hlow.refines.origin _ (List.getElem_mem hlt) with ⟨i, hi, hop, -⟩ | ⟨hop, -⟩
  · rw [hop, hp i hi]
  · rw [List.mem_singleton.mp hop]
    rfl

/-! ## Constants on a device -/

/-- Whether the constants that kernels hold are among given tensors, as what they mean. -/
def Pinned (pins : List Resident) (is : List Instruction) : Prop :=
  ∀ i ∈ is, ∀ (r : Nat) (j : Instruction) (l : Literal) (b : DeviceBuffer), i.inputs = [r] →
    is[r]? = some j → j.op = .literal l →
    i.kernel = some (.resident ⟨l.shape, some (.device b)⟩) →
    ⟨b, l.shape, View.ofBytes l.shape l.shape.dtype.size l.bytes⟩ ∈ pins

structure Bindable (fits : Prop) (next : Nat) (p : Program) : Prop where
  consistent : Consistent p.instructions
  populated : ∀ i ∈ p.instructions, i.shape.Populated
  literals : ∀ i ∈ p.instructions, ∀ l, i.op = .literal l → l.Made
  addressable : fits → ∀ i ∈ p.instructions, i.shape.Addressable
  roomy : fits → Roomy next p.instructions

/-! ### One kernel -/

theorem instructions_setKernel (hi : p.instructions[position]? = some i) (c : BoundKernel) :
    (p.setKernel position c).instructions =
      p.instructions.set position { i with kernel := some c } := by
  rw [setKernel, List.modify_eq_set_getElem?, hi]
  rfl

theorem map_bare_setKernel (p : Program) (position : Nat) (c : BoundKernel) :
    (p.setKernel position c).instructions.map bare = p.instructions.map bare := by
  refine List.ext_getElem? fun r => ?_
  rw [List.getElem?_map, List.getElem?_map, getElem?_setKernel, Option.map_map]
  refine congrArg (Option.map · _) (funext fun i => ?_)
  show bare (if position = r then _ else i) = bare i
  split <;> rfl

theorem sum_map_set {l : List Instruction} {k : Nat} (f : Instruction → Nat) (hi : l[k]? = some i)
    (j : Instruction) : ((l.set k j).map f).sum + f i = (l.map f).sum + f j := by
  induction l generalizing k with
  | nil => cases hi
  | cons a l ih =>
    cases k with
    | zero =>
      cases hi
      rw [List.set_cons_zero, List.map_cons, List.map_cons, List.sum_cons, List.sum_cons]
      omega
    | succ k =>
      have hrest := ih hi
      rw [List.set_cons_succ, List.map_cons, List.map_cons, List.sum_cons, List.sum_cons]
      omega

/-- A kernel whose room was accounted for leaves room for the others. -/
theorem Bindable.setKernel {next' : Nat} (h : Bindable fits next p)
    (hi : p.instructions[position]? = some i)
    (hnext : next' + ({ i with kernel := some c } : Instruction).demand = next + i.demand) :
    Bindable fits next' (p.setKernel position c) := by
  have hall : ∀ {P : Instruction → Prop}, (∀ i ∈ p.instructions, P i) →
      P { i with kernel := some c } → ∀ i ∈ (p.setKernel position c).instructions, P i := by
    intro P hP hnew j hj
    rw [instructions_setKernel hi] at hj
    rcases List.mem_or_eq_of_mem_set hj with hj | rfl
    · exact hP j hj
    · exact hnew
  have hmem := List.mem_of_getElem? hi
  refine ⟨?_, hall h.populated (h.populated i hmem), hall h.literals (h.literals i hmem),
    fun hf => hall (h.addressable hf) (h.addressable hf i hmem), fun hf => ⟨?_, ?_⟩⟩
  · rw [← consistent_map_bare, map_bare_setKernel, consistent_map_bare]
    exact h.consistent
  · have hsum := sum_map_set Instruction.demand hi { i with kernel := some c }
    have hle := (h.roomy hf).1
    rw [instructions_setKernel hi]
    omega
  · exact hall (h.roomy hf).2 ((h.roomy hf).2 i hmem)

theorem le_sum_demand (hi : is[position]? = some i) :
    i.demand ≤ (is.map Instruction.demand).sum :=
  List.le_sum_of_mem (List.mem_map_of_mem (List.mem_of_getElem? hi))

theorem bindDevice_of_isCompute (hc : i.op.isCompute = true) (target : String) (p : Program) :
    Backend.bindDevice id target p i = (do
      let some d := (← MonadState.get).devices[id]? | Action.halt
      if i.op.isCompute && d.supports i.op i.shape.dtype then return .launch i.op id
      else
        Action.refuse (.lowering i.op.name (target ++ ":" ++ deviceName)
          (.noKernelProducing i.shape.dtype)) : Action World BoundKernel) := by
  obtain ⟨op, inputs, s, kernel⟩ := i
  cases op with
  | literal | parameter | reshape | transpose | hostToDevice | deviceToHost => cases hc
  | _ => rfl

/-- What a new kernel holds is to be among the tensors as well. -/
theorem Pinned.setKernel (h : Pinned pins p.instructions) (hsub : pins ⊆ pins')
    (hi : p.instructions[position]? = some i)
    (hnew : ∀ (r : Nat) (j : Instruction) (l : Literal) (b : DeviceBuffer), i.inputs = [r] →
      p.instructions[r]? = some j → j.op = .literal l →
      c = .resident ⟨l.shape, some (.device b)⟩ →
      ⟨b, l.shape, View.ofBytes l.shape l.shape.dtype.size l.bytes⟩ ∈ pins') :
    Pinned pins' (p.setKernel position c).instructions := by
  intro i' hi' r j l b hin hj hop hk
  obtain ⟨j', hj', hop'⟩ : ∃ j', p.instructions[r]? = some j' ∧ j'.op = .literal l := by
    rw [getElem?_setKernel] at hj
    obtain ⟨j', hj', rfl⟩ := Option.map_eq_some_iff.mp hj
    refine ⟨j', hj', ?_⟩
    rw [← hop]
    split <;> rfl
  rw [instructions_setKernel hi] at hi'
  rcases List.mem_or_eq_of_mem_set hi' with hi' | rfl
  · exact hsub (h i' hi' r j' l b hin hj' hop' hk)
  · exact hnew r j' l b hin hj' hop' (Option.some.inj hk)

/-- What binding the kernel of an instruction adds to the tensors that a device keeps. -/
def Adds (fits : Prop) (id : DeviceId) (next : Nat) (pins : List Resident) (p : Program)
    (i : Instruction) (c : BoundKernel) (w : World) : Prop :=
  ∃ next' pins', pins ⊆ pins' ∧ w.Loaded fits id next' pins' ∧
    next' + ({ i with kernel := some c } : Instruction).demand = next + i.demand ∧
    ∀ (r : Nat) (j : Instruction) (l : Literal) (b : DeviceBuffer), i.inputs = [r] →
      p.instructions[r]? = some j → j.op = .literal l →
      c = .resident ⟨l.shape, some (.device b)⟩ →
      ⟨b, l.shape, View.ofBytes l.shape l.shape.dtype.size l.bytes⟩ ∈ pins'

theorem adds_nothing (hw : w.Loaded fits id next pins)
    (hdemand : ({ i with kernel := some c } : Instruction).demand = i.demand)
    (hc : ∀ a, c ≠ .resident a) : Adds fits id next pins p i c w :=
  ⟨next, pins, List.Subset.refl _, hw, by rw [hdemand], fun _ _ _ _ _ _ _ heq => absurd heq (hc _)⟩

theorem bindDevice_launch_ends {shapes : List Shape} (hinfers : Operator.Infers i.op shapes i.shape)
    (hc : i.op.isCompute = true) (hw : w.Loaded fits id next pins) (target : String) :
    (Backend.bindDevice id target p i w).Ends fits (Adds fits id next pins p i) := by
  obtain ⟨d, hd, -, hholds⟩ := hw.target
  have hsupports := Device.supports_of_infers hinfers hc (hholds.unlimited trivial).2
  rw [bindDevice_of_isCompute hc, Action.bind_of_value Action.get_apply, hd]
  dsimp only
  rw [hc, hsupports]
  have hdemand : ({ i with kernel := some (.launch i.op id) } : Instruction).demand =
      i.demand := by
    rw [Instruction.demand_of_isCompute hc]
    exact Instruction.demand_of_isCompute hc
  exact adds_nothing hw hdemand fun _ heq => nomatch heq

/-- A constant is moved to the device when the kernel of its transfer is bound. -/
theorem bindDevice_transfer_ends (h : Bindable fits next p)
    (hi : p.instructions[position]? = some i) (hop : i.op = .hostToDevice) (hfree : i.kernel = none)
    (hw : w.Loaded fits id next pins) (target : String) :
    (Backend.bindDevice id target p i w).Ends fits (Adds fits id next pins p i) := by
  have hmem := List.mem_of_getElem? hi
  obtain ⟨shapes, hshapes, hinfers⟩ := h.consistent.infers hi
  obtain rfl : shapes = [i.shape] := hinfers.inputs_eq_of_isTransfer (by rw [hop]; rfl)
  obtain ⟨r, j, hin, hj, hjs⟩ := inputs_eq_singleton hshapes
  have hjmem := List.mem_of_getElem? hj
  have hpi := h.populated i hmem
  have hdemand : fits → next + i.demand ≤ Word.maxUnsigned := fun hf =>
    (Nat.add_le_add_left (le_sum_demand hi) next).trans (h.roomy hf).1
  have haddr := fun hf => h.addressable hf i hmem
  have hroomy := fun hf => (h.roomy hf).2 i hmem
  obtain ⟨op, inputs, s, kernel⟩ := i
  obtain rfl : op = .hostToDevice := hop
  obtain rfl : inputs = [r] := hin
  obtain rfl : kernel = none := hfree
  unfold Backend.bindDevice
  dsimp only
  rw [Action.bind_lift_of_value (get_of_getElem? hj)]
  cases hlit : j.op with
  | literal l =>
    obtain rfl : l.shape = s := by
      obtain ⟨_, -, hinfers'⟩ := h.consistent.infers hj
      exact (hinfers'.shape_of_literal hlit).symm.trans hjs
    refine Action.ends_bind (hw.toDevice_ends (fun hf => hf)
      (Or.inl (Kernel.ofLiteral_stores (h.literals j hjmem l hlit) hpi)) hpi haddr
      fun hf => ⟨hdemand hf, hroomy hf⟩) ?_
    rintro _ w₁ ⟨res, rfl, hshape, htensor, hid, hw₁⟩
    refine ⟨_, res :: pins, List.subset_cons_self _ _, hw₁, rfl, ?_⟩
    intro r' j' l' b hr' hj' hop' heq
    cases hr'
    rw [hj] at hj'
    cases hj'
    rw [hlit] at hop'
    cases hop'
    obtain ⟨b', s', v⟩ := res
    cases heq
    cases htensor
    exact List.mem_cons_self
  | _ => exact adds_nothing hw rfl fun _ heq => nomatch heq

theorem bind_device_ends (h : Bindable fits next p) (hi : p.instructions[position]? = some i)
    (hp : i.isParameter = false) (hfree : i.kernel = none) (hw : w.Loaded fits id next pins) :
    ((Target.device id offload).bind p position w).Ends fits (Adds fits id next pins p i) := by
  obtain ⟨shapes, hshapes, hinfers⟩ := h.consistent.infers hi
  unfold Target.bind
  rw [Action.bind_lift_of_value (get_of_getElem? hi)]
  show (Backend.bindDevice id "gpu" p i w).Ends fits _
  by_cases hc : i.op.isCompute = true
  · exact bindDevice_launch_ends hinfers hc hw "gpu"
  by_cases hop : i.op = .hostToDevice
  · exact bindDevice_transfer_ends h hi hop hfree hw "gpu"
  obtain ⟨op, inputs, s, kernel⟩ := i
  obtain rfl : kernel = none := hfree
  unfold Backend.bindDevice
  cases op with
  | literal | deviceToHost | reshape | transpose =>
    exact adds_nothing hw rfl fun _ heq => nomatch heq
  | hostToDevice => exact absurd rfl hop
  | parameter => cases hp
  | _ => exact absurd rfl hc

/-! ### All kernels -/

/-- Binding goes through where there is room for the constants, and the device keeps them. -/
theorem bindAll_device_ends {positions : List Nat} (hnd : positions.Nodup)
    (hfree : ∀ r ∈ positions, ∃ i, p.instructions[r]? = some i ∧ i.kernel = none)
    (h : Bindable fits next p) (hw : w.Loaded fits id next pins)
    (hpinned : Pinned pins p.instructions) :
    (bindAll (.device id offload) p positions w).Ends fits fun q w' => ∃ next' pins',
      w'.Loaded fits id next' pins' ∧ Pinned pins' q.instructions ∧
        (fits → Roomy next' q.instructions) := by
  induction positions generalizing p w next pins with
  | nil => exact ⟨next, pins, hw, hpinned, h.roomy⟩
  | cons position rest ih =>
    obtain ⟨hnot, hrest⟩ := List.nodup_cons.mp hnd
    rw [List.forall_mem_cons] at hfree
    obtain ⟨⟨i, hi, hnone⟩, hfree⟩ := hfree
    unfold bindAll
    rw [Action.bind_lift_of_value (get_of_getElem? hi)]
    by_cases hp : i.isParameter = true
    · rw [if_pos hp]
      exact ih hrest hfree h hw hpinned
    · rw [if_neg hp]
      rw [Bool.not_eq_true] at hp
      refine Action.ends_bind (Action.ends_onRefusal (bind_device_ends h hi hp hnone hw)) ?_
      rintro c w₁ ⟨next', pins', hsub, hw₁, hnext, hnew⟩
      refine ih hrest (fun r hr => ?_) (h.setKernel hi hnext) hw₁ ?_
      · obtain ⟨j, hj, hjnone⟩ := hfree r hr
        have hne : position ≠ r := fun heq => hnot (heq ▸ hr)
        exact ⟨j, (getElem?_setKernel_of_ne hne c).trans hj, hjnone⟩
      · exact hpinned.setKernel hsub hi hnew

theorem pinned_of_kernel_eq_none (h : ∀ i ∈ is, i.kernel = none) : Pinned pins is := by
  intro i hi r j l b _ _ _ hk
  rw [h i hi] at hk
  cases hk

/-- Compiling for a device goes through where there is room for the constants, and the device
keeps them. -/
theorem compile_device_ends {lowered : Program} (hb : Built p)
    (hp : ∀ i ∈ p.instructions, i.shape.Populated)
    (hlower : Lowers (Target.device id offload).passes p lowered)
    (haddr : fits → ∀ i ∈ lowered.instructions, i.shape.Addressable)
    (hroom : fits → Roomy next lowered.instructions) (hw : w.Loaded fits id next []) :
    (p.compile (.device id offload) w).Ends fits fun q w' => ∃ next' pins,
      w'.Loaded fits id next' pins ∧ Pinned pins q.instructions ∧
        (fits → Roomy next' q.instructions) := by
  obtain ⟨hwell, hopen, hfree, hmade⟩ := hb.unbound
  obtain ⟨hlow, -⟩ := lowered_device hwell.consistent hopen hlower
  obtain ⟨w₁, hw₁, hrun⟩ := lower_of_lowers (Or.inr ⟨id, offload, rfl⟩) hwell.consistent hopen
    hfree hlower w
  have hkernels := hlow.refines.kernels hfree
  have hbindable : Bindable fits next lowered := by
    refine ⟨hlow.consistent, fun j hj => ?_, fun j hj l hl => ?_, haddr, hroom⟩
    · obtain ⟨i, hi, hlens⟩ := hlow.refines.lens j hj
      intro n hn
      exact hp i hi n (by rwa [← hlens])
    · rcases hlow.refines.origin j hj with ⟨i, hi, hop, -⟩ | ⟨hmem, -⟩
      · exact hmade i hi l (hop.symm.trans hl)
      · rw [hl] at hmem
        simp at hmem
  have hvacant : ∀ r ∈ List.range lowered.size, ∃ i, lowered.instructions[r]? = some i ∧
      i.kernel = none := by
    intro r hr
    have hlt : r < lowered.instructions.length := List.mem_range.mp hr
    exact ⟨_, List.getElem?_eq_getElem hlt, hkernels _ (List.getElem_mem hlt)⟩
  unfold compile
  rw [hopen]
  dsimp only
  rw [Action.bind_of_value hrun]
  refine Action.ends_bind (bindAll_device_ends List.nodup_range hvacant hbindable
    (hw.congr hw₁.devices hw₁.held) (pinned_of_kernel_eq_none hkernels)) ?_
  rintro bound w₂ ⟨next', pins, hloaded, hpinned, hroomy⟩
  exact ⟨next', pins, hloaded.congr rfl rfl, hpinned, hroomy⟩

end Program
end TensorGraph
