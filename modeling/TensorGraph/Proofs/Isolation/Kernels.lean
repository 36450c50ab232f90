/-
Kernels in two worlds.

Two programs are twins if they differ in nothing but the device that they are bound to and the
buffers that their kernels hold.  A value of one program matches that of the other if they are
alike and, where the value was computed, in buffers on the devices of the two programs.  Every
kernel makes matching values of matching ones: `Linked.compute`.
-/
import TensorGraph.Proofs.Isolation.Launch
import TensorGraph.Proofs.Ownership.Compile
import TensorGraph.Proofs.Program.Parity

namespace TensorGraph

/-! ## Twins -/

/-- Whether two kernels are the same, each on its device and with its constant there. -/
inductive BoundKernel.Alike (here there : DeviceId) : BoundKernel → BoundKernel → Prop
  | same (k : BoundKernel) : Alike here there k k
  | resident {a₁ a₂ : Argument} : a₁.Alike a₂ → Alike here there (.resident a₁) (.resident a₂)
  | upload : Alike here there (.upload here) (.upload there)
  | launch (op : Operator) : Alike here there (.launch op here) (.launch op there)

theorem BoundKernel.Alike.resident? {here there : DeviceId} {k₁ k₂ : BoundKernel}
    (h : k₁.Alike here there k₂) : k₂.resident?.isSome = k₁.resident?.isSome := by
  cases h with
  | resident ha => cases ha <;> rfl
  | _ => rfl

namespace Instruction

structure Alike (here there : DeviceId) (i₁ i₂ : Instruction) : Prop where
  op : i₂.op = i₁.op
  inputs : i₂.inputs = i₁.inputs
  shape : i₂.shape = i₁.shape
  kernel : Option.Rel (BoundKernel.Alike here there) i₁.kernel i₂.kernel

theorem alike_self (here there : DeviceId) (i : Instruction) : i.Alike here there i := by
  refine ⟨rfl, rfl, rfl, ?_⟩
  cases i.kernel with
  | none => exact .none
  | some k => exact .some (.same k)

theorem Alike.resident {here there : DeviceId} {i₁ i₂ : Instruction}
    (h : i₁.Alike here there i₂) : i₂.resident?.isSome = i₁.resident?.isSome := by
  have hkernel := h.kernel
  unfold resident?
  generalize i₁.kernel = kernel₁, i₂.kernel = kernel₂ at hkernel
  cases hkernel with
  | none => rfl
  | some hk => exact hk.resident?

def links (i₁ i₂ : Instruction) : List Pair :=
  match i₁.resident?, i₂.resident? with
  | some b₁, some b₂ => [(b₁, b₂)]
  | _, _ => []

theorem links_of_some {i₁ i₂ : Instruction} {b₁ b₂ : DeviceBuffer} (h₁ : i₁.resident? = some b₁)
    (h₂ : i₂.resident? = some b₂) : i₁.links i₂ = [(b₁, b₂)] := by
  unfold links
  rw [h₁, h₂]

theorem links_of_none {i₁ : Instruction} (h₁ : i₁.resident? = none) (i₂ : Instruction) :
    i₁.links i₂ = [] := by
  unfold links
  rw [h₁]

end Instruction

namespace Program

variable {c : Comparison} {p q q₁ q₂ : Program} {i i₁ i₂ : Instruction} {a a₁ a₂ : Argument}
variable {id here there : DeviceId} {offload : Bool} {r : Nat} {w w' : World}

/-- Whether two programs are the same but for the devices of their kernels. -/
structure Resembles (here there : DeviceId) (p₁ p₂ : Program) : Prop where
  instructions : List.Forall₂ (Instruction.Alike here there) p₁.instructions p₂.instructions
  parameters : p₂.parameters = p₁.parameters
  isCompiled : p₂.isCompiled = p₁.isCompiled

def links (p₁ p₂ : Program) : List Pair :=
  (p₁.instructions.zip p₂.instructions).flatMap fun e => e.1.links e.2

/-- What a program that was compiled for a device is sure of. -/
structure OnDevice (id : DeviceId) (q : Program) : Prop where
  consistent : Consistent q.instructions
  fed : Fed q.instructions
  parameters : ∀ name s, (name, s) ∈ declared q.instructions → (name, s) ∈ q.parameters
  kernels : ∀ i ∈ q.instructions, i.isParameter = false →
    ∃ k, i.kernel = some k ∧ (Backend.device id).Serves q.instructions i k
  valid : ∀ i ∈ q.instructions, ∀ a, i.kernel = some (.resident a) → a.Valid

/-- Calls on a program that was compiled for a device leave its kernels and feed it as it was. -/
theorem OnDevice.concat (h : q.OnDevice id) {added : List Instruction} {p : Program}
    (hp : p.instructions = q.instructions ++ added) (hsound : Sound p)
    (ht : p.target = some (.device id offload))
    (hadded : ∀ i ∈ added, i.BoundLiteral (.device id offload)) : p.OnDevice id where
  consistent := hsound.wellFormed.consistent
  fed := by
    intro i hi r hr
    rw [hp] at hi ⊢
    rcases List.mem_append.mp hi with hi | hi
    · obtain ⟨j, hj, hstarts⟩ := h.fed i hi r hr
      exact ⟨j, getElem?_append_of_some hj _, hstarts⟩
    · obtain ⟨l, k, rfl, -⟩ := hadded i hi
      cases hr
  parameters name s hmem := hsound.wellFormed.parameters.mem_iff.mpr hmem
  kernels := (hsound.bound _ ht).2
  valid i hi a ha := by
    rw [hp] at hi
    rcases List.mem_append.mp hi with hi | hi
    · exact h.valid i hi a ha
    · obtain ⟨l, k, rfl, hserves⟩ := hadded i hi
      cases ha
      cases hserves

theorem onDevice_of_compile (hp : Sound p) (h : p.compile (.device id offload) w = .value q w') :
    q.OnDevice id := by
  have hstock : (Target.device id offload).Stock := Or.inr ⟨id, offload, rfl⟩
  have hsound := hp.compile hstock h
  obtain ⟨hopen, htarget, -⟩ := compile_eq_value h
  obtain ⟨lowered, hlower, hbare⟩ := exists_lowered h
  exact ⟨hsound.wellFormed.consistent,
    (lowered_device hp.wellFormed.consistent hopen hlower).2.1.congr hbare,
    fun _ _ hmem => hsound.wellFormed.parameters.mem_iff.mpr hmem, (hsound.bound _ htarget).2,
    valid_of_compile hp hstock h⟩

/-- Every program that is compiled for a device is what is sure of it, at any point of its life. -/
theorem Reached.onDevice (h : Reached q) (ht : q.target = some (.device id offload)) :
    q.OnDevice id := by
  induction h with
  | refl => cases ht
  | @tail p q hp hstep ih =>
    have hsound : Sound p := Reached.sound hp
    rcases Option.eq_none_or_eq_some p.target with hopen | ⟨t, hpt⟩
    · -- an open program is compiled by compiling only
      have hsame : q.target = p.target → q.OnDevice id := fun heq => by
        rw [heq, hopen] at ht
        cases ht
      cases hstep with
      | @addParameter _ name s hq =>
        exact hsame (((grows_addParameter name s p).always (fun _ _ hq => hq.target)
          fun _ hq => hq.target).of_leaves hq)
      | @addInstruction _ op inputs hq =>
        exact hsame (((grows_addInstruction op inputs p).always (fun _ _ hq => hq.target)
          fun _ hq => hq.target).of_leaves hq)
      | addLiteral hq =>
        rw [addLiteral_of_open hopen] at hq
        cases hq
        exact hsame rfl
      | addLiteralRefused => exact hsame rfl
      | compile _ hq =>
        have htarget := (compile_eq_value hq).2.1
        rw [ht] at htarget
        cases htarget
        exact onDevice_of_compile hsound hq
      | compileRefused => exact hsame rfl
    · obtain ⟨hqt, -, added, hq, hadded⟩ := hstep.grown hsound hpt
      have heq := ht
      rw [hqt] at heq
      cases heq
      exact (ih hpt).concat hq (hsound.step hstep) ht hadded

/-- Whether programs on the two devices of a comparison are twins that hold pairs of it. -/
structure Twins (c : Comparison) (q₁ q₂ : Program) : Prop where
  resembles : q₁.Resembles c.here c.there q₂
  left : q₁.OnDevice c.here
  right : q₂.OnDevice c.there
  links : q₁.links q₂ ⊆ c.shared

/-- Whether values in two worlds stand for one instruction.  What was computed is on the two
devices if it is on a device. -/
structure Matches (c : Comparison) (i : Instruction) (a₁ a₂ : Argument) : Prop where
  alike : a₁.Alike a₂
  shape : a₁.shape = i.shape
  placed : startsOnHost i.op = false → ∀ p ∈ a₁.links a₂,
    p.1.device = c.here ∧ p.2.device = c.there ∧ a₁.Valid

theorem Resembles.exists_right (h : q₁.Resembles here there q₂)
    (hi : q₁.instructions[r]? = some i₁) :
    ∃ i₂, q₂.instructions[r]? = some i₂ ∧ i₁.Alike here there i₂ := by
  obtain ⟨hlt, rfl⟩ := List.getElem?_eq_some_iff.mp hi
  have hlt₂ : r < q₂.instructions.length := h.instructions.length_eq ▸ hlt
  exact ⟨_, List.getElem?_eq_getElem hlt₂, List.Forall₂.get h.instructions hlt hlt₂⟩

theorem Resembles.size (h : q₁.Resembles here there q₂) : q₂.size = q₁.size :=
  h.instructions.length_eq.symm

/-- What the kernels of one instruction hold is among what the programs hold. -/
theorem links_subset (hi₁ : q₁.instructions[r]? = some i₁) (hi₂ : q₂.instructions[r]? = some i₂) :
    i₁.links i₂ ⊆ q₁.links q₂ := by
  intro p hp
  refine List.mem_flatMap.mpr ⟨(i₁, i₂), List.mem_of_getElem? (i := r) ?_, hp⟩
  rw [List.getElem?_zip_eq_some]
  exact ⟨hi₁, hi₂⟩

theorem matches_of_location (ha : a₁.Alike a₂) (hshape : a₁.shape = i.shape)
    (hlocation : a₁.location ≠ some .device) : Matches c i a₁ a₂ := by
  refine ⟨ha, hshape, fun _ p hp => ?_⟩
  cases ha with
  | absent => cases hp
  | host => cases hp
  | device => exact absurd rfl hlocation

theorem matches_device {p : Pair} {s : Shape} (hsize : p.2.size = p.1.size) (hs : s = i.shape)
    (hhere : p.1.device = c.here) (hthere : p.2.device = c.there)
    (hvalid : Argument.Valid ⟨s, some (.device p.1)⟩) :
    Matches c i ⟨s, some (.device p.1)⟩ ⟨s, some (.device p.2)⟩ := by
  refine ⟨.device s hsize, hs, fun _ q hq => ?_⟩
  cases List.mem_singleton.mp hq
  exact ⟨hhere, hthere, hvalid⟩

/-- The kernel of a transfer to the device holds a constant or moves what it reads. -/
theorem OnDevice.hostToDevice (h : q.OnDevice id) (hi : q.instructions[r]? = some i)
    (hop : i.op = .hostToDevice) :
    (∃ b, i.kernel = some (.resident ⟨i.shape, some (.device b)⟩) ∧ b.device = id ∧
        i.resident? = some b) ∨ i.kernel = some (.upload id) ∧ i.resident? = none := by
  have hp : i.isParameter = false := congrArg Operator.isParameter hop
  obtain ⟨k, hk, hserves⟩ := h.kernels i (List.mem_of_getElem? hi) hp
  unfold Instruction.resident?
  rw [hk]
  cases assigned_of_serves h.consistent hi hp hserves with
  | @resident _ _ _ b _ _ _ _ _ hb => exact Or.inl ⟨b, rfl, hb, rfl⟩
  | upload => exact Or.inr ⟨rfl, rfl⟩
  | literal hop' | download hop' =>
    rw [hop] at hop'
    cases hop'
  | view hkind | launch hkind =>
    rw [hop] at hkind
    cases hkind

end Program

/-! ## Kernels that compute -/

open Operator (Infers)
open Program (Matches Twins matches_device matches_of_location)

variable {c : Comparison} {ps : List Pair} {w₁ w₂ : World} {a₁ a₂ : Argument} {op : Operator}
variable {s : Shape} {b : DeviceBuffer} {es : List (Argument × Argument)} {q₁ q₂ : Program}
variable {r : Nat} {i₁ i₂ : Instruction} {k₁ k₂ : BoundKernel}

/-- A shape over a device buffer needs no more than the buffer has. -/
theorem Argument.Valid.room (h : Argument.Valid ⟨s, some (.device b)⟩) :
    ∀ n, s.storageBytes = some n → n ≤ b.size := by
  intro n hn
  have hmake := h _ rfl
  unfold Argument.make at hmake
  obtain ⟨n', hn', hmake⟩ := Outcome.bind_eq_value.mp hmake
  obtain ⟨_, hsize, -⟩ := Outcome.bind_eq_value.mp hmake
  rw [show s.storageBytes = some n' from Outcome.ofOption_eq_value.mp hn'] at hn
  cases hn
  exact Outcome.require_eq_value.mp hsize

/-- Alike arguments stand for operands of the same shape. -/
theorem World.operand_alike (ha : a₁.Alike a₂) :
    (World.operand a₁).Alike (fun o₁ o₂ => ∃ b₁ b₂ : DeviceBuffer,
      a₁ = ⟨a₁.shape, some (.device b₁)⟩ ∧ a₁.links a₂ = [(b₁, b₂)] ∧
        o₁ = ⟨b₁.address, a₁.shape⟩ ∧ o₂ = ⟨b₂.address, a₁.shape⟩) (World.operand a₂) := by
  cases ha with
  | absent s => exact .refused _
  | host s => exact .refused _
  | device s hsize => exact .value ⟨_, _, rfl, rfl, rfl, rfl⟩

/-- Whether values that a launch reads are in buffers of a comparison, if they are in any. -/
def Comparison.Reads (c : Comparison) (ps : List Pair) (es : List (Argument × Argument)) : Prop :=
  ∀ e ∈ es, e.1.Alike e.2 ∧ ∀ p ∈ e.1.links e.2,
    p ∈ ps ++ c.shared ∧ p.1.device = c.here ∧ p.2.device = c.there ∧ e.1.Valid

namespace Linked

theorem operands (h : Linked c (p :: ps) w₁ w₂) (hnew : p ∉ ps ++ c.shared) (hes : c.Reads ps es)
    {short : Prop} :
    (((es.map Prod.fst).mapM fun a : Argument =>
        (liftM (World.operand a) : Action World Operand)) w₁).Foretells short
      (fun os₁ w₁ os₂ w₂ => os₁.map Operand.shape = es.map (fun e => e.1.shape) ∧
        List.Forall₂ (fun o₁ o₂ => ∃ q, q ≠ p ∧ c.Operands (p :: ps) o₁ o₂ q) os₁ os₂ ∧
          Linked c (p :: ps) w₁ w₂)
      (Linked c (p :: ps))
      (((es.map Prod.snd).mapM fun a : Argument =>
        (liftM (World.operand a) : Action World Operand)) w₂) := by
  rw [Action.mapM_lift, Action.mapM_lift]
  refine Action.foretells_ofOutcome (Outcome.alike_mapM
    (S := fun o₁ o₂ => ∃ q, q ≠ p ∧ c.Operands (p :: ps) o₁ o₂ q) ?_) ?_ h
  · rw [List.forall₂_map_left_iff, List.forall₂_map_right_iff, List.forall₂_same]
    intro e he
    obtain ⟨ha, hlinks⟩ := hes e he
    refine (World.operand_alike ha).mono ?_
    rintro _ _ - ⟨b₁, b₂, heq, hlink, rfl, rfl⟩
    obtain ⟨hmem, hhere, hthere, hvalid⟩ := hlinks (b₁, b₂) (hlink ▸ List.mem_cons_self)
    rw [heq] at hvalid
    exact ⟨(b₁, b₂), fun hp => hnew (hp ▸ hmem), List.mem_cons_of_mem p hmem, hhere, hthere, rfl,
      rfl, rfl, hvalid.room⟩
  · intro os₁ os₂ hvalue hall
    refine ⟨?_, hall, h⟩
    have hshape : List.Forall₂ (fun e (o : Operand) => e.1.shape = o.shape) es os₁ := by
      have hvalues := List.forall₂_map_left_iff.mp (Outcome.forall₂_of_mapM hvalue)
      refine hvalues.imp fun e o ho => ?_
      unfold World.operand at ho
      obtain ⟨st, -, ho⟩ := Outcome.bind_eq_value.mp ho
      cases st with
      | device b =>
        cases ho
        rfl
      | host b => cases ho
    rw [← List.forall₂_eq_eq_eq, List.forall₂_map_left_iff, List.forall₂_map_right_iff]
    exact hshape.flip.imp fun _ _ heq => heq.symm

theorem computeLaunch (h : Linked c ps w₁ w₂) (hes : c.Reads ps es)
    (hinfers : Infers op (es.map fun e => e.1.shape) s) (hc : op.isCompute = true) :
    ((BoundKernel.launch op c.here).compute s (es.map Prod.fst) w₁).Foretells c.short
      (Moved c ps s) (Linked c ps)
      ((BoundKernel.launch op c.there).compute s (es.map Prod.snd) w₂) := by
  unfold BoundKernel.compute
  refine Action.foretells_bind (R := fun n₁ w₁ n₂ w₂ => s.storageBytes = some n₁ ∧ n₁ = n₂ ∧
    Linked c ps w₁ w₂) (Action.foretells_lift (fun n hn =>
      ⟨Outcome.ofOption_eq_value.mp hn, rfl, h⟩) h) ?_
  rintro n w₁ _ w₂ ⟨hn, rfl, h⟩
  refine Action.foretells_bind (h.allocate n) ?_
  rintro b₁ w₁ b₂ w₂ ⟨hfresh, hsize, hnew, h⟩
  refine Action.foretells_onRefusal (L := Linked c ((b₁, b₂) :: ps)) ?_ fun _ _ h =>
    h.releaseBuffer
  refine Action.foretells_bind (R := fun a₁ w₁ a₂ w₂ => a₁ = ⟨s, some (.device b₁)⟩ ∧
    a₂ = ⟨s, some (.device b₂)⟩ ∧ a₁.Valid ∧ Linked c ((b₁, b₂) :: ps) w₁ w₂)
    (Action.foretells_ofOutcome (Argument.make_device_alike s hfresh.size)
      (fun _ _ hmake ⟨h₁, h₂⟩ => ⟨h₁, h₂, Argument.valid_of_make hmake, h⟩) h) ?_
  rintro _ w₁ _ w₂ ⟨rfl, rfl, hvalid, h⟩
  refine Action.foretells_bind (h.operands hnew hes) ?_
  rintro os₁ w₁ os₂ w₂ ⟨hshapes, hoperands, h⟩
  refine Action.foretells_bind (R := fun o₁ w₁ o₂ w₂ => o₁ = ⟨b₁.address, s⟩ ∧
    o₂ = ⟨b₂.address, s⟩ ∧ Linked c ((b₁, b₂) :: ps) w₁ w₂) ⟨_, _, rfl, rfl, rfl, h⟩ ?_
  rintro _ w₁ _ w₂ ⟨rfl, rfl, h⟩
  have hout : c.Operands ((b₁, b₂) :: ps) ⟨b₁.address, s⟩ ⟨b₂.address, s⟩ (b₁, b₂) :=
    ⟨List.mem_cons_self, hfresh.here, hfresh.there, rfl, rfl, rfl, fun n' hn' => by
      rw [hn] at hn'
      cases hn'
      exact Nat.le_of_eq hsize.symm⟩
  refine Action.foretells_bind (h.launch List.mem_cons_self hfresh hout hoperands
    (hshapes.symm ▸ hinfers) hc) fun _ w₁ _ w₂ h => ?_
  exact ⟨_, _, rfl, (b₁, b₂), rfl, rfl, hvalid, hfresh, h⟩

/-! ## All kernels -/

theorem matches_of_moved {i : Instruction} (h : Moved c ps s a₁ w₁ a₂ w₂) (hs : s = i.shape) :
    Linked c (a₁.links a₂ ++ ps) w₁ w₂ ∧ Matches c i a₁ a₂ := by
  obtain ⟨p, rfl, rfl, hvalid, hfresh, h⟩ := h
  exact ⟨h, matches_device hfresh.size hs hfresh.here hfresh.there hvalid⟩

theorem computeHostToDevice (h : Linked c ps w₁ w₂) (ht : Twins c q₁ q₂)
    (hi₁ : q₁.instructions[r]? = some i₁) (hi₂ : q₂.instructions[r]? = some i₂)
    (hi : i₁.Alike c.here c.there i₂) (hop : i₁.op = .hostToDevice) (hk₁ : i₁.kernel = some k₁)
    (hk₂ : i₂.kernel = some k₂)
    (hes : ∀ e ∈ es, e.1.Alike e.2 ∧ e.1.links e.2 ⊆ ps ++ c.shared ∧ e.1.shape = i₁.shape) :
    (k₁.compute i₁.shape (es.map Prod.fst) w₁).Foretells c.short
      (fun a₁ w₁ a₂ w₂ => Linked c (a₁.links a₂ ++ ps) w₁ w₂ ∧ Matches c i₁ a₁ a₂) (Linked c ps)
      (k₂.compute i₁.shape (es.map Prod.snd) w₂) := by
  have hresident := hi.resident
  rcases ht.left.hostToDevice hi₁ hop with ⟨b₁, hc₁, hb₁, hr₁⟩ | ⟨hc₁, hr₁⟩ <;>
    rcases ht.right.hostToDevice hi₂ (hi.op.trans hop) with ⟨b₂, hc₂, hb₂, hr₂⟩ | ⟨hc₂, hr₂⟩ <;>
    rw [hk₁] at hc₁ <;> rw [hk₂] at hc₂ <;> cases hc₁ <;> cases hc₂
  · have hshared : (b₁, b₂) ∈ c.shared := by
      refine ht.links (Program.links_subset hi₁ hi₂ ?_)
      rw [Instruction.links_of_some hr₁ hr₂]
      exact List.mem_cons_self
    have hvalid := ht.left.valid i₁ (List.mem_of_getElem? hi₁) _ hk₁
    have hmatch := matches_device (c := c) (i := i₁) (p := (b₁, b₂)) (h.fair.size _ hshared) rfl
      hb₁ hb₂ hvalid
    rw [hi.shape]
    exact Action.foretells_bind (h.retain hmatch.alike (List.cons_subset.mpr
      ⟨List.mem_append_right _ hshared, List.nil_subset _⟩)).of_never
      fun _ _ _ _ h => ⟨_, _, rfl, h, hmatch⟩
  · rw [hr₁, hr₂] at hresident
    cases hresident
  · rw [hr₁, hr₂] at hresident
    cases hresident
  · cases es with
    | nil => exact trivial
    | cons e es =>
      obtain ⟨ha, hlinks, hshape⟩ := hes e List.mem_cons_self
      exact (h.toDevice ha hlinks).mono id (fun _ _ _ _ hmoved => matches_of_moved hmoved hshape)
        fun _ _ h => h

theorem computeView (h : Linked c ps w₁ w₂) (name : String) (i : Instruction)
    (hes : c.Reads ps es) :
    ((BoundKernel.view name).compute i.shape (es.map Prod.fst) w₁).Foretells c.short
      (fun a₁ w₁ a₂ w₂ => Linked c (a₁.links a₂ ++ ps) w₁ w₂ ∧ Matches c i a₁ a₂) (Linked c ps)
      ((BoundKernel.view name).compute i.shape (es.map Prod.snd) w₂) := by
  cases es with
  | nil => exact trivial
  | cons e es =>
    obtain ⟨ha, hlinks⟩ := hes e List.mem_cons_self
    refine Action.foretells_bind (R := fun b₁ w₁ b₂ w₂ => Linked c ps w₁ w₂ ∧
      Matches c i b₁ b₂ ∧ b₁.links b₂ ⊆ ps ++ c.shared)
      (Action.foretells_ofOutcome (ha.withShape i.shape) ?_ h) ?_
    · rintro b₁ b₂ hvalue ⟨hb, hshape, heq⟩
      refine ⟨h, ⟨hb, hshape, fun _ p hp => ?_⟩, fun p hp => (hlinks p (heq ▸ hp)).1⟩
      obtain ⟨-, hhere, hthere, -⟩ := hlinks p (heq ▸ hp)
      exact ⟨hhere, hthere, Argument.valid_of_withShape hvalue⟩
    · rintro b₁ w₁ b₂ w₂ ⟨h, hmatch, hb⟩
      exact Action.foretells_bind (h.retain hmatch.alike hb).of_never fun _ _ _ _ h =>
        ⟨_, _, rfl, h, hmatch⟩

theorem computeDownload (h : Linked c ps w₁ w₂) (i : Instruction)
    (hes : ∀ e ∈ es, e.1.Alike e.2 ∧ e.1.links e.2 ⊆ ps ++ c.shared ∧ e.1.shape = i.shape) :
    (BoundKernel.download.compute i.shape (es.map Prod.fst) w₁).Foretells c.short
      (fun a₁ w₁ a₂ w₂ => Linked c (a₁.links a₂ ++ ps) w₁ w₂ ∧ Matches c i a₁ a₂) (Linked c ps)
      (BoundKernel.download.compute i.shape (es.map Prod.snd) w₂) := by
  cases es with
  | nil => exact trivial
  | cons e es =>
    obtain ⟨ha, hlinks, hsame⟩ := hes e List.mem_cons_self
    refine (h.toHost ha hlinks).mono False.elim ?_ fun _ _ h => h
    rintro b₁ w₁ b₂ w₂ ⟨h, hb, hshape, hlocation⟩
    refine ⟨?_, matches_of_location hb (hshape.trans hsame) (by rw [hlocation]; exact nofun)⟩
    cases hb with
    | absent => exact h
    | host => exact h
    | device => cases hlocation

theorem computeLiteral (h : Linked c ps w₁ w₂) {i : Instruction} {l : Literal} {shapes : List Shape}
    (hop : i.op = .literal l) (hinfers : Infers i.op shapes i.shape) :
    ((BoundKernel.literal l).compute i.shape (es.map Prod.fst) w₁).Foretells c.short
      (fun a₁ w₁ a₂ w₂ => Linked c (a₁.links a₂ ++ ps) w₁ w₂ ∧ Matches c i a₁ a₂) (Linked c ps)
      ((BoundKernel.literal l).compute i.shape (es.map Prod.snd) w₂) := by
  refine ⟨_, _, rfl, h, matches_of_location (.host _ _ _ _ _)
    (hinfers.shape_of_literal hop).symm fun hlocation => ?_⟩
  cases hlocation

section Twins

variable (ht : Twins c q₁ q₂) (hi₁ : q₁.instructions[r]? = some i₁)
variable (hes : List.Forall₂ (fun r e => ∃ j, q₁.instructions[r]? = some j ∧
  Matches c j e.1 e.2 ∧ e.1.links e.2 ⊆ ps ++ c.shared) i₁.inputs es)

include ht hi₁ hes

theorem infers_of_matches : Infers i₁.op (es.map fun e => e.1.shape) i₁.shape := by
  obtain ⟨shapes, hshapes, hinfers⟩ := ht.left.consistent.infers hi₁
  have hread : Program.shapesAt q₁.instructions i₁.inputs = some (es.map fun e => e.1.shape) := by
    rw [Program.shapesAt_eq_some, List.forall₂_map_right_iff]
    refine hes.imp ?_
    rintro r e ⟨j, hj, hmatch, -⟩
    exact ⟨j, hj, hmatch.shape.symm⟩
  rw [hread] at hshapes
  cases hshapes
  exact hinfers

/-- What is not moved to the device reads what is there already. -/
theorem reads_of_matches (hop : i₁.op ≠ .hostToDevice) : c.Reads ps es := by
  intro e he
  obtain ⟨r', hr', j, hj, hmatch, hlinks⟩ := exists_of_mem_right hes he
  obtain ⟨j', hj', hstarts⟩ := ht.left.fed i₁ (List.mem_of_getElem? hi₁) r' hr'
  rw [hj] at hj'
  cases hj'
  have hcomputed := Bool.eq_false_iff.mpr fun htrue => hop (hstarts htrue)
  exact ⟨hmatch.alike, fun p hp => ⟨hlinks hp, hmatch.placed hcomputed p hp⟩⟩

theorem linked_of_matches (htransfer : i₁.op.isTransfer = true) :
    ∀ e ∈ es, e.1.Alike e.2 ∧ e.1.links e.2 ⊆ ps ++ c.shared ∧ e.1.shape = i₁.shape := by
  intro e he
  obtain ⟨_, -, _, -, hmatch, hlinks⟩ := exists_of_mem_right hes he
  have hshape := List.mem_map_of_mem (f := fun e : Argument × Argument => e.1.shape) he
  rw [(infers_of_matches ht hi₁ hes).inputs_eq_of_isTransfer htransfer] at hshape
  exact ⟨hmatch.alike, hlinks, List.mem_singleton.mp hshape⟩

end Twins

/-- The kernels of twins give matching values when they are given such. -/
theorem compute (h : Linked c ps w₁ w₂) (ht : Twins c q₁ q₂)
    (hi₁ : q₁.instructions[r]? = some i₁) (hi₂ : q₂.instructions[r]? = some i₂)
    (hi : i₁.Alike c.here c.there i₂) (hk₁ : i₁.kernel = some k₁) (hk₂ : i₂.kernel = some k₂)
    (hp : i₁.isParameter = false)
    (hes : List.Forall₂ (fun r e => ∃ j, q₁.instructions[r]? = some j ∧ Matches c j e.1 e.2 ∧
      e.1.links e.2 ⊆ ps ++ c.shared) i₁.inputs es) :
    (k₁.compute i₁.shape (es.map Prod.fst) w₁).Foretells c.short
      (fun a₁ w₁ a₂ w₂ => Linked c (a₁.links a₂ ++ ps) w₁ w₂ ∧ Matches c i₁ a₁ a₂) (Linked c ps)
      (k₂.compute i₁.shape (es.map Prod.snd) w₂) := by
  obtain ⟨_, hk, hserves₁⟩ := ht.left.kernels i₁ (List.mem_of_getElem? hi₁) hp
  rw [hk₁] at hk
  cases hk
  obtain ⟨_, hk, hserves₂⟩ := ht.right.kernels i₂ (List.mem_of_getElem? hi₂)
    (by rw [Instruction.isParameter, hi.op]; exact hp)
  rw [hk₂] at hk
  cases hk
  have hinfers := infers_of_matches ht hi₁ hes
  cases Program.assigned_of_serves ht.left.consistent hi₁ hp hserves₁ with
  | launch hcompute =>
    obtain rfl := Program.eq_launch_of_serves (hi.op ▸ hcompute) hserves₂
    rw [hi.op]
    refine (h.computeLaunch (reads_of_matches ht hi₁ hes fun hop => ?_) hinfers hcompute).mono id
      (fun _ _ _ _ hmoved => matches_of_moved hmoved rfl) fun _ _ h => h
    rw [hop] at hcompute
    cases hcompute
  | view hview =>
    obtain rfl := Program.eq_view_of_serves (hi.op ▸ hview) hserves₂
    rw [hi.op]
    refine h.computeView _ i₁ (reads_of_matches ht hi₁ hes fun hop => ?_)
    rw [hop] at hview
    cases hview
  | literal hop =>
    obtain rfl := Program.eq_literal_of_serves (hi.op.trans hop) hserves₂
    exact h.computeLiteral hop hinfers
  | resident hop | upload hop =>
    exact h.computeHostToDevice ht hi₁ hi₂ hi hop hk₁ hk₂
      (linked_of_matches ht hi₁ hes (by rw [hop]; rfl))
  | download hop =>
    obtain rfl := Program.eq_download_of_serves (hi.op.trans hop) hserves₂
    exact h.computeDownload i₁ (linked_of_matches ht hi₁ hes (by rw [hop]; rfl))

end Linked
end TensorGraph
