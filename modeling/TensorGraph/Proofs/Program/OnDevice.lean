/-
Evaluation on a device.

The values of a run are on the host or the device, depending on where they come from, and the
device keeps what its share of the instructions mean.  Tensors that were on devices before, the
constants that compiling has put there and perhaps the parameters, are kept throughout.
`backs_device` says that the kernels of a device preserve this, whatever has not run yet.
-/
import TensorGraph.Proofs.Device.World
import TensorGraph.Proofs.Program.Host

namespace TensorGraph

open Operator (Infers)

/-! ## Room -/

/-- The addresses that evaluating an instruction takes.  A constant that is on the device takes
none. -/
def Instruction.demand (i : Instruction) : Nat :=
  match i.op, i.kernel with
  | .hostToDevice, some (.resident _) => 0
  | .hostToDevice, _ => Device.footprint (i.shape.space * i.shape.dtype.size)
  | op, _ => if op.isCompute then Device.footprint (i.shape.space * i.shape.dtype.size) else 0

theorem Instruction.demand_of_isCompute {i : Instruction} (h : i.op.isCompute = true) :
    i.demand = Device.footprint (i.shape.space * i.shape.dtype.size) := by
  obtain ⟨op, inputs, s, kernel⟩ := i
  cases op with
  | literal | parameter | reshape | transpose | hostToDevice | deviceToHost => cases h
  | _ => rfl

theorem Instruction.demand_of_kernel {i : Instruction} {c : BoundKernel} (hop : i.op = .hostToDevice)
    (hc : i.kernel = some c) (hresident : ∀ a, c ≠ .resident a) :
    i.demand = Device.footprint (i.shape.space * i.shape.dtype.size) := by
  obtain ⟨op, inputs, s, kernel⟩ := i
  obtain rfl : op = .hostToDevice := hop
  obtain rfl : kernel = some c := hc
  cases c with
  | resident a => exact absurd rfl (hresident a)
  | _ => rfl

namespace Program

/-- Whether there are addresses from `next` on for all tensors, and none is too large for a
host to hold. -/
def Roomy (next : Nat) (is : List Instruction) : Prop :=
  next + (is.map Instruction.demand).sum ≤ Word.maxUnsigned ∧
    ∀ i ∈ is, (i.shape.space * i.shape.dtype.size + 7) / 8 * 8 ≤ Word.maxSigned

instance (next : Nat) (is : List Instruction) : Decidable (Roomy next is) :=
  inferInstanceAs (Decidable (_ ∧ _))

variable {is : List Instruction} {i j : Instruction} {k : Nat} {id : DeviceId} {c : BoundKernel}

theorem sum_demand_drop (hi : is[k]? = some i) :
    ((is.drop k).map Instruction.demand).sum =
      i.demand + ((is.drop (k + 1)).map Instruction.demand).sum := by
  obtain ⟨hlt, rfl⟩ := List.getElem?_eq_some_iff.mp hi
  rw [List.drop_eq_getElem_cons hlt, List.map_cons, List.sum_cons]

/-! ## Kernels of a device -/

theorem eq_launch_of_serves (hc : i.op.isCompute = true)
    (h : (Backend.device id).Serves is i c) : c = .launch i.op id := by
  obtain ⟨op, inputs, s, kernel⟩ := i
  cases op with
  | literal | parameter | reshape | transpose | hostToDevice | deviceToHost => cases hc
  | _ => exact h.2

theorem eq_view_of_serves (hv : i.op.isView = true) (h : (Backend.device id).Serves is i c) :
    c = .view i.op.name := by
  obtain ⟨op, inputs, s, kernel⟩ := i
  cases op with
  | reshape | transpose => exact h
  | _ => cases hv

theorem eq_literal_of_serves {l : Literal} (hop : i.op = .literal l)
    (h : (Backend.device id).Serves is i c) : c = .literal l := by
  unfold Backend.Serves at h
  rw [hop] at h
  exact h

theorem eq_download_of_serves (hop : i.op = .deviceToHost)
    (h : (Backend.device id).Serves is i c) : c = .download := by
  unfold Backend.Serves at h
  rw [hop] at h
  exact h

theorem inputs_eq_singleton {s : Shape} (h : shapesAt is i.inputs = some [s]) :
    ∃ r j, i.inputs = [r] ∧ is[r]? = some j ∧ j.shape = s := by
  rw [shapesAt_eq_some] at h
  revert h
  generalize i.inputs = inputs
  intro h
  obtain _ | ⟨⟨j, hj, hs⟩, _ | _⟩ := h
  exact ⟨_, j, rfl, hj, hs⟩

/-- A transfer to the device is of a constant that was moved when the kernel was bound, or is
done when it is run. -/
theorem serves_hostToDevice {r : Nat} (hop : i.op = .hostToDevice) (hin : i.inputs = [r])
    (hj : is[r]? = some j) (h : (Backend.device id).Serves is i c) :
    (∃ l b, j.op = .literal l ∧ c = .resident ⟨l.shape, some (.device b)⟩ ∧ b.device = id) ∨
      (∀ l, j.op ≠ .literal l) ∧ c = .upload id := by
  unfold Backend.Serves at h
  rw [hop, hin] at h
  dsimp only at h
  rw [List.head?_cons, Option.bind_some, hj, Option.map_some] at h
  revert h
  generalize j.op = op
  intro h
  cases op with
  | literal l =>
    obtain ⟨b, hc, hb⟩ := h
    exact Or.inl ⟨l, b, rfl, hc, hb⟩
  | _ => exact Or.inr ⟨fun _ => nofun, h⟩

inductive Assigned (id : DeviceId) (is : List Instruction) (i : Instruction) : BoundKernel → Prop
  | literal {l : Literal} : i.op = .literal l → Assigned id is i (.literal l)
  | resident {r : Nat} {j : Instruction} {l : Literal} {b : DeviceBuffer} :
      i.op = .hostToDevice → i.inputs = [r] → is[r]? = some j → j.op = .literal l →
      l.shape = i.shape → b.device = id →
      Assigned id is i (.resident ⟨i.shape, some (.device b)⟩)
  | upload {r : Nat} {j : Instruction} : i.op = .hostToDevice → i.inputs = [r] →
      is[r]? = some j → (∀ l, j.op ≠ .literal l) → Assigned id is i (.upload id)
  | download : i.op = .deviceToHost → Assigned id is i .download
  | view : i.op.isView = true → Assigned id is i (.view i.op.name)
  | launch : i.op.isCompute = true → Assigned id is i (.launch i.op id)

theorem assigned_of_serves (hc : Consistent is) (hi : is[k]? = some i)
    (hp : i.isParameter = false) (h : (Backend.device id).Serves is i c) :
    Assigned id is i c := by
  by_cases hcompute : i.op.isCompute = true
  · rw [eq_launch_of_serves hcompute h]
    exact .launch hcompute
  by_cases hview : i.op.isView = true
  · rw [eq_view_of_serves hview h]
    exact .view hview
  cases hop : i.op with
  | literal l =>
    rw [eq_literal_of_serves hop h]
    exact .literal hop
  | hostToDevice =>
    obtain ⟨shapes, hshapes, hinfers⟩ := hc.infers hi
    rw [hinfers.inputs_eq_of_isTransfer (by rw [hop]; rfl)] at hshapes
    obtain ⟨r, j, hin, hj, hshape⟩ := inputs_eq_singleton hshapes
    rcases serves_hostToDevice hop hin hj h with ⟨l, b, hlit, rfl, hb⟩ | ⟨hnot, rfl⟩
    · obtain ⟨_, -, hinfers'⟩ := hc.infers hj
      have hl : l.shape = i.shape := (hinfers'.shape_of_literal hlit).symm.trans hshape
      rw [hl]
      exact .resident hop hin hj hlit hl hb
    · exact .upload hop hin hj hnot
  | deviceToHost =>
    rw [eq_download_of_serves hop h]
    exact .download hop
  | parameter =>
    rw [Instruction.isParameter, hop] at hp
    cases hp
  | reshape | transpose =>
    rw [hop] at hview
    exact absurd rfl hview
  | _ =>
    rw [hop] at hcompute
    exact absurd rfl hcompute

/-! ## Values -/

variable {views : List View} {pins : List Resident} {w w' : World} {es : List (Nat × Argument)}
variable {fits : Prop} {next : Nat} {v : View} {a : Argument} {r : Nat}

def resident? (views : List View) (e : Nat × Argument) : Option Resident := do
  some ⟨← e.2.deviceBuffer?, e.2.shape, ← views[e.1]?⟩

/-- Whether a value is right if it is on the host, and where it can be: on the host if it starts
or was brought back there, and on the device of the program otherwise.  Parameters may be on any
device. -/
def Located (id : DeviceId) (is : List Instruction) (r : Nat) (i : Instruction) (v : View)
    (a : Argument) : Prop :=
  (a.Stores i.shape v ∧ (startsOnHost i.op = true ∨ Fetched is r)) ∨
    ∃ b, a = ⟨i.shape, some (.device b)⟩ ∧
      (startsOnHost i.op = true ∨ ¬Fetched is r ∧ b.device = id)

structure DeviceHolds (fits : Prop) (id : DeviceId) (is : List Instruction) (views : List View)
    (pins : List Resident) (k : Nat) (w : World) (es : List (Nat × Argument)) : Prop where
  located : ∀ r a, (r, a) ∈ es → ∃ i v, is[r]? = some i ∧ views[r]? = some v ∧
    Located id is r i v a
  loaded : ∃ next, w.Loaded fits id next (pins ++ es.filterMap (resident? views)) ∧
    (fits → next + ((is.drop k).map Instruction.demand).sum ≤ Word.maxUnsigned)

theorem Located.shape_eq (h : Located id is r i v a) : a.shape = i.shape := by
  rcases h with ⟨hstores, -⟩ | ⟨b, rfl, -⟩
  · exact hstores.shape
  · rfl

theorem resident?_of_stores {s : Shape} (h : a.Stores s v) : resident? views (r, a) = none := by
  show (a.deviceBuffer? >>= _) = none
  rw [deviceBuffer?_of_stores h]
  rfl

theorem resident?_argument (res : Resident) (hv : views[r]? = some res.tensor) :
    resident? views (r, res.argument) = some res := by
  show (some res.buffer >>= fun b => views[r]? >>= fun v => some (Resident.mk b res.shape v)) = _
  rw [hv]
  rfl

theorem DeviceHolds.cons_located (h : DeviceHolds fits id is views pins k w es)
    (hi : is[k]? = some i) (hv : views[k]? = some v) (ha : Located id is k i v a) :
    ∀ r a', (r, a') ∈ (k, a) :: es → ∃ i v, is[r]? = some i ∧ views[r]? = some v ∧
      Located id is r i v a' := by
  intro r a' hmem
  rcases List.mem_cons.mp hmem with heq | hmem
  · cases heq
    exact ⟨i, v, hi, hv, ha⟩
  · exact h.located r a' hmem

theorem DeviceHolds.cons_host (h : DeviceHolds fits id is views pins k w es)
    (hi : is[k]? = some i) (hv : views[k]? = some v)
    (hloc : startsOnHost i.op = true ∨ Fetched is k) (ha : a.Stores i.shape v)
    (hw : w'.Loaded fits id next (pins ++ es.filterMap (resident? views)))
    (hroom : fits → next + ((is.drop (k + 1)).map Instruction.demand).sum ≤ Word.maxUnsigned) :
    DeviceHolds fits id is views pins (k + 1) w' ((k, a) :: es) := by
  refine ⟨h.cons_located hi hv (Or.inl ⟨ha, hloc⟩), next, ?_, hroom⟩
  rw [List.filterMap_cons_none (resident?_of_stores ha)]
  exact hw

theorem DeviceHolds.cons_device {res : Resident} (h : DeviceHolds fits id is views pins k w es)
    (hi : is[k]? = some i) (hv : views[k]? = some v)
    (hloc : startsOnHost i.op = true ∨ ¬Fetched is k ∧ res.buffer.device = id)
    (hshape : res.shape = i.shape) (htensor : res.tensor = v)
    (hw : w'.Loaded fits id next (res :: (pins ++ es.filterMap (resident? views))))
    (hroom : fits → next + ((is.drop (k + 1)).map Instruction.demand).sum ≤ Word.maxUnsigned) :
    DeviceHolds fits id is views pins (k + 1) w' ((k, res.argument) :: es) := by
  subst htensor
  refine ⟨h.cons_located hi hv (Or.inr ⟨res.buffer, ?_, hloc⟩), next, ?_, hroom⟩
  · rw [← hshape]
    rfl
  · rw [List.filterMap_cons_some (resident?_argument res hv)]
    exact hw.perm List.perm_middle.symm

theorem DeviceHolds.located_of (h : DeviceHolds fits id is views pins k w es) (hmem : (r, a) ∈ es)
    (hi : is[r]? = some i) (hv : views[r]? = some v) : Located id is r i v a := by
  obtain ⟨i', v', hi', hv', hlocated⟩ := h.located r a hmem
  rw [hi] at hi'
  rw [hv] at hv'
  cases hi'
  cases hv'
  exact hlocated

theorem mem_resident {s : Shape} {b : DeviceBuffer}
    (hmem : (r, (⟨s, some (.device b)⟩ : Argument)) ∈ es) (hv : views[r]? = some v) :
    ⟨b, s, v⟩ ∈ pins ++ es.filterMap (resident? views) :=
  List.mem_append_right _ (List.mem_filterMap.mpr ⟨_, hmem, resident?_argument ⟨b, s, v⟩ hv⟩)

/-- A value is stored on the host or kept on a device. -/
theorem DeviceHolds.stores_or_resident (h : DeviceHolds fits id is views pins k w es)
    (hmem : (r, a) ∈ es) (hi : is[r]? = some i) (hv : views[r]? = some v) :
    a.Stores i.shape v ∨ ∃ res ∈ pins ++ es.filterMap (resident? views), a = res.argument ∧
      res.shape = i.shape ∧ res.tensor = v := by
  rcases h.located_of hmem hi hv with ⟨hstores, -⟩ | ⟨b, rfl, -⟩
  · exact Or.inl hstores
  · exact Or.inr ⟨⟨b, i.shape, v⟩, mem_resident hmem hv, rfl, rfl, rfl⟩

theorem DeviceHolds.exists_residents (h : DeviceHolds fits id is views pins k w es)
    {inputs : List Nat} {args : List Argument} {shapes : List Shape} {us : List View}
    (hargs : List.Forall₂ (fun r a => (r, a) ∈ es) inputs args)
    (hshapes : shapesAt is inputs = some shapes)
    (hus : (inputs.mapM fun r => views[r]?) = some us)
    (hloc : ∀ r ∈ inputs, ∃ j, is[r]? = some j ∧ startsOnHost j.op = false ∧ ¬Fetched is r) :
    ∃ residents : List Resident, args = residents.map Resident.argument ∧
      shapes = residents.map Resident.shape ∧ us = residents.map Resident.tensor ∧
      residents ⊆ World.on id (pins ++ es.filterMap (resident? views)) := by
  rw [shapesAt_eq_some] at hshapes
  rw [mapM_eq_some] at hus
  induction hargs generalizing shapes us with
  | nil =>
    obtain _ | _ := hshapes
    obtain _ | _ := hus
    exact ⟨[], rfl, rfl, rfl, List.nil_subset _⟩
  | @cons r a _ _ hr _ ih =>
    obtain _ | ⟨⟨i, hi, rfl⟩, hshapes⟩ := hshapes
    obtain _ | @⟨_, u, _, _, hu, hus⟩ := hus
    rw [List.forall_mem_cons] at hloc
    obtain ⟨⟨j, hj, hstarts, hfetched⟩, hloc⟩ := hloc
    rw [hi] at hj
    cases hj
    obtain ⟨residents, rfl, rfl, rfl, hsub⟩ := ih hshapes hus hloc
    rcases h.located_of hr hi hu with ⟨-, hhost⟩ | ⟨b, rfl, hdevice⟩
    · rw [hstarts] at hhost
      exact absurd (hhost.resolve_left Bool.false_ne_true) hfetched
    · rw [hstarts] at hdevice
      obtain ⟨-, hid⟩ := hdevice.resolve_left Bool.false_ne_true
      exact ⟨⟨b, i.shape, u⟩ :: residents, rfl, rfl, rfl,
        List.cons_subset.mpr ⟨World.mem_on.mpr ⟨mem_resident hr hu, hid⟩, hsub⟩⟩

/-! ## Programs on a device -/

variable {params : Parameters} {offload : Bool} {q : Program} {args : List Argument}
variable {inputs : List Nat} {shapes : List Shape}

/-- What a program on a device is sure of, with tensors that its instructions stand for.  The
tensors of constants and parameters that are on devices are those that are there. -/
structure Deployed (fits : Prop) (id : DeviceId) (offload : Bool) (params : Parameters)
    (views : List View) (pins : List Resident) (q : Program) : Prop where
  ready : Ready (.device id offload) q
  fed : Fed q.instructions
  stays : StaysOnDevice q.instructions
  recorded : Recorded q.instructions views
  denoted : ∀ (k : Nat) (i : Instruction) inputs v, q.instructions[k]? = some i →
    (i.inputs.mapM fun r => views[r]?) = some inputs → views[k]? = some v →
    i.isParameter = false → (∀ a, i.kernel ≠ some (.resident a)) →
    i.op.denote i.shape inputs = some v
  pinned : ∀ (k : Nat) (i : Instruction) b v, q.instructions[k]? = some i →
    i.op = .hostToDevice → i.kernel = some (.resident ⟨i.shape, some (.device b)⟩) →
    views[k]? = some v → ⟨b, i.shape, v⟩ ∈ pins
  supplied : ∀ (k : Nat) (i : Instruction) name s v, q.instructions[k]? = some i →
    i.op = .parameter name s → views[k]? = some v → ∃ a, params.lookup name = some a ∧
      (a.Stores s v ∨ ∃ b, a = ⟨s, some (.device b)⟩ ∧ ⟨b, s, v⟩ ∈ pins)
  fits : fits → Fits q.instructions ∧ ∀ i ∈ q.instructions,
    (i.shape.space * i.shape.dtype.size + 7) / 8 * 8 ≤ Word.maxSigned

theorem Deployed.instruction (hD : Deployed fits id offload params views pins q)
    (hi : q.instructions[k]? = some i) :
    ∃ shapes inputs v, shapesAt q.instructions i.inputs = some shapes ∧
      Infers i.op shapes i.shape ∧ (i.inputs.mapM fun r => views[r]?) = some inputs ∧
      View.Shaped shapes inputs ∧ views[k]? = some v ∧
      (i.isParameter = false → (∀ a, i.kernel ≠ some (.resident a)) →
        i.op.denote i.shape inputs = some v) := by
  obtain ⟨shapes, hshapes, hinfers⟩ := hD.ready.consistent.infers hi
  obtain ⟨inputs, hinputs, hshaped⟩ := hD.recorded.shaped hshapes
  have hlt : k < views.length := by
    rw [← hD.recorded.length_eq]
    exact (List.getElem?_eq_some_iff.mp hi).1
  have hv : views[k]? = some views[k] := List.getElem?_eq_getElem hlt
  exact ⟨shapes, inputs, views[k], hshapes, hinfers, hinputs, hshaped, hv,
    hD.denoted k i inputs views[k] hi hinputs hv⟩

theorem Deployed.populated (hD : Deployed fits id offload params views pins q)
    (hs : shapesAt q.instructions inputs = some shapes) : ∀ s ∈ shapes, s.Populated :=
  forall_of_shapesAt hs hD.ready.populated

theorem Deployed.addressable (hD : Deployed fits id offload params views pins q)
    (hs : shapesAt q.instructions inputs = some shapes) (hf : fits) :
    ∀ s ∈ shapes, s.Addressable :=
  forall_of_shapesAt hs fun j hj => ((hD.fits hf).1 j hj).1

/-- What an operator reads did not start on the host, unless it is a transfer. -/
theorem Deployed.not_startsOnHost (hD : Deployed fits id offload params views pins q)
    (hi : i ∈ q.instructions) (hne : i.op ≠ .hostToDevice) :
    ∀ r ∈ i.inputs, ∃ j, q.instructions[r]? = some j ∧ startsOnHost j.op = false := by
  intro r hr
  obtain ⟨j, hj, hop⟩ := hD.fed i hi r hr
  exact ⟨j, hj, Bool.eq_false_iff.mpr fun htrue => hne (hop htrue)⟩

/-- There is room for the value of an instruction and for those behind it. -/
theorem Deployed.room (hD : Deployed fits id offload params views pins q)
    (hi : q.instructions[k]? = some i)
    (hdemand : i.demand = Device.footprint (i.shape.space * i.shape.dtype.size))
    (hroom : fits → next + ((q.instructions.drop k).map Instruction.demand).sum ≤ Word.maxUnsigned)
    (hf : fits) :
    (next + Device.footprint (i.shape.space * i.shape.dtype.size) ≤ Word.maxUnsigned ∧
      (i.shape.space * i.shape.dtype.size + 7) / 8 * 8 ≤ Word.maxSigned) ∧
    next + Device.footprint (i.shape.space * i.shape.dtype.size) +
      ((q.instructions.drop (k + 1)).map Instruction.demand).sum ≤ Word.maxUnsigned := by
  have hle := hroom hf
  rw [sum_demand_drop hi, hdemand] at hle
  exact ⟨⟨by omega, (hD.fits hf).2 i (List.mem_of_getElem? hi)⟩, by omega⟩

theorem room_succ (hi : is[k]? = some i)
    (hroom : fits → next + ((is.drop k).map Instruction.demand).sum ≤ Word.maxUnsigned)
    (hf : fits) : next + ((is.drop (k + 1)).map Instruction.demand).sum ≤ Word.maxUnsigned := by
  have hle := hroom hf
  rw [sum_demand_drop hi] at hle
  omega

theorem exists_of_isView {op : Operator} {t : Shape} (h : Infers op shapes t)
    (hview : op.isView = true) : ∃ s, shapes = [s] := by
  cases h with
  | reshape | transpose => exact ⟨_, rfl⟩
  | _ => cases hview

theorem exists_input {s : Shape} {us : List View} (hs : shapesAt is i.inputs = some [s])
    (hus : (i.inputs.mapM fun r => views[r]?) = some us)
    (hargs : List.Forall₂ (fun r a => (r, a) ∈ es) i.inputs args) :
    ∃ r j u a, i.inputs = [r] ∧ is[r]? = some j ∧ j.shape = s ∧ us = [u] ∧ views[r]? = some u ∧
      args = [a] ∧ (r, a) ∈ es := by
  obtain ⟨r, j, hin, hj, hshape⟩ := inputs_eq_singleton hs
  rw [mapM_eq_some] at hus
  rw [hin] at hargs hus
  obtain _ | ⟨hu, _ | _⟩ := hus
  obtain _ | ⟨ha, _ | _⟩ := hargs
  exact ⟨r, j, _, _, hin, hj, hshape, rfl, hu, rfl, ha⟩

/-! ## Kernels on values -/

theorem Deployed.launch_ends (hD : Deployed fits id offload params views pins q)
    (hi : q.instructions[k]? = some i) (h : DeviceHolds fits id q.instructions views pins k w es)
    (hargs : List.Forall₂ (fun r a => (r, a) ∈ es) i.inputs args) (hc : i.op.isCompute = true)
    (hkernel : i.kernel = some (.launch i.op id)) :
    ((BoundKernel.launch i.op id).compute i.shape args w).Ends fits fun a w' =>
      DeviceHolds fits id q.instructions views pins (k + 1) w' ((k, a) :: es) := by
  obtain ⟨shapes, inputs, v, hshapes, hinfers, hinputs, -, hk, hdenote⟩ := hD.instruction hi
  have hmem : i ∈ q.instructions := List.mem_of_getElem? hi
  have hne : i.op ≠ .hostToDevice := fun heq => by
    rw [heq] at hc
    cases hc
  have hpop := hD.populated hshapes
  have haddr := hD.addressable hshapes
  have hroomy : fits → i.op.Roomy shapes := fun hf => ((hD.fits hf).1 i hmem).2.2 shapes hshapes
  have hlist : fits → i.shape.Listable := fun hf => (((hD.fits hf).1 i hmem).2.1 hc).listable
  have hv := hdenote (Operator.isParameter_of_isCompute hc) fun a heq => by
    rw [hkernel] at heq
    cases heq
  have hloc : ∀ r ∈ i.inputs, ∃ j, q.instructions[r]? = some j ∧ startsOnHost j.op = false ∧
      ¬Fetched q.instructions r := fun r hr => by
    obtain ⟨j, hj, hstarts⟩ := hD.not_startsOnHost hmem hne r hr
    exact ⟨j, hj, hstarts, hD.stays i hmem hc r hr⟩
  obtain ⟨residents, rfl, rfl, rfl, hsub⟩ := h.exists_residents hargs hshapes hinputs hloc
  obtain ⟨next, hloaded, hroom⟩ := h.loaded
  have hroom' := hD.room hi (Instruction.demand_of_isCompute hc) hroom
  refine (hloaded.launch_ends (fun hf => hf) hsub hinfers hc hpop (hD.ready.populated i hmem)
    (fun hf => ⟨((hD.fits hf).1 i hmem).1, hroomy hf⟩) hlist haddr (fun hf => (hroom' hf).1) hv).mono ?_
  rintro _ w' ⟨res, rfl, hshape, htensor, hid, hw⟩
  exact h.cons_device hi hk (Or.inr ⟨not_fetched_of_isCompute hi hc, hid⟩) hshape htensor hw
    fun hf => (hroom' hf).2

theorem Deployed.view_ends (hD : Deployed fits id offload params views pins q)
    (hi : q.instructions[k]? = some i) (h : DeviceHolds fits id q.instructions views pins k w es)
    (hargs : List.Forall₂ (fun r a => (r, a) ∈ es) i.inputs args) (hview : i.op.isView = true)
    {name : String} (hkernel : i.kernel = some (.view name)) :
    ((BoundKernel.view name).compute i.shape args w).Ends fits fun a w' =>
      DeviceHolds fits id q.instructions views pins (k + 1) w' ((k, a) :: es) := by
  obtain ⟨shapes, inputs, v, hshapes, hinfers, hinputs, -, hk, hdenote⟩ := hD.instruction hi
  have hmem : i ∈ q.instructions := List.mem_of_getElem? hi
  have hpi := hD.ready.populated i hmem
  have hne : i.op ≠ .hostToDevice := fun heq => by
    rw [heq] at hview
    cases hview
  have hd := hdenote (Operator.isParameter_of_isView hview) fun a heq => by
    rw [hkernel] at heq
    cases heq
  obtain ⟨s, rfl⟩ := exists_of_isView hinfers hview
  have hlaid : isReshape i.op = true → s.isStandard = some true := fun hr =>
    (forall_standardAt_iff hshapes).mp (hD.ready.laid i hmem hr) s List.mem_cons_self
  have hps := hD.populated hshapes s List.mem_cons_self
  obtain ⟨r, j, u, a, hin, hj, rfl, rfl, hu, rfl, ha⟩ := exists_input hshapes hinputs hargs
  have hstarts : startsOnHost j.op = false := by
    obtain ⟨j', hj', hstarts⟩ := hD.not_startsOnHost hmem hne r (by rw [hin]; exact List.mem_cons_self)
    rw [hj] at hj'
    cases hj'
    exact hstarts
  have hfetched := fetched_iff_of_isView hi hview hin
  obtain ⟨next, hloaded, hroom⟩ := h.loaded
  have hroom' := fun hf => room_succ hi hroom hf
  rcases h.located_of ha hj hu with ⟨hstores, hhost⟩ | ⟨b, rfl, hdevice⟩
  · rw [hstarts] at hhost
    have hfetched' := hfetched.mpr (hhost.resolve_left Bool.false_ne_true)
    refine Action.ends_bind (P := fun b w' => b.Stores i.shape v ∧ w' = w)
      (Action.ends_ofOutcome ((Kernel.withShape_ends hinfers hview hstores hps hpi hlaid
        (fun hf => ((hD.fits hf).1 i hmem).1) hd).mono fun _ hb => ⟨hb, rfl⟩)) ?_
    rintro b _ ⟨hb, rfl⟩
    rw [retain_of_stores hb]
    exact h.cons_host hi hk (Or.inr hfetched') hb hloaded hroom'
  · rw [hstarts] at hdevice
    obtain ⟨hnot, hid⟩ := hdevice.resolve_left Bool.false_ne_true
    have hres : ⟨b, j.shape, u⟩ ∈ pins ++ es.filterMap (resident? views) := mem_resident ha hu
    have hspan : i.shape.space * i.shape.dtype.size = j.shape.space * j.shape.dtype.size := by
      obtain ⟨_, -, -, hdtype, hspace⟩ := Operator.denote_view hinfers hview hps hlaid #[]
      rw [hdtype, hspace]
    have hroomy : i.shape.space * i.shape.dtype.size ≤ b.size := hspan ▸ hloaded.roomy hres
    have hfit : fits → i.shape.space * i.shape.dtype.size ≤ Word.maxUnsigned := fun hf =>
      World.le_of_holdable ((hD.fits hf).2 i hmem)
    refine Action.ends_bind (P := fun a w' => a = Resident.argument ⟨b, i.shape, v⟩ ∧ w' = w)
      (Action.ends_ofOutcome ((World.make_device_ends hpi hfit hroomy).mono fun _ hb => ⟨hb, rfl⟩)) ?_
    rintro _ _ ⟨rfl, rfl⟩
    refine Action.ends_bind (hloaded.retain hres rfl hroomy fun bytes hagrees =>
      Operator.agrees_of_isView hinfers hview hps hlaid hd hagrees) fun _ w' hw => ?_
    exact h.cons_device hi hk (Or.inr ⟨fun hf => hnot (hfetched.mp hf), hid⟩) rfl rfl hw hroom'

theorem Deployed.resident_ends (hD : Deployed fits id offload params views pins q)
    (hi : q.instructions[k]? = some i) (h : DeviceHolds fits id q.instructions views pins k w es)
    (hop : i.op = .hostToDevice) {b : DeviceBuffer} (hb : b.device = id)
    (hc : i.kernel = some (.resident ⟨i.shape, some (.device b)⟩)) :
    ((BoundKernel.resident ⟨i.shape, some (.device b)⟩).compute i.shape args w).Ends fits
      fun a w' => DeviceHolds fits id q.instructions views pins (k + 1) w' ((k, a) :: es) := by
  obtain ⟨_, _, v, -, -, -, -, hk, -⟩ := hD.instruction hi
  obtain ⟨next, hloaded, hroom⟩ := h.loaded
  have hpin := List.mem_append_left (es.filterMap (resident? views)) (hD.pinned k i b v hi hop hc hk)
  refine Action.ends_bind (hloaded.retain hpin rfl (hloaded.roomy hpin) fun _ hagrees => hagrees) ?_
  intro _ w' hw
  exact h.cons_device hi hk (Or.inr ⟨not_fetched_of_hostToDevice hi hop, hb⟩) rfl rfl hw
    fun hf => room_succ hi hroom hf

theorem Deployed.upload_ends (hD : Deployed fits id offload params views pins q)
    (hi : q.instructions[k]? = some i) (h : DeviceHolds fits id q.instructions views pins k w es)
    (hargs : List.Forall₂ (fun r a => (r, a) ∈ es) i.inputs args) (hop : i.op = .hostToDevice)
    (hc : i.kernel = some (.upload id)) :
    ((BoundKernel.upload id).compute i.shape args w).Ends fits fun a w' =>
      DeviceHolds fits id q.instructions views pins (k + 1) w' ((k, a) :: es) := by
  obtain ⟨shapes, inputs, v, hshapes, hinfers, hinputs, -, hk, hdenote⟩ := hD.instruction hi
  have hmem : i ∈ q.instructions := List.mem_of_getElem? hi
  obtain rfl : shapes = [i.shape] := hinfers.inputs_eq_of_isTransfer (by rw [hop]; rfl)
  obtain ⟨r, j, u, a, hin, hj, hshape, rfl, hu, rfl, ha⟩ := exists_input hshapes hinputs hargs
  obtain ⟨next, hloaded, hroom⟩ := h.loaded
  have hkernel : ∀ a, BoundKernel.upload id ≠ .resident a := fun _ heq => nomatch heq
  have hvu : v = u := by
    have hd := hdenote (congrArg Operator.isParameter hop) fun a heq => by
      rw [hc] at heq
      cases heq
    rw [hop] at hd
    exact (Option.some.inj hd).symm
  subst hvu
  have hroom' := hD.room hi (Instruction.demand_of_kernel hop hc hkernel) hroom
  have hvalue := h.stores_or_resident ha hj hu
  rw [hshape] at hvalue
  refine (hloaded.toDevice_ends (fun hf => hf) hvalue (hD.ready.populated i hmem)
    (fun hf => ((hD.fits hf).1 i hmem).1) fun hf => (hroom' hf).1).mono ?_
  rintro _ w' ⟨res, rfl, hres, htensor, hid, hw⟩
  exact h.cons_device hi hk (Or.inr ⟨not_fetched_of_hostToDevice hi hop, hid⟩) hres htensor hw
    fun hf => (hroom' hf).2

theorem Deployed.deviceToHost_ends (hD : Deployed fits id offload params views pins q)
    (hi : q.instructions[k]? = some i) (h : DeviceHolds fits id q.instructions views pins k w es)
    (hargs : List.Forall₂ (fun r a => (r, a) ∈ es) i.inputs args) (hop : i.op = .deviceToHost)
    (hc : i.kernel = some .download) :
    (BoundKernel.download.compute i.shape args w).Ends fits fun a w' =>
      DeviceHolds fits id q.instructions views pins (k + 1) w' ((k, a) :: es) := by
  obtain ⟨shapes, inputs, v, hshapes, hinfers, hinputs, -, hk, hdenote⟩ := hD.instruction hi
  have hmem : i ∈ q.instructions := List.mem_of_getElem? hi
  have hpi := hD.ready.populated i hmem
  have haddr : fits → i.shape.Addressable := fun hf => ((hD.fits hf).1 i hmem).1
  obtain rfl : shapes = [i.shape] := by
    rw [hop] at hinfers
    cases hinfers
    rfl
  obtain ⟨r, j, u, a, hin, hj, hshape, rfl, hu, rfl, ha⟩ := exists_input hshapes hinputs hargs
  have hvu : v = u := by
    have hd := hdenote (congrArg Operator.isParameter hop) fun a heq => by
      rw [hc] at heq
      cases heq
    rw [hop] at hd
    exact (Option.some.inj hd).symm
  subst hvu
  obtain ⟨next, hloaded, hroom⟩ := h.loaded
  have hends : (World.toHost a w).Ends fits fun a w' => a.Stores i.shape v ∧
      w'.Loaded fits id next (pins ++ es.filterMap (resident? views)) := by
    have hvalue := h.stores_or_resident ha hj hu
    rw [hshape] at hvalue
    rcases hvalue with hstores | ⟨res, hres, rfl, heq, rfl⟩
    · exact hloaded.toHost_host_ends hstores hpi haddr
    · rw [← heq] at hpi haddr ⊢
      exact hloaded.toHost_ends (fun hf => hf) hres hpi haddr
  refine hends.mono ?_
  rintro b w' ⟨hstores, hw⟩
  exact h.cons_host hi hk (Or.inr ((fetched_iff hi).mpr (Or.inl hop))) hstores hw
    fun hf => room_succ hi hroom hf

theorem Deployed.literal_ends (hD : Deployed fits id offload params views pins q)
    (hi : q.instructions[k]? = some i) (h : DeviceHolds fits id q.instructions views pins k w es)
    {l : Literal} (hop : i.op = .literal l) (hc : i.kernel = some (.literal l)) :
    ((BoundKernel.literal l).compute i.shape args w).Ends fits fun a w' =>
      DeviceHolds fits id q.instructions views pins (k + 1) w' ((k, a) :: es) := by
  obtain ⟨shapes, inputs, v, -, hinfers, -, hshaped, hk, hdenote⟩ := hD.instruction hi
  have hmem : i ∈ q.instructions := List.mem_of_getElem? hi
  have hd := hdenote (congrArg Operator.isParameter hop) fun a heq => by
    rw [hc] at heq
    cases heq
  rw [hop] at hinfers hd
  have hstores : (Argument.ofLiteral l).Stores i.shape v := by
    have hpi := hD.ready.populated i hmem
    generalize i.shape = t at hinfers hd hpi
    cases hinfers
    obtain _ | _ := hshaped
    cases hd
    exact Kernel.ofLiteral_stores (hD.ready.literals i hmem l hop) hpi
  obtain ⟨next, hloaded, hroom⟩ := h.loaded
  exact h.cons_host hi hk (Or.inl (by rw [hop]; rfl)) hstores hloaded
    fun hf => room_succ hi hroom hf

theorem Deployed.parameter_ends (hD : Deployed fits id offload params views pins q)
    (hi : q.instructions[k]? = some i) (h : DeviceHolds fits id q.instructions views pins k w es)
    {name : String} {s : Shape} (hop : i.op = .parameter name s) :
    ∃ a, params.lookup name = some a ∧ (World.retain a w).Ends fits fun _ w' =>
      DeviceHolds fits id q.instructions views pins (k + 1) w' ((k, a) :: es) := by
  obtain ⟨shapes, inputs, v, -, hinfers, -, -, hk, -⟩ := hD.instruction hi
  obtain rfl : i.shape = s := by
    rw [hop] at hinfers
    cases hinfers
    rfl
  have hstarts : startsOnHost i.op = true := by
    rw [hop]
    rfl
  obtain ⟨next, hloaded, hroom⟩ := h.loaded
  have hroom' := fun hf => room_succ hi hroom hf
  obtain ⟨a, ha, hstores | ⟨b, rfl, hpin⟩⟩ := hD.supplied k i name i.shape v hi hop hk
  · refine ⟨a, ha, ?_⟩
    rw [retain_of_stores hstores]
    exact h.cons_host hi hk (Or.inl hstarts) hstores hloaded hroom'
  · have hpin' := List.mem_append_left (es.filterMap (resident? views)) hpin
    refine ⟨_, ha, (hloaded.retain hpin' rfl (hloaded.roomy hpin') fun _ hagrees =>
      hagrees).mono fun _ w' hw => ?_⟩
    exact h.cons_device hi hk (Or.inl hstarts) rfl rfl hw hroom'

/-! ## Runs -/

theorem DeviceHolds.release_ends
    (h : DeviceHolds fits id is views pins k w ((r, a) :: es)) :
    (World.release a w).Ends fits fun _ w' => DeviceHolds fits id is views pins k w' es := by
  obtain ⟨i, v, -, hv, hlocated⟩ := h.located r a List.mem_cons_self
  have hrest : ∀ r a, (r, a) ∈ es → ∃ i v, is[r]? = some i ∧ views[r]? = some v ∧
      Located id is r i v a := fun r' a' hmem => h.located r' a' (List.mem_cons_of_mem _ hmem)
  obtain ⟨next, hloaded, hroom⟩ := h.loaded
  rcases hlocated with ⟨hstores, -⟩ | ⟨b, rfl, -⟩
  · rw [List.filterMap_cons_none (resident?_of_stores hstores)] at hloaded
    rw [World.release_of_deviceBuffer?_eq_none (deviceBuffer?_of_stores hstores)]
    exact ⟨hrest, next, hloaded, hroom⟩
  · have hresident : resident? views (r, ⟨i.shape, some (.device b)⟩) = some ⟨b, i.shape, v⟩ :=
      resident?_argument ⟨b, i.shape, v⟩ hv
    rw [List.filterMap_cons_some hresident] at hloaded
    exact ((hloaded.perm List.perm_middle).releaseBuffer_ends fun hf => hf).mono
      fun _ w' hw => ⟨hrest, next, hw, hroom⟩

/-- The kernels of a device back the values of a run. -/
theorem backs_device (hD : Deployed fits id offload params views pins q) :
    Backs params q.instructions fits (DeviceHolds fits id q.instructions views pins) where
  perm hp h := by
    obtain ⟨next, hloaded, hroom⟩ := h.loaded
    exact ⟨fun r a hmem => h.located r a (hp.mem_iff.mpr hmem), next,
      hloaded.perm ((hp.filterMap _).append_left _), hroom⟩
  note _ _ h := by
    obtain ⟨next, hloaded, hroom⟩ := h.loaded
    exact ⟨h.located, next, hloaded.congr rfl rfl, hroom⟩
  release h := h.release_ends
  parameter hi hop h := hD.parameter_ends hi h hop
  compute {k w i args es} hi hp h hargs := by
    have hmem : i ∈ q.instructions := List.mem_of_getElem? hi
    obtain ⟨c, hc, hserves⟩ := hD.ready.kernels i hmem hp
    refine ⟨c, hc, ?_⟩
    cases assigned_of_serves hD.ready.consistent hi hp hserves with
    | literal hop => exact hD.literal_ends hi h hop hc
    | resident hop _ _ _ _ hb => exact hD.resident_ends hi h hop hb hc
    | upload hop => exact hD.upload_ends hi h hargs hop hc
    | download hop => exact hD.deviceToHost_ends hi h hargs hop hc
    | view hview => exact hD.view_ends hi h hargs hview hc
    | launch hcompute => exact hD.launch_ends hi h hargs hcompute hc

theorem deviceHolds_nil (hw : w.Loaded fits id next pins)
    (hroom : fits → next + (is.map Instruction.demand).sum ≤ Word.maxUnsigned) :
    DeviceHolds fits id is views pins 0 w [] :=
  ⟨fun _ _ hmem => (nomatch hmem), next, (List.append_nil pins).symm ▸ hw, hroom⟩

/-- A program on a device evaluates to the tensor that its last instruction stands for, and it can
be brought to the host if it is not there. -/
theorem Deployed.run_ends (hD : Deployed fits id offload params views pins q)
    (hne : q.instructions ≠ []) (hcheck : checkParameters params q.parameters = .value ())
    (hw : w.Loaded fits id next pins)
    (hroom : fits → next + (q.instructions.map Instruction.demand).sum ≤ Word.maxUnsigned) :
    (q.run params w).Ends fits fun a w' => ∃ i v, q.last? = some i ∧ views.getLast? = some v ∧
      Located id q.instructions (q.size - 1) i v a ∧
      (a.location = some .device → (World.toHost a w').Ends fits fun b _ => b.Stores i.shape v) := by
  have hcompiled : q.isCompiled = true := by
    rw [isCompiled, hD.ready.target]
    rfl
  refine ((backs_device hD).run_ends hD.ready.consistent hne hcompiled hcheck
    (deviceHolds_nil hw hroom)).mono ?_
  intro a w' h
  obtain ⟨i, v, hi, hv, hlocated⟩ := h.located (q.size - 1) a List.mem_cons_self
  have hmem : i ∈ q.instructions := List.mem_of_getElem? hi
  refine ⟨i, v, ?_, ?_, hlocated, fun hlocation => ?_⟩
  · rw [last?, List.getLast?_eq_getElem?]
    exact hi
  · rw [List.getLast?_eq_getElem?, ← hD.recorded.length_eq]
    exact hv
  · obtain ⟨next', hloaded, -⟩ := h.loaded
    rcases h.stores_or_resident List.mem_cons_self hi hv with hstores | ⟨res, hres, rfl, hshape, rfl⟩
    · obtain ⟨-, b, hb, -⟩ := hstores
      rw [Argument.location, hb] at hlocation
      cases hlocation
    · rw [← hshape]
      exact (hloaded.toHost_ends (fun hf => hf) hres (hshape ▸ hD.ready.populated i hmem)
        fun hf => hshape ▸ ((hD.fits hf).1 i hmem).1).mono fun _ _ hends => hends.1

end Program
end TensorGraph
