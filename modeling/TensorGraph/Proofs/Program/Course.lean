/-
The course of an evaluation on a device.

An evaluation that nothing limits is not refused, and its world grows by the buffers of the values
with a use to come, and by no others.  `Lodged` says in which buffers the values are: in those that
`origin?` says were made for them, or in buffers that were held before.  `Course` collects what
holds at every instruction of a run; `Course.exists_runStep` carries it on, and
`Course.exists_device` counts what is live by it.
-/
import TensorGraph.Proofs.Isolation.Interference
import TensorGraph.Proofs.Program.Limited

namespace TensorGraph

/-! ## Healthy worlds -/

theorem Device.Healthy.firm {d : Device} (h : d.Healthy) : d.Firm := by
  obtain ⟨m, hrun⟩ := h.settles
  refine Device.firm_of_reached h.reached ⟨h.failure, fun m' stop hrun' => ?_⟩
  rw [hrun] at hrun'
  cases hrun'
  rfl

theorem World.Healthy.firm {w : World} (h : w.Healthy) : w.Firm where
  devices d hd := (h.devices d hd).firm
  held b hb := by
    obtain ⟨d, hd, hfind⟩ := h.allocated b hb
    obtain ⟨bytes, hbytes, hsize⟩ := Option.map_eq_some_iff.mp hfind
    have hnodup := (h.devices d (List.mem_of_getElem? hd)).firm.nodup
    exact ⟨d, hd, (Memory.mem_layout_iff hnodup).mpr ⟨bytes, hbytes, hsize⟩⟩

namespace Program

variable {q : Program} {start w w' u : World} {id : DeviceId} {d d₀ : Device}
variable {is : List Instruction} {i : Instruction} {k : Nat} {values values' : Values}
variable {a : Argument} {address : Nat → Nat} {offload : Bool} {params : Parameters}
variable {views : List View} {pins : List Resident} {last : List (Option Nat)}

/-! ## Where values are -/

/-- Whether the values of a run are in the buffers that their origins have made, each at an address
of its own that was not handed out before, and in buffers that were held before otherwise. -/
structure Lodged (start : World) (id : DeviceId) (is : List Instruction) (k : Nat)
    (values : Values) (address : Nat → Nat) : Prop where
  made : ∀ (j : Nat) a r, values[j]? = some (some a) → origin? is j = some r →
    a.holds = [⟨id, address r, bytesAt is r⟩]
  given : ∀ (j : Nat) a, values[j]? = some (some a) → origin? is j = none → a.holds ⊆ start.held
  later : ∀ d, start.devices[id]? = some d → ∀ r ∈ heldAt is k, d.next ≤ address r
  apart : Set.InjOn address (heldAt is k)

theorem lodged_zero (start : World) (id : DeviceId) (is : List Instruction) :
    Lodged start id is 0 (List.replicate is.length none) fun r => r where
  made j a _ ha := absurd ha (getElem?_replicate_none _ j a)
  given j a ha := absurd ha (getElem?_replicate_none _ j a)
  later _ _ _ hr := absurd (lt_of_mem_heldAt hr) (Nat.not_lt_zero _)
  apart _ hr := absurd (lt_of_mem_heldAt hr) (Nat.not_lt_zero _)

namespace Lodged

theorem mem_heldBy (h : Lodged start id is k values address)
    (hlive : ∀ j : Nat, (∃ a, values[j]? = some (some a)) ↔ Live is k j) {r : Nat}
    (hr : r ∈ heldAt is k) : ⟨id, address r, bytesAt is r⟩ ∈ heldBy values := by
  obtain ⟨j, hj, horigin⟩ := mem_heldAt.mp hr
  obtain ⟨a, ha⟩ := (hlive j).mpr hj
  refine holds_subset_heldBy ha ?_
  rw [h.made j a r ha horigin]
  exact List.mem_cons_self

/-- What is live is what was live at the start, and the bytes of the buffers with a use to come. -/
theorem liveBytes (h : Lodged start id is k values address)
    (hlive : ∀ j : Nat, (∃ a, values[j]? = some (some a)) ↔ Live is k j)
    (hgrown : start.Grown (heldBy values) w) (hd₀ : start.devices[id]? = some d₀)
    (hd : w.devices[id]? = some d) :
    d.stats.liveBytes = d₀.stats.liveBytes + heldBytes is k := by
  refine hgrown.liveBytes hd₀ hd h.apart
    (fun r hr => ⟨h.later d₀ hd₀ r hr, h.mem_heldBy hlive hr⟩) fun b hb hnew _ => ?_
  obtain ⟨j, a, ha, hmem⟩ := exists_of_mem_heldBy hb
  cases horigin : origin? is j with
  | none => exact absurd (h.given j a ha horigin hmem) hnew
  | some r =>
    rw [h.made j a r ha horigin] at hmem
    exact ⟨r, mem_heldAt.mpr ⟨j, (hlive j).mp ⟨a, ha⟩, horigin⟩, List.mem_singleton.mp hmem⟩

/-- An instruction that makes a buffer puts it at a later address than those in use. -/
theorem step_of_allocates (h : Lodged start id is k values address) (hb : Backward is)
    (hi : is[k]? = some i) (ha : i.allocates = true) {n : Nat}
    (hvalues : ∀ (j : Nat) b, values'[j]? = some (some b) →
      values[j]? = some (some b) ∧ j < k ∨ j = k ∧ b = a)
    (hholds : a.holds = [⟨id, n, i.bytes⟩]) (hfresh : ∀ r ∈ heldAt is k, address r < n)
    (hlater : ∀ d, start.devices[id]? = some d → d.next ≤ n) :
    Lodged start id is (k + 1) values' (Function.update address k n) := by
  have hsubset := heldAt_succ_subset hb hi
  rw [if_pos ha] at hsubset
  have hne : ∀ r ∈ heldAt is k, r ≠ k := fun r hr => Nat.ne_of_lt (lt_of_mem_heldAt hr)
  refine ⟨fun j b r hb horigin => ?_, fun j b hb horigin => ?_, fun d hd r hr => ?_, ?_⟩
  · rcases hvalues j b hb with ⟨hold, hlt⟩ | ⟨rfl, rfl⟩
    · rw [Function.update_of_ne (Nat.ne_of_lt ((origin?_le horigin).trans_lt hlt))]
      exact h.made j b r hold horigin
    · rw [origin?_of_allocates hi ha] at horigin
      cases horigin
      rw [Function.update_self, bytesAt_of_getElem? hi]
      exact hholds
  · rcases hvalues j b hb with ⟨hold, -⟩ | ⟨rfl, rfl⟩
    · exact h.given j b hold horigin
    · rw [origin?_of_allocates hi ha] at horigin
      cases horigin
  · rcases Finset.mem_insert.mp (hsubset hr) with rfl | hr
    · rw [Function.update_self]
      exact hlater d hd
    · rw [Function.update_of_ne (hne r hr)]
      exact h.later d hd r hr
  · refine Set.InjOn.mono (Finset.coe_subset.mpr hsubset) ?_
    rw [Finset.coe_insert]
    refine (Set.injOn_insert fun hk => hne k hk rfl).mpr ⟨?_, ?_⟩
    · intro r hr s hs heq
      rw [Function.update_of_ne (hne r hr), Function.update_of_ne (hne s hs)] at heq
      exact h.apart hr hs heq
    · rintro ⟨r, hr, heq⟩
      rw [Function.update_self, Function.update_of_ne (hne r hr)] at heq
      exact absurd heq (Nat.ne_of_lt (hfresh r hr))

/-- Other instructions give what is there already. -/
theorem step_of_not_allocates (h : Lodged start id is k values address) (hb : Backward is)
    (hi : is[k]? = some i) (ha : i.allocates = false)
    (hvalues : ∀ (j : Nat) b, values'[j]? = some (some b) →
      values[j]? = some (some b) ∧ j < k ∨ j = k ∧ b = a)
    (hmade : ∀ r, origin? is k = some r → a.holds = [⟨id, address r, bytesAt is r⟩])
    (hgiven : origin? is k = none → a.holds ⊆ start.held) :
    Lodged start id is (k + 1) values' address := by
  have hsubset := heldAt_succ_subset hb hi
  rw [ha, if_neg Bool.false_ne_true] at hsubset
  refine ⟨fun j b r hb horigin => ?_, fun j b hb horigin => ?_,
    fun d hd r hr => h.later d hd r (hsubset hr), h.apart.mono (Finset.coe_subset.mpr hsubset)⟩
  · rcases hvalues j b hb with ⟨hold, -⟩ | ⟨rfl, rfl⟩
    · exact h.made j b r hold horigin
    · exact hmade r horigin
  · rcases hvalues j b hb with ⟨hold, -⟩ | ⟨rfl, rfl⟩
    · exact h.given j b hold horigin
    · exact hgiven horigin

end Lodged

/-! ## Kernels of a device -/

/-- What the kernel of an instruction does that is no parameter. -/
theorem OnDevice.kernel_cases (h : q.OnDevice id) (hi : q.instructions[k]? = some i)
    (hp : i.isParameter = false) :
    (i.op.isCompute = true ∧ i.kernel = some (.launch i.op id)) ∨
      (i.op = .hostToDevice ∧ i.kernel = some (.upload id)) ∨
      (i.op.isView = true ∧ i.kernel = some (.view i.op.name)) ∨
      (∃ l, i.kernel = some (.literal l)) ∨
      (∃ b, i.kernel = some (.resident ⟨i.shape, some (.device b)⟩)) ∨
      i.kernel = some .download := by
  obtain ⟨c, hc, hserves⟩ := h.kernels i (List.mem_of_getElem? hi) hp
  cases assigned_of_serves h.consistent hi hp hserves with
  | launch hcompute => exact Or.inl ⟨hcompute, hc⟩
  | upload hop => exact Or.inr (Or.inl ⟨hop, hc⟩)
  | view hview => exact Or.inr (Or.inr (Or.inl ⟨hview, hc⟩))
  | @literal l _ => exact Or.inr (Or.inr (Or.inr (Or.inl ⟨l, hc⟩)))
  | @resident _ _ _ b => exact Or.inr (Or.inr (Or.inr (Or.inr (Or.inl ⟨b, hc⟩))))
  | download => exact Or.inr (Or.inr (Or.inr (Or.inr (Or.inr hc))))

/-- An instruction that makes a buffer is a launch or an upload. -/
theorem OnDevice.kernel_of_allocates (h : q.OnDevice id) (hpins : Pinning q)
    (hi : q.instructions[k]? = some i) (ha : i.allocates = true) : i.isParameter = false ∧
      ((i.op.isCompute = true ∧ i.kernel = some (.launch i.op id)) ∨
        (i.op = .hostToDevice ∧ i.kernel = some (.upload id))) := by
  have hp : i.isParameter = false := by
    refine hpins.not_isParameter (List.mem_of_getElem? hi) fun hnone => ?_
    rw [Instruction.allocates, hnone] at ha
    cases ha
  refine ⟨hp, ?_⟩
  unfold Instruction.allocates at ha
  rcases h.kernel_cases hi hp with hlaunch | hupload | ⟨-, hk⟩ | ⟨l, hk⟩ | ⟨b, hk⟩ | hk
  · exact Or.inl hlaunch
  · exact Or.inr hupload
  all_goals
    rw [hk] at ha
    cases ha

/-! ## The run without the capacity -/

/-- What an evaluation starts with: a program on a device without limits, and arguments for it that
are held. -/
structure Prepared (start : World) (id : DeviceId) (offload : Bool) (params : Parameters)
    (views : List View) (pins : List Resident) (q : Program) (d₀ : Device)
    (last : List (Option Nat)) : Prop where
  deployed : Deployed True id offload params views pins q
  pinning : Pinning q
  onDevice : q.OnDevice id
  firm : start.Firm
  keeps : start.Keeps q params
  check : checkParameters params q.parameters = .value ()
  device : start.devices[id]? = some d₀
  capacity : d₀.capacity = none
  loaded : start.Loaded True id d₀.next pins
  room : d₀.next + (q.instructions.map Instruction.demand).sum ≤ Word.maxUnsigned
  lastUses : lastUses q = some last
  reads : LastReads q.instructions last
  length : last.length = q.instructions.length

/-- The bytes of every value can be counted. -/
theorem Prepared.storageBytes (hP : Prepared start id offload params views pins q d₀ last)
    (hi : i ∈ q.instructions) : i.shape.storageBytes = some i.bytes ∧
      i.bytes = i.shape.space * i.shape.dtype.size ∧
      i.shape.space * i.shape.dtype.size ≤ Word.maxUnsigned := by
  have hfit := World.le_of_holdable ((hP.deployed.fits trivial).2 i hi)
  have hstorage := (Shape.storageBytes_eq_some (hP.deployed.ready.populated i hi)).mpr ⟨rfl, hfit⟩
  have hbytes : i.bytes = i.shape.space * i.shape.dtype.size := by
    rw [Instruction.bytes, hstorage, Option.getD_some]
  exact ⟨hbytes ▸ hstorage, hbytes, hfit⟩

/-- How far a run has come that nothing limits: its values are those with a use to come, in a world
that has grown by their buffers. -/
structure Course (start : World) (id : DeviceId) (views : List View) (pins : List Resident)
    (q : Program) (last : List (Option Nat)) (k : Nat) (values : Values) (w : World) : Prop where
  filled : Filled last (q.size - 1) q.instructions.length k values
  backed : DeviceHolds True id q.instructions views pins k w (kept values)
  linked : ∃ V, values = lefts V ∧ values = rights V ∧
    Tabled (.same start start id) q.instructions k V ∧
    Linked (.same start start id) (pairsOf V) w w
  lodged : ∃ address, Lodged start id q.instructions k values address

theorem map_fst_pairsOf {c : Comparison} {V : Table} (h : Tabled c is k V) :
    (pairsOf V).map Prod.fst = heldBy (lefts V) := by
  rw [heldBy_eq, filterMap_lefts, List.flatMap_map, pairsOf, List.map_flatMap]
  exact List.flatMap_congr fun e he => (h.alike e he).map_fst_links

theorem Prepared.course (hP : Prepared start id offload params views pins q d₀ last) :
    Course start id views pins q last 0 (List.replicate q.size none) start where
  filled := filled_zero _ _ _
  backed := by
    rw [kept_replicate]
    exact deviceHolds_nil hP.loaded fun _ => hP.room
  linked := by
    have hmap : ∀ f : Argument × Argument → Argument,
        (List.replicate q.size none : Table).map (Option.map f) = List.replicate q.size none :=
      fun f => List.map_replicate
    refine ⟨List.replicate q.size none, (hmap Prod.fst).symm, (hmap Prod.snd).symm,
      tabled_zero _ _, ?_⟩
    rw [pairsOf_replicate]
    exact hP.firm.linked_self id
  lodged := ⟨_, lodged_zero start id q.instructions⟩

namespace Course

variable (hP : Prepared start id offload params views pins q d₀ last)

theorem grown (h : Course start id views pins q last k values w) :
    start.Grown (heldBy values) w := by
  obtain ⟨V, rfl, -, htabled, hlinked⟩ := h.linked
  rw [← map_fst_pairsOf htabled]
  exact hlinked.left

/-- Bringing a value to the host changes nothing on the devices. -/
theorem grown_toHost {r : Nat} {b : Argument} (h : Course start id views pins q last k values w)
    (ha : values[r]? = some (some a)) (hvalue : World.toHost a w = .value b u) :
    start.Grown (heldBy values) u := by
  obtain ⟨V, hlefts, hrights, htabled, hlinked⟩ := h.linked
  obtain ⟨e, hr, hfst⟩ : ∃ e, V[r]? = some (some e) ∧ e.1 = a := by
    rw [hlefts, lefts, List.getElem?_map] at ha
    obtain ⟨v, hv, hmap⟩ := Option.map_eq_some_iff.mp ha
    obtain ⟨e, rfl, hfst⟩ := Option.map_eq_some_iff.mp hmap
    exact ⟨e, hv, hfst⟩
  obtain ⟨-, j, -, hmatch⟩ := htabled.entries r e hr
  have hends : (World.toHost e.1 w).Foretells False _ _ (World.toHost e.2 w) :=
    hlinked.toHost hmatch.alike
      (List.subset_append_of_subset_left _ (links_subset_pairsOf hr))
  rw [hfst, hvalue] at hends
  obtain ⟨_, _, -, hlinked', -⟩ := hends
  rw [hlefts, ← map_fst_pairsOf htabled]
  exact hlinked'.left

include hP

theorem live_iff (h : Course start id views pins q last k values w) (hk : k < q.instructions.length)
    (j : Nat) : (∃ a, values[j]? = some (some a)) ↔ Live q.instructions k j := by
  have ho : q.size - 1 + 1 = q.instructions.length := Nat.sub_add_cancel (Nat.zero_lt_of_lt hk)
  rw [h.filled.kept_iff, live_iff_kept hP.reads ho]

theorem exists_inputs (h : Course start id views pins q last k values w)
    (hi : q.instructions[k]? = some i) :
    ∃ args, inputValues k values i.inputs = .value args ∧
      List.Forall₂ (fun r a => values[r]? = some (some a)) i.inputs args :=
  inputValues_eq_value k (h.filled.exists_input hP.reads hP.onDevice.consistent hi)

/-- The device has live what it had at the start, and the buffers with a use to come. -/
theorem exists_device (h : Course start id views pins q last k values w)
    (hk : k < q.instructions.length) (hgrown : start.Grown (heldBy values) u) :
    ∃ d, u.devices[id]? = some d ∧ d.capacity = none ∧
      d.stats.liveBytes = d₀.stats.liveBytes + heldBytes q.instructions k := by
  obtain ⟨d, hd, hdevice⟩ := hgrown.exists_device hP.device
  obtain ⟨address, hlodged⟩ := h.lodged
  exact ⟨d, hd, hdevice.capacity.trans hP.capacity,
    hlodged.liveBytes (h.live_iff hP hk) hgrown hP.device hd⟩

theorem exists_makes_toDevice {r : Nat} {v : View}
    (h : Course start id views pins q last k values w) (ha : values[r]? = some (some a))
    (hi : q.instructions[r]? = some i) (hv : views[r]? = some v) :
    ∃ u, World.Makes id i.bytes (World.toDevice id a) w u ∧
      start.Grown (heldBy values) u ∧
      DeviceHolds True id q.instructions views pins k u (kept values) := by
  have hmem := List.mem_of_getElem? hi
  have hpopulated := hP.deployed.ready.populated i hmem
  obtain ⟨next, hloaded, hroom⟩ := h.backed.loaded
  have hhost : ∀ {b : Argument}, b.Stores i.shape v →
      ∃ bytes, b.hostBytes = .value bytes ∧ bytes.size = i.bytes := by
    intro b hstores
    obtain ⟨bytes, hbytes, hsize, -⟩ := (World.hostBytes_ends hstores hpopulated
      fun _ : True => (hP.storageBytes hmem).2.2).eq_value_of_fits trivial
    exact ⟨bytes, hbytes, hsize.trans (hP.storageBytes hmem).2.1.symm⟩
  rcases h.backed.stores_or_resident (mem_kept ha) hi hv with hstores | ⟨res, hres, rfl, hs, rfl⟩
  · obtain ⟨bytes, hbytes, hsize⟩ := hhost hstores
    have hlocation : a.location ≠ some .device := by
      obtain ⟨-, b, hb, -⟩ := hstores
      rw [Argument.location, hb]
      intro h
      cases h
    rw [← hsize]
    exact ⟨w, World.makes_toDevice_of_host hlocation hbytes w, h.grown, h.backed⟩
  · obtain ⟨b, u, hb, hstores, hloaded'⟩ := (hloaded.toHost_ends (fun hf : True => hf) hres
      (hs ▸ hpopulated)
      fun _ => hs ▸ ((hP.deployed.fits trivial).1 i hmem).1).exists_value_of_fits trivial
    obtain ⟨bytes, hbytes, hsize⟩ := hhost (hs ▸ hstores)
    rw [← hsize]
    exact ⟨u, World.makes_toDevice_of_device rfl hb hbytes, h.grown_toHost ha hb,
      h.backed.located, next, hloaded', hroom⟩

/-- An instruction that makes a buffer does so in a world with the same holders. -/
theorem exists_makes (h : Course start id views pins q last k values w)
    (hi : q.instructions[k]? = some i) (ha : i.allocates = true) :
    ∃ u, World.Makes id i.bytes (instructionValue params k i values) w u ∧
      start.Grown (heldBy values) u ∧
      DeviceHolds True id q.instructions views pins k u (kept values) := by
  obtain ⟨hp, hkernel⟩ := hP.onDevice.kernel_of_allocates hP.pinning hi ha
  obtain ⟨args, hargs, hall⟩ := h.exists_inputs hP hi
  have hvalue : ∀ {c}, i.kernel = some c →
      instructionValue params k i values = c.compute i.shape args := by
    intro c hc
    rw [instructionValue_of_kernel hp hc]
    exact funext fun w => Action.bind_lift_of_value hargs
  rcases hkernel with ⟨-, hc⟩ | ⟨hop, hc⟩
  · rw [hvalue hc]
    exact ⟨w, World.makes_launch (hP.storageBytes (List.mem_of_getElem? hi)).1 w, h.grown, h.backed⟩
  · obtain ⟨shapes, inputs, v, hshapes, hinfers, hinputs, -⟩ := hP.deployed.instruction hi
    obtain rfl : shapes = [i.shape] := by
      rw [hop] at hinfers
      cases hinfers
      rfl
    obtain ⟨r, j, x, a, hin, hj, hshape, -, hx, rfl, -⟩ :=
      exists_input hshapes hinputs (hall.imp fun _ _ hr => mem_kept hr)
    rw [hin] at hall
    obtain _ | ⟨hr, _ | _⟩ := hall
    have hbytes : i.bytes = j.bytes := by rw [Instruction.bytes, Instruction.bytes, hshape]
    rw [hvalue hc, hbytes]
    exact h.exists_makes_toDevice hP hr hj hx

/-- What is neither made nor a view is on the host, or was held before. -/
theorem holds_subset_of_not_view (h : Course start id views pins q last k values w)
    (hi : q.instructions[k]? = some i) (ha : i.allocates = false)
    (hview : ∀ name, i.kernel ≠ some (.view name))
    (hvalue : instructionValue params k i values w = .value a w') : a.holds ⊆ start.held := by
  have hmem := List.mem_of_getElem? hi
  cases hp : i.isParameter with
  | true =>
    obtain ⟨name, s, hop⟩ := exists_parameter hp
    exact hP.keeps.arguments name a (parameter_eq_value hop hvalue).1
  | false =>
    obtain ⟨args, hargs, -⟩ := h.exists_inputs hP hi
    have hcompute : ∀ {c}, i.kernel = some c → c.compute i.shape args w = .value a w' := by
      intro c hc
      rw [instructionValue_of_kernel hp hc, Action.bind_lift_of_value hargs] at hvalue
      exact hvalue
    unfold Instruction.allocates at ha
    rcases hP.onDevice.kernel_cases hi hp with
      ⟨-, hc⟩ | ⟨-, hc⟩ | ⟨-, hc⟩ | ⟨l, hc⟩ | ⟨b, hc⟩ | hc
    · rw [hc] at ha
      cases ha
    · rw [hc] at ha
      cases ha
    · exact absurd hc (hview _)
    · cases hcompute hc
      exact List.nil_subset _
    · obtain ⟨_, _, -, hresident⟩ := Action.bind_eq_value.mp (hcompute hc)
      cases hresident
      have hresidents : b ∈ q.residents :=
        List.mem_filterMap.mpr ⟨i, hmem, by rw [hc]; rfl⟩
      exact List.cons_subset.mpr ⟨hP.keeps.residents hresidents, List.nil_subset _⟩
    · have hdownload := hcompute hc
      cases args with
      | nil => cases hdownload
      | cons b _ =>
        rw [World.holds_of_toHost hdownload]
        exact List.nil_subset _

/-- A view is in the buffers of what it views. -/
theorem exists_viewed {name : String} (h : Course start id views pins q last k values w)
    (hi : q.instructions[k]? = some i) (hc : i.kernel = some (.view name))
    (hvalue : instructionValue params k i values w = .value a w') :
    ∃ r b, values[r]? = some (some b) ∧ origin? q.instructions k = origin? q.instructions r ∧
      a.holds = b.holds := by
  have hp := hP.pinning.not_isParameter (List.mem_of_getElem? hi) (hc ▸ Option.some_ne_none _)
  obtain ⟨args, hargs, hall⟩ := h.exists_inputs hP hi
  rw [instructionValue_of_kernel hp hc, Action.bind_lift_of_value hargs] at hvalue
  cases hin : i.inputs with
  | nil =>
    rw [hin] at hall
    cases hall
    cases hvalue
  | cons r rest =>
    rw [hin] at hall
    obtain _ | ⟨hr, -⟩ := hall
    obtain ⟨b, _, hwith, hvalue⟩ := Action.bind_eq_value.mp hvalue
    obtain ⟨_, _, -, hvalue⟩ := Action.bind_eq_value.mp hvalue
    cases hvalue
    have hlt := hP.onDevice.consistent.backward k r ⟨i, hi, hin ▸ List.mem_cons_self⟩
    exact ⟨r, _, hr, origin?_of_view hi hc hin hlt,
      Argument.holds_of_withShape (Action.ofOutcome_eq_value.mp hwith).1⟩

/-- An instruction that makes no buffer gives what is in the buffer of its origin, or in one that
was held before. -/
theorem holds_of_not_allocates (h : Course start id views pins q last k values w)
    (hlodged : Lodged start id q.instructions k values address) (hi : q.instructions[k]? = some i)
    (ha : i.allocates = false) (hvalue : instructionValue params k i values w = .value a w') :
    (∀ r, origin? q.instructions k = some r →
      a.holds = [⟨id, address r, bytesAt q.instructions r⟩]) ∧
    (origin? q.instructions k = none → a.holds ⊆ start.held) := by
  by_cases hview : ∃ name, i.kernel = some (.view name)
  · obtain ⟨name, hc⟩ := hview
    obtain ⟨r, b, hr, horigin, hholds⟩ := h.exists_viewed hP hi hc hvalue
    rw [horigin, hholds]
    exact ⟨fun s hs => hlodged.made r b s hr hs, hlodged.given r b hr⟩
  · have hview : ∀ name, i.kernel ≠ some (.view name) := fun name hc => hview ⟨name, hc⟩
    refine ⟨fun r hr => ?_, fun _ => h.holds_subset_of_not_view hP hi ha hview hvalue⟩
    rw [origin?_eq_none hi ha hview] at hr
    cases hr

/-- The values behind an instruction are in buffers of their own as those before it are. -/
theorem exists_lodged (h : Course start id views pins q last k values w)
    (hi : q.instructions[k]? = some i)
    (hvalue : instructionValue params k i values w = .value a w') :
    ∃ address, Lodged start id q.instructions (k + 1)
      (succeeding last (q.size - 1) k values a i.inputs) address := by
  obtain ⟨address, hlodged⟩ := h.lodged
  have hbackward := hP.onDevice.consistent.backward
  have hlive := h.live_iff hP (List.getElem?_eq_some_iff.mp hi).1
  have hvalues : ∀ (j : Nat) b,
      (succeeding last (q.size - 1) k values a i.inputs)[j]? = some (some b) →
        values[j]? = some (some b) ∧ j < k ∨ j = k ∧ b = a := fun j b hb =>
    (getElem?_of_succeeding hb).imp_left fun hold => ⟨hold, ((hlive j).mp ⟨b, hold⟩).1⟩
  cases ha : i.allocates with
  | true =>
    obtain ⟨u, hmakes, hgrown, -⟩ := h.exists_makes hP hi ha
    obtain ⟨d, hd, hholds⟩ := hmakes.holds hvalue
    obtain ⟨d₁, hd₁, hdevice⟩ := hgrown.exists_base hd
    refine ⟨_, hlodged.step_of_allocates hbackward hi ha hvalues hholds (fun r hr => ?_)
      fun d₂ hd₂ => ?_⟩
    · obtain ⟨d', hd', hlayout⟩ :=
        hgrown.allocated (List.mem_append_left _ (hlodged.mem_heldBy hlive hr))
      rw [hd] at hd'
      cases hd'
      exact hdevice.firm.lt_next hlayout
    · rw [hd₁] at hd₂
      cases hd₂
      exact hdevice.next
  | false =>
    obtain ⟨hmade, hgiven⟩ := h.holds_of_not_allocates hP hlodged hi ha hvalue
    exact ⟨address, hlodged.step_of_not_allocates hbackward hi ha hvalues hmade hgiven⟩

theorem exists_runStep (h : Course start id views pins q last k values w)
    (hi : q.instructions[k]? = some i) :
    ∃ values' w', runStep params last (q.size - 1) k values i w = .value values' w' ∧
      Course start id views pins q last (k + 1) values' w' := by
  have houtput : q.size - 1 + 1 = q.instructions.length := by
    have hk := (List.getElem?_eq_some_iff.mp hi).1
    rw [Program.size]
    omega
  obtain ⟨values', w', hstep, hfilled, hbacked⟩ := ((backs_device hP.deployed).runStep_ends hP.reads
    hP.length hP.onDevice.consistent houtput hi h.filled h.backed).exists_value_of_fits trivial
  refine ⟨values', w', hstep, hfilled, hbacked, ?_, ?_⟩
  · obtain ⟨V, hlefts, hrights, htabled, hlinked⟩ := h.linked
    have hboth : (runStep params last (q.size - 1) k (lefts V) i w).Foretells _ _ _
        (runStep params last (q.size - 1) k (rights V) i w) :=
      runStep_foretells hlinked (twins_self hP.onDevice hP.keeps.residents) htabled
        (given_same hP.keeps.arguments) hP.check hi hi
    rw [← hlefts, ← hrights, hstep] at hboth
    obtain ⟨_, _, heq, V', hlefts', hrights', htabled', hlinked'⟩ := hboth
    cases heq
    exact ⟨V', hlefts', hrights', htabled', hlinked'⟩
  · obtain ⟨a, w₁, hvalue, -, rfl⟩ := runStep_eq_value hstep
    exact h.exists_lodged hP hi hvalue

end Course

end Program
end TensorGraph
