/-
The host and a device agree.

The two targets make different programs of one source: their copies stand in different places,
and on the device everything is moved, constants when the program is compiled.  Both programs
denote what the source does, and each run gives what its program denotes, so the results are the
same; `device_parity` is that, with the room that it takes (`Room`).
-/
import TensorGraph.Proofs.Program.Bind

namespace TensorGraph
namespace Program

variable {p q : Program} {w w' : World} {id : DeviceId} {offload : Bool} {fits : Prop}
variable {params : Parameters} {views : List View} {pins : List Resident} {is js : List Instruction}
variable {i j : Instruction} {k : Nat}

/-- Whether no size leaves the range of words when a program is compiled for the host, or for a
device that has addresses from `next` on, and is evaluated, and the elements are listed. -/
def Room (p : Program) (id : DeviceId) (offload : Bool) (next : Nat) : Prop :=
  (∀ q, Lowers Target.host.passes p q → Fits q.instructions) ∧
    (∀ q, Lowers (Target.device id offload).passes p q →
      Fits q.instructions ∧ Roomy next q.instructions) ∧
    ∀ s, p.last?.map Instruction.shape = some s → s.Listable

/-! ## Programs up to kernels -/

theorem exists_of_map_bare (h : js.map bare = is.map bare) (hj : js[k]? = some j) :
    ∃ i, is[k]? = some i ∧ i.op = j.op ∧ i.inputs = j.inputs ∧ i.shape = j.shape := by
  have hget := congrArg (fun l => l[k]?) h
  simp only [List.getElem?_map, hj, Option.map_some] at hget
  obtain ⟨i, hi, heq⟩ := Option.map_eq_some_iff.mp hget.symm
  injection heq with hop hinputs hshape
  exact ⟨i, hi, hop, hinputs, hshape⟩

theorem mem_of_map_bare (h : js.map bare = is.map bare) (hj : j ∈ js) :
    ∃ i ∈ is, i.op = j.op ∧ i.inputs = j.inputs ∧ i.shape = j.shape := by
  obtain ⟨k, hk⟩ := List.mem_iff_getElem?.mp hj
  obtain ⟨i, hi, hsame⟩ := exists_of_map_bare h hk
  exact ⟨i, List.mem_of_getElem? hi, hsame⟩

theorem Fed.congr (hf : Fed is) (h : js.map bare = is.map bare) : Fed js := by
  intro j hj r hr
  obtain ⟨i, hi, hop, hinputs, -⟩ := mem_of_map_bare h hj
  obtain ⟨i', hi', hstarts⟩ := hf i hi r (hinputs ▸ hr)
  obtain ⟨j', hj', hop', -, -⟩ := exists_of_map_bare h.symm hi'
  exact ⟨j', hj', fun htrue => hop ▸ hstarts (hop' ▸ htrue)⟩

theorem Fits.congr (hf : Fits is) (h : js.map bare = is.map bare) : Fits js := by
  intro j hj
  obtain ⟨i, hi, hop, hinputs, hshape⟩ := mem_of_map_bare h hj
  rw [← hshape, ← hop, ← hinputs, ← shapesAt_map_bare, h, shapesAt_map_bare]
  exact hf i hi

/-- A program that was compiled is what the passes made of the source, up to kernels. -/
theorem exists_lowered {t : Target} (h : p.compile t w = .value q w') :
    ∃ lowered, Lowers t.passes p lowered ∧
      q.instructions.map bare = lowered.instructions.map bare := by
  obtain ⟨-, -, lowered, hlower, hrebound⟩ := compile_eq_value h
  exact ⟨lowered, hlower, hrebound.bare_eq⟩

/-! ## Programs on a device -/

/-- What compiling for a device makes sure of, besides what it does for every target. -/
theorem fed_of_compile (hb : Built p) (h : p.compile (.device id offload) w = .value q w') :
    Fed q.instructions ∧
      (∀ j, q.last? = some j → startsOnHost j.op = false ∧ (offload = true → j.op = .deviceToHost)) ∧
      ((∀ i ∈ p.instructions, i.op.isTransfer = false) → ∀ k j, q.instructions[k]? = some j →
        j.op = .deviceToHost → offload = true ∧ k + 1 = q.instructions.length) := by
  obtain ⟨lowered, hlower, hbare⟩ := exists_lowered h
  obtain ⟨-, hfed, hlast, honly⟩ := lowered_device hb.unbound.wellFormed.consistent
    hb.unbound.target hlower
  have hlen : q.instructions.length = lowered.instructions.length := by
    have heq := congrArg List.length hbare
    rwa [List.length_map, List.length_map] at heq
  refine ⟨hfed.congr hbare, fun j hj => ?_, fun hfree k j hj hop => ?_⟩
  · rw [last?, List.getLast?_eq_getElem?] at hj
    obtain ⟨i, hi, hop, -, -⟩ := exists_of_map_bare hbare hj
    rw [hlen, ← List.getLast?_eq_getElem?] at hi
    rw [← hop]
    exact hlast i hi
  · obtain ⟨i, hi, hop', -, -⟩ := exists_of_map_bare hbare hj
    rw [hlen]
    exact honly hfree k i hi (hop'.trans hop)

/-- A constant on the device is the tensor that its transfer means. -/
theorem Ready.pinned (hq : Ready (.device id offload) q) (hpinned : Pinned pins q.instructions)
    {env : String → Option View} (hviews : meanings env q.instructions = some views)
    (hrecorded : Recorded q.instructions views) (hi : q.instructions[k]? = some i)
    (hop : i.op = .hostToDevice) {b : DeviceBuffer} {v : View}
    (hk : i.kernel = some (.resident ⟨i.shape, some (.device b)⟩)) (hv : views[k]? = some v) :
    ⟨b, i.shape, v⟩ ∈ pins := by
  obtain ⟨_, inputs, v', -, -, hinputs, -, hd, hv', -⟩ := hq.instruction hviews hrecorded hi
  rw [hv] at hv'
  cases hv'
  have hp : i.isParameter = false := congrArg Operator.isParameter hop
  obtain ⟨c, hc, hserves⟩ := hq.kernels i (List.mem_of_getElem? hi) hp
  rw [hk] at hc
  cases hc
  obtain _ | ⟨-, hin, hj, hlit, hshape, -⟩ := assigned_of_serves hq.consistent hi hp hserves
  rename_i r j l
  have hvu : v = View.ofBytes l.shape l.shape.dtype.size l.bytes := by
    obtain ⟨_, _, u, -, hinfers', -, hshaped, hdj, hu, -⟩ := hq.instruction hviews hrecorded hj
    rw [hin, mapM_eq_some] at hinputs
    obtain _ | ⟨hu', _ | _⟩ := hinputs
    rw [hu] at hu'
    cases hu'
    rw [Instruction.denote_of_not_isParameter (congrArg Operator.isParameter hop), hop] at hd
    rw [Instruction.denote_of_not_isParameter (by rw [Instruction.isParameter, hlit]; rfl),
      hlit] at hdj
    rw [hlit] at hinfers'
    generalize j.shape = s at hinfers' hdj
    cases hinfers'
    obtain _ | _ := hshaped
    rw [← Option.some.inj hd]
    exact (Option.some.inj hdj).symm
  rw [← hshape] at hk ⊢
  rw [hvu]
  exact hpinned i (List.mem_of_getElem? hi) r j l b hin hj hlit hk

/-- What a program on a device is sure of, when its arguments are on the host. -/
theorem Ready.deployed (hq : Ready (.device id offload) q) (hfed : Fed q.instructions)
    (hstays : StaysOnDevice q.instructions) (hpinned : Pinned pins q.instructions)
    (hhost : HostParameters params) (hcheck : checkParameters params q.parameters = .value ())
    (hviews : meanings (environment params) q.instructions = some views)
    (hrecorded : Recorded q.instructions views)
    (hroom : fits → Fits q.instructions ∧ Roomy next q.instructions) :
    Deployed fits id offload params views pins q where
  ready := hq
  fed := hfed
  stays := hstays
  recorded := hrecorded
  denoted k i inputs v hi hinputs hv hp _ := by
    obtain ⟨_, inputs', v', -, -, hinputs', -, hd, hv', -⟩ := hq.instruction hviews hrecorded hi
    rw [hinputs] at hinputs'
    rw [hv] at hv'
    cases hinputs'
    cases hv'
    rwa [Instruction.denote_of_not_isParameter hp] at hd
  pinned _ _ _ _ hi hop hk hv := hq.pinned hpinned hviews hrecorded hi hop hk hv
  supplied k i name s v hi hop hv := by
    obtain ⟨_, _, v', -, hinfers, -, -, hd, hv', -⟩ := hq.instruction hviews hrecorded hi
    have hmem := List.mem_of_getElem? hi
    obtain rfl : i.shape = s := by
      rw [hop] at hinfers
      cases hinfers
      rfl
    rw [hv] at hv'
    cases hv'
    obtain ⟨a, v', ha, henv, hstores⟩ := exists_argument hhost hcheck
      (hq.parameters name i.shape (mem_declared.mpr ⟨i, hmem, hop⟩)) (hq.populated i hmem)
    rw [Instruction.denote_of_parameter hop, henv] at hd
    cases hd
    exact ⟨a, ha, Or.inl hstores⟩
  fits hf := ⟨(hroom hf).1, (hroom hf).2.2⟩

/-- A program that is ready for a device evaluates to what it denotes. -/
theorem Ready.run_device_ends {v : View} (hq : Ready (.device id offload) q)
    (hfed : Fed q.instructions) (hstays : StaysOnDevice q.instructions)
    (hpinned : Pinned pins q.instructions) (hhost : HostParameters params)
    (hcheck : checkParameters params q.parameters = .value ())
    (hsupplies : Supplies (environment params) q)
    (hv : q.meaning (environment params) = some v) (hw : w.Loaded fits id next pins)
    (hroom : fits → Fits q.instructions ∧ Roomy next q.instructions) :
    (q.run params w).Ends fits fun a w' => ∃ i, q.last? = some i ∧
      Located id q.instructions (q.size - 1) i v a ∧
      (a.location = some .device →
        (World.toHost a w').Ends fits fun b _ => b.Stores i.shape v) := by
  obtain ⟨views, hviews, hrecorded⟩ := hq.consistent.exists_meanings
    fun name s hmem => hsupplies name s (hq.parameters name s hmem)
  obtain ⟨views', hviews', hlast⟩ := meaning_eq_some.mp hv
  rw [hviews] at hviews'
  cases hviews'
  have hne := ne_nil_of_meanings hviews hlast
  have hdeployed := hq.deployed hfed hstays hpinned hhost hcheck hviews hrecorded hroom
  refine (hdeployed.run_ends hne hcheck hw fun hf => (hroom hf).2.1).mono ?_
  rintro a w' ⟨i, v', hi, hv', hlocated, htoHost⟩
  rw [hlast] at hv'
  cases hv'
  exact ⟨i, hi, hlocated, htoHost⟩

/-! ## Parity -/

theorem not_fetched {r : Nat}
    (h : ∀ (k : Nat) (i : Instruction), is[k]? = some i → i.op ≠ .deviceToHost) :
    ¬Fetched is r := by
  intro hfetched
  induction hfetched with
  | transfer hi hop => exact h _ _ hi hop
  | view _ _ _ _ ih => exact ih

/-- A program without transfers gives its output on the host if that was asked for, and on the
device otherwise. -/
theorem Located.of_compile {v : View} {a : Argument} (hb : Built p)
    (hfree : ∀ i ∈ p.instructions, i.op.isTransfer = false)
    (h : p.compile (.device id offload) w = .value q w') (hi : q.last? = some i)
    (ha : Located id q.instructions (q.size - 1) i v a) :
    if offload then a.Stores i.shape v else ∃ b, a = ⟨i.shape, some (.device b)⟩ ∧ b.device = id := by
  obtain ⟨-, hlast, honly⟩ := fed_of_compile hb h
  obtain ⟨hstarts, hop⟩ := hlast i hi
  have hget : q.instructions[q.size - 1]? = some i := by
    rw [last?, List.getLast?_eq_getElem?] at hi
    exact hi
  split
  next hoffload =>
    have hfetched : Fetched q.instructions (q.size - 1) := .transfer hget (hop hoffload)
    rcases ha with ⟨hstores, -⟩ | ⟨b, -, hstarts' | ⟨hnot, -⟩⟩
    · exact hstores
    · rw [hstarts] at hstarts'
      cases hstarts'
    · exact absurd hfetched hnot
  next hoffload =>
    have hnot : ¬Fetched q.instructions (q.size - 1) := not_fetched fun k j hj hop =>
      hoffload (honly hfree k j hj hop).1
    rcases ha with ⟨-, hstarts' | hfetched⟩ | ⟨b, rfl, hstarts' | ⟨-, hid⟩⟩
    · rw [hstarts] at hstarts'
      cases hstarts'
    · exact absurd hfetched hnot
    · rw [hstarts] at hstarts'
      cases hstarts'
    · exact ⟨b, rfl, hid⟩

end Program

namespace Argument

/-- Whether an argument is on the host and has a shape and elements. -/
def Reads (a : Argument) (s : Shape) (elements : List Nat) : Prop :=
  a.shape = s ∧ a.location = some .host ∧ a.elementsAs s.dtype = .value elements

theorem Stores.reads {a : Argument} {s : Shape} {v : View} (h : a.Stores s v)
    (hs : s.Addressable) (hlist : s.Listable) : a.Reads s v.elements := by
  have hends : (a.elementsAs s.dtype).Ends True (· = v.elements) :=
    h.elementsAs_ends (fun _ => hs) fun _ => hlist
  obtain ⟨_, helements, rfl⟩ := hends.eq_value_of_fits trivial
  obtain ⟨hshape, b, hb, -⟩ := h
  refine ⟨hshape, ?_, helements⟩
  rw [location, hb]
  rfl

end Argument

namespace Program

variable {p q : Program} {w w' w₀ w₀' : World} {id : DeviceId} {d : Device} {offload : Bool}
variable {params : Parameters}

/-- A program without transfers that compiles for a device compiles for the host. -/
theorem exists_compile_host (hb : Built p) (hfree : ∀ i ∈ p.instructions, i.op.isTransfer = false)
    (h : p.compile (.device id offload) w = .value q w') (w₀ : World) :
    ∃ q₀ w₀', p.compile .host w₀ = .value q₀ w₀' := by
  obtain ⟨lowered, hlower, -⟩ := exists_lowered h
  obtain ⟨lowered₀, hlower₀⟩ := (exists_lowers_iff hb.unbound.wellFormed.consistent
    hb.unbound.target id offload).mp ⟨lowered, hlower⟩
  have hends : (p.compile .host w₀).Ends True fun _ _ => True :=
    compile_host_ends hb hfree hlower₀ w₀
  obtain ⟨q₀, w₀', hvalue, -⟩ := hends.exists_value_of_fits trivial
  exact ⟨q₀, w₀', hvalue⟩

/-- Where there is room, compiling for a device goes through once the passes do, and the device
keeps the constants. -/
theorem Room.compile_ends {lowered : Program} (hroom : p.Room id offload d.next) (hb : Built p)
    (hp : ∀ i ∈ p.instructions, i.shape.Populated) (hd : w.devices[id]? = some d)
    (hhealthy : d.Healthy) (hunlimited : d.Unlimited)
    (hlower : Lowers (Target.device id offload).passes p lowered) :
    (p.compile (.device id offload) w).Ends True fun q w' => ∃ next pins,
      w'.Loaded True id next pins ∧ Pinned pins q.instructions ∧
        (True → Roomy next q.instructions) := by
  obtain ⟨hfits, hroomy⟩ := hroom.2.1 lowered hlower
  exact compile_device_ends hb hp hlower (fun _ i hi => (hfits i hi).1) (fun _ => hroomy)
    (World.loaded_nil hd hhealthy hunlimited)

/-- What a device evaluates a program without transfers to. -/
theorem run_device_reads {v : View} (hb : Built p)
    (hfree : ∀ i ∈ p.instructions, i.op.isTransfer = false)
    (hp : ∀ i ∈ p.instructions, i.shape.Populated) (hd : w.devices[id]? = some d)
    (hhealthy : d.Healthy) (hunlimited : d.Unlimited) (hroom : p.Room id offload d.next)
    (hcompile : p.compile (.device id offload) w = .value q w') (hhost : HostParameters params)
    (hcheck : checkParameters params p.parameters = .value ())
    (hsupplies : Supplies (environment params) p)
    (hv : p.meaning (environment params) = some v) :
    ∃ s, p.last?.map Instruction.shape = some s ∧
      ∃ a end₁, q.run params w' = .value a end₁ ∧ if offload then a.Reads s v.elements else
        (∃ b, a = ⟨s, some (.device b)⟩ ∧ b.device = id) ∧
        ∃ c end₂, World.toHost a end₁ = .value c end₂ ∧ c.Reads s v.elements := by
  obtain ⟨hready, hparams, hshape, hdenotes⟩ :=
    ready_of_compile hb hp (Or.inr ⟨id, offload, rfl⟩) hcompile
  obtain ⟨lowered, hlower, hbare⟩ := exists_lowered hcompile
  have hfits : Fits q.instructions := (hroom.2.1 lowered hlower).1.congr hbare
  obtain ⟨next, pins, hloaded, hpinned, hroomy⟩ :=
    (hroom.compile_ends hb hp hd hhealthy hunlimited hlower).of_value hcompile
  obtain ⟨hfed, -, honly⟩ := fed_of_compile hb hcompile
  have hstays : StaysOnDevice q.instructions :=
    staysOnDevice_of_last hready.consistent fun k i hi hop => (honly hfree k i hi hop).2
  rw [← hparams] at hcheck
  have hends := hready.run_device_ends hfed hstays hpinned hhost hcheck
    (fun name s hmem => hsupplies name s (hparams ▸ hmem)) (hdenotes _ v hv) hloaded
    fun hf => ⟨hfits, hroomy hf⟩
  obtain ⟨a, end₁, hrun, i, hi, hlocated, htoHost⟩ := hends.exists_value_of_fits trivial
  have haddr : i.shape.Addressable := (hfits i (List.mem_of_getLast? hi)).1
  have hplace := hlocated.of_compile hb hfree hcompile hi
  have hlast : p.last?.map Instruction.shape = some i.shape := by
    rw [← hshape, hi]
    rfl
  have hlist := hroom.2.2 _ hlast
  refine ⟨i.shape, hlast, a, end₁, hrun, ?_⟩
  cases offload with
  | true => exact hplace.reads haddr hlist
  | false =>
    obtain ⟨b, rfl, hid⟩ := hplace
    obtain ⟨c, end₂, hvalue, hstores⟩ := (htoHost rfl).exists_value_of_fits trivial
    exact ⟨⟨b, rfl, hid⟩, c, end₂, hvalue, hstores.reads haddr hlist⟩

/-- The host and a device without limits agree on every program that has no transfers of its own.
It compiles for both or for neither, and the two evaluations give the same shape and elements; the
device gives them on the host if that was asked for, and keeps them otherwise. -/
theorem device_parity (hb : Built p) (hne : p.instructions ≠ [])
    (hfree : ∀ i ∈ p.instructions, i.op.isTransfer = false)
    (hp : ∀ i ∈ p.instructions, i.shape.Populated) (hd : w.devices[id]? = some d)
    (hhealthy : d.Healthy) (hunlimited : d.Unlimited) (w₀ : World) :
    ((∃ q w', p.compile (.device id offload) w = .value q w') →
      ∃ q₀ w₀', p.compile .host w₀ = .value q₀ w₀') ∧
    (p.Room id offload d.next →
      ((∃ q₀ w₀', p.compile .host w₀ = .value q₀ w₀') →
        ∃ q w', p.compile (.device id offload) w = .value q w') ∧
      ∀ q₀ w₀' q w', p.compile .host w₀ = .value q₀ w₀' →
        p.compile (.device id offload) w = .value q w' →
        ∀ params start, HostParameters params →
          checkParameters params p.parameters = .value () →
          ∃ s elements, p.last?.map Instruction.shape = some s ∧
            (∃ a end₀, q₀.run params start = .value a end₀ ∧ a.Reads s elements) ∧
            ∃ a end₁, q.run params w' = .value a end₁ ∧ if offload then a.Reads s elements else
              (∃ b, a = ⟨s, some (.device b)⟩ ∧ b.device = id) ∧
              ∃ c end₂, World.toHost a end₁ = .value c end₂ ∧ c.Reads s elements) := by
  have hwell := hb.unbound.wellFormed
  refine ⟨fun ⟨q, w', hcompile⟩ => exists_compile_host hb hfree hcompile w₀,
    fun hroom => ⟨?_, ?_⟩⟩
  · rintro ⟨q₀, w₀', hcompile₀⟩
    obtain ⟨lowered₀, hlower₀, -⟩ := exists_lowered hcompile₀
    obtain ⟨lowered, hlower⟩ := (exists_lowers_iff hwell.consistent hb.unbound.target id
      offload).mpr ⟨lowered₀, hlower₀⟩
    obtain ⟨q, w', hvalue, -⟩ := (hroom.compile_ends hb hp hd hhealthy hunlimited
      hlower).exists_value_of_fits trivial
    exact ⟨q, w', hvalue⟩
  · intro q₀ w₀' q w' hcompile₀ hcompile params start hhost hcheck
    have hsupplies : Supplies (environment params) p :=
      supplies_of_checkParameters hhost hcheck fun _ _ hmem => hwell.populated hp hmem
    obtain ⟨v, -, hv, -, -⟩ := hwell.exists_meaning hsupplies hne
    obtain ⟨s, hs, hdevice⟩ := run_device_reads hb hfree hp hd hhealthy hunlimited hroom hcompile
      hhost hcheck hsupplies hv
    obtain ⟨hready₀, hparams₀, hshape₀, hdenotes₀⟩ :=
      ready_of_compile hb hp (Or.inl rfl) hcompile₀
    obtain ⟨lowered₀, hlower₀, hbare₀⟩ := exists_lowered hcompile₀
    have hfits₀ : Fits q₀.instructions := (hroom.1 lowered₀ hlower₀).congr hbare₀
    rw [← hparams₀] at hcheck
    obtain ⟨a, end₀, hrun₀, i, hi, hlast, hstores⟩ := (hready₀.run_host_ends hhost hcheck
      (fun name s hmem => hsupplies name s (hparams₀ ▸ hmem)) (hdenotes₀ _ v hv)
      start).exists_value_of_fits hfits₀
    have hlist := hroom.2.2 s hs
    obtain rfl : i.shape = s := by
      rw [← hshape₀, hlast] at hs
      exact Option.some.inj hs
    exact ⟨i.shape, v.elements, hs, ⟨a, end₀, hrun₀, hstores.reads (hfits₀ i hi).1 hlist⟩, hdevice⟩

theorem healthy_empty : Device.Healthy {} := ⟨⟨none, [], .refl⟩, rfl, _, rfl⟩

/-- There is room for what passes come to if there is room for what they come to once. -/
theorem room_of_lower {lowered₀ lowered : Program} {w₁ : World} {next : Nat}
    (h₀ : lower .host p Target.host.passes w₀ = .value lowered₀ w₀')
    (h : lower (.device id offload) p (Target.device id offload).passes w = .value lowered w₁)
    (hfits₀ : Fits lowered₀.instructions) (hfits : Fits lowered.instructions)
    (hroomy : Roomy next lowered.instructions)
    (hlist : ∀ s, p.last?.map Instruction.shape = some s → s.Listable) :
    p.Room id offload next := by
  refine ⟨fun q hq => ?_, fun q hq => ?_, hlist⟩
  · rw [hq.unique (lower_eq_value h₀)]
    exact hfits₀
  · rw [hq.unique (lower_eq_value h)]
    exact ⟨hfits, hroomy⟩

/-- A device that keeps its output, beside the host. -/
theorem device_parity_twiceTransposed : ∃ q₀ w₀ q w s elements,
    twiceTransposed.compile .host {} = .value q₀ w₀ ∧
    twiceTransposed.compile (.device 0 false) { devices := [{}] } = .value q w ∧
    (∃ a end₀, q₀.run [("x", oneToSix)] w₀ = .value a end₀ ∧ a.Reads s elements) ∧
    ∃ a end₁ c end₂, q.run [("x", oneToSix)] w = .value a end₁ ∧
      World.toHost a end₁ = .value c end₂ ∧ c.Reads s elements := by
  obtain ⟨q, w, hq, -⟩ := Turn.exists_of_passes
    (show (twiceTransposed.compile (.device 0 false) { devices := [{}] }).passes
      (fun _ _ => true) = true by decide +kernel)
  obtain ⟨lowered₀, _, h₀, hfits₀⟩ := Turn.exists_of_passes
    (show (lower .host twiceTransposed Target.host.passes {}).passes
      (fun q _ => q.instructions.all fitsAlone) = true by decide +kernel)
  obtain ⟨lowered, _, h, htest⟩ := Turn.exists_of_passes
    (show (lower (.device 0 false) twiceTransposed (Target.device 0 false).passes
      { devices := [{}] }).passes
        (fun q _ => q.instructions.all fitsAlone && decide (Roomy 4096 q.instructions)) = true
      by decide +kernel)
  rw [Bool.and_eq_true, decide_eq_true_iff] at htest
  have hlist : matrix.Listable := by decide
  have hroom : twiceTransposed.Room 0 false 4096 :=
    room_of_lower h₀ h (fits_of_all hfits₀) (fits_of_all htest.1) htest.2 fun s hs =>
      (Option.some.inj hs : matrix = s) ▸ hlist
  obtain ⟨hdevice, hboth⟩ := @device_parity _ { devices := [{}] } 0 {} false
    built_twiceTransposed (List.cons_ne_nil _ _) (by decide) populated_twiceTransposed rfl
    healthy_empty ⟨rfl, rfl⟩ {}
  obtain ⟨q₀, w₀, hq₀⟩ := hdevice ⟨q, w, hq⟩
  obtain ⟨s, elements, -, hhost, a, end₁, hrun, -, c, end₂, hc, hreads⟩ := (hboth hroom).2 q₀ w₀ q w
    hq₀ hq [("x", oneToSix)] w₀ hostParameters_oneToSix rfl
  exact ⟨q₀, w₀, q, w, s, elements, hq₀, hq, hhost, a, end₁, c, end₂, hrun, hc, hreads⟩

end Program
end TensorGraph
