/-
Where the output of a program that was compiled for a device is.

Compiling without transfers in the source puts the output where the target says: the pass
brings it back last, or nothing is brought back and every value that does not start on the
host is a buffer of that device.  A constant that is added later is bound to a kernel that
gives it as it is, on the host, and becomes the output.  So the target's setting decides just
as long as no constant was added, or if it asks for the host anyway: `run_location`.
-/
import TensorGraph.Proofs.Ownership.Evaluate
import TensorGraph.Proofs.Program.Residence

namespace TensorGraph
namespace Program

variable {p q r : Program} {w w' v v' : World} {params : Parameters} {is : List Instruction}
variable {i j : Instruction} {k n : Nat} {a : Argument} {args : List Argument} {values : Values}
variable {id : DeviceId} {offload : Bool}

/-! ## Constants added to a compiled program -/

/-- The programs that a program becomes by a number of calls that add a constant. -/
inductive WithLiterals (q : Program) : Nat → Program → Prop
  | none : WithLiterals q 0 q
  | add {n : Nat} {r r' : Program} {l : Literal} {position : Nat} {w w' : World} :
      WithLiterals q n r → r.addLiteral l w = .value (r', position) w' → WithLiterals q (n + 1) r'

/-- Each call adds one bound constant. -/
theorem WithLiterals.grown (h : WithLiterals q n r) (hq : Sound q)
    (ht : q.target = some (.device id offload)) :
    Sound r ∧ r.target = some (.device id offload) ∧
      ∃ added, r.instructions = q.instructions ++ added ∧ added.length = n ∧
        ∀ i ∈ added, i.BoundLiteral (.device id offload) := by
  induction h with
  | none => exact ⟨hq, ht, [], (List.append_nil _).symm, rfl, fun _ hi => nomatch hi⟩
  | @add n r r' l position w w' _ hadd ih =>
    obtain ⟨hsound, htarget, added, his, hlen, hbound⟩ := ih
    obtain ⟨c, hc, hvalue⟩ := addLiteral_of_compiled htarget (Or.inr ⟨id, offload, rfl⟩) l w
    have hsound' : Sound r' := hsound.addLiteral hadd
    rw [hvalue] at hadd
    cases hadd
    refine ⟨hsound', htarget, added ++ [⟨.literal l, [], l.shape, some c⟩], ?_, ?_, ?_⟩
    · rw [his, List.append_assoc]
    · rw [List.length_append, hlen]
      rfl
    · rw [List.forall_mem_append, List.forall_mem_singleton]
      exact ⟨hbound, hc⟩

/-! ## Where values are -/

/-- Whether every instruction reads values of the device, or moves them there. -/
def ReadsDevice (is : List Instruction) : Prop :=
  ∀ i ∈ is, ∀ s ∈ i.inputs, ∃ j, is[s]? = some j ∧ j.op ≠ .deviceToHost ∧
    (startsOnHost j.op = true → i.op = .hostToDevice)

/-- Whether the value at a position is where its instruction puts it: constants and what is
brought back are on the host, and what does not start on the host is on the device. -/
def Placed (id : DeviceId) (is : List Instruction) (k : Nat) (a : Argument) : Prop :=
  ∀ i, is[k]? = some i →
    ((∃ l, i.op = .literal l) ∨ i.op = .deviceToHost → a.location = some .host) ∧
    (startsOnHost i.op = false → i.op ≠ .deviceToHost →
      ∃ b, a.storage = some (.device b) ∧ b.device = id)

/-- A launch gives a buffer of its device. -/
theorem device_of_launch {op : Operator} {s : Shape}
    (h : (BoundKernel.launch op id).compute s args w = .value a w') :
    ∃ b, a.storage = some (.device b) ∧ b.device = id := by
  obtain ⟨size, b, w₁, operands, target, -, hb, hmake, -⟩ := BoundKernel.launch_eq_value h
  exact ⟨b, by rw [Argument.shape_of_make hmake], World.device_of_allocate hb⟩

theorem storage_of_withShape {a a' : Argument} {s : Shape} (h : a.withShape s = .value a') :
    a'.storage = a.storage := by
  unfold Argument.withShape at h
  cases hst : a.storage with
  | none =>
    rw [hst] at h
    cases h
    rfl
  | some st =>
    rw [hst] at h
    rw [Argument.shape_of_make h]

/-- A view keeps the storage of what it reads. -/
theorem storage_of_view {name : String} {b : Argument} {s : Shape}
    (h : (BoundKernel.view name).compute s (b :: args) w = .value a w') :
    a.storage = b.storage :=
  storage_of_withShape (BoundKernel.view_eq_value h).1

theorem device_of_moved {c : BoundKernel} {t : Shape}
    (hc : (∃ b, c = .resident b ∧ ∃ b', b.storage = some (.device b') ∧ b'.device = id) ∨
      c = .upload id)
    (h : c.compute t args w = .value a w') :
    ∃ b, a.storage = some (.device b) ∧ b.device = id := by
  rcases hc with ⟨b, rfl, hb⟩ | rfl
  · obtain ⟨rfl, -⟩ := BoundKernel.resident_eq_value h
    exact hb
  · cases args with
    | nil => cases h
    | cons b args =>
      obtain ⟨b', rfl, hb'⟩ := World.toDevice_eq_value h
      exact ⟨b', rfl, hb'⟩

/-- One instruction puts its value where it belongs, if it reads values that are. -/
theorem placed_of_instructionValue (hq : Sound q) (ht : q.target = some (.device id offload))
    (hreads : ReadsDevice q.instructions) (hi : q.instructions[k]? = some i)
    (hkept : EveryAt (Placed id q.instructions) values)
    (hvalue : instructionValue params k i values w = .value a w') :
    Placed id q.instructions k a := by
  intro i' hi'
  rw [hi] at hi'
  cases hi'
  by_cases hp : i.isParameter = true
  · obtain ⟨name, s, hop⟩ := exists_parameter hp
    rw [hop]
    exact ⟨fun h => by simp at h, fun h => by cases h⟩
  rw [Bool.not_eq_true] at hp
  have himem : i ∈ q.instructions := List.mem_of_getElem? hi
  obtain ⟨c, hc, hserves⟩ := (hq.bound _ ht).2 i himem hp
  obtain ⟨args, hargs, hcompute⟩ := (instructionValue_eq_value hp hc).mp hvalue
  have hin := inputValues_eq_some hargs
  cases assigned_of_serves hq.wellFormed.consistent hi hp hserves with
  | launch hcomp =>
    refine ⟨fun h => ?_, fun _ _ => device_of_launch hcompute⟩
    rcases h with ⟨l, hop⟩ | hop <;> rw [hop] at hcomp <;> cases hcomp
  | view hview =>
    -- what a view reads neither starts on the host nor was brought back there
    obtain ⟨shapes, hshapes, hinfers⟩ := hq.wellFormed.consistent.infers hi
    obtain ⟨t, rfl⟩ := exists_of_isView hinfers hview
    obtain ⟨s, j, hin', hj, -⟩ := inputs_eq_singleton hshapes
    rw [hin'] at hin
    obtain _ | ⟨hb, _ | _⟩ := hin
    obtain ⟨j', hj', hback, hstarts⟩ := hreads i himem s (by rw [hin']; exact List.mem_cons_self)
    rw [hj] at hj'
    cases hj'
    have hnot : startsOnHost j.op = false := by
      by_contra htrue
      rw [Bool.not_eq_false] at htrue
      rw [hstarts htrue] at hview
      cases hview
    refine ⟨fun h => ?_, fun _ _ => ?_⟩
    · rcases h with ⟨l, hop⟩ | hop <;> rw [hop] at hview <;> cases hview
    · rw [storage_of_view hcompute]
      exact (hkept s _ hb j hj).2 hnot hback
  | literal hop =>
    rw [hop]
    cases hcompute
    exact ⟨fun _ => rfl, fun h => by cases h⟩
  | @resident _ _ _ b hop _ _ _ _ hb =>
    rw [hop]
    exact ⟨fun h => by simp at h, fun _ _ => device_of_moved (Or.inl ⟨_, rfl, b, rfl, hb⟩) hcompute⟩
  | upload hop =>
    rw [hop]
    exact ⟨fun h => by simp at h, fun _ _ => device_of_moved (Or.inr rfl) hcompute⟩
  | download hop =>
    rw [hop]
    cases args with
    | nil => cases hcompute
    | cons b args =>
      obtain ⟨b', rfl⟩ := World.toHost_eq_value hcompute
      exact ⟨fun _ => rfl, fun _ h => absurd rfl h⟩

/-! ## The output -/

/-- What compiling a program without transfers makes of what is read, and of the output. -/
theorem readsDevice_of_compile (hb : Built p)
    (hfree : ∀ i ∈ p.instructions, i.op.isTransfer = false)
    (h : p.compile (.device id offload) w = .value q w') :
    ReadsDevice q.instructions ∧ ∀ j, q.last? = some j → startsOnHost j.op = false ∧
      (j.op = .deviceToHost ↔ offload = true) := by
  obtain ⟨hfed, hlast, honly⟩ := fed_of_compile hb h
  have hsound : Sound q := hb.reached.sound.compile (Or.inr ⟨id, offload, rfl⟩) h
  constructor
  · intro i hi s hs
    obtain ⟨j, hj, hstarts⟩ := hfed i hi s hs
    refine ⟨j, hj, fun hback => ?_, hstarts⟩
    obtain ⟨k, hk⟩ := List.mem_iff_getElem?.mp hi
    have hlt : s < k := hsound.wellFormed.consistent.inputs_lt hk s hs
    have hk' : k < q.instructions.length := (List.getElem?_eq_some_iff.mp hk).1
    have hend : s + 1 = q.instructions.length := (honly hfree s j hj hback).2
    omega
  · intro j hj
    obtain ⟨hstarts, hback⟩ := hlast j hj
    refine ⟨hstarts, fun hop => ?_, hback⟩
    rw [last?, List.getLast?_eq_getElem?] at hj
    exact (honly hfree _ j hj hop).1

theorem ReadsDevice.append {t : Target} (h : ReadsDevice is) {added : List Instruction}
    (hadded : ∀ i ∈ added, i.BoundLiteral t) : ReadsDevice (is ++ added) := by
  intro i hi s hs
  rcases List.mem_append.mp hi with hi | hi
  · obtain ⟨j, hj, hrest⟩ := h i hi s hs
    exact ⟨j, getElem?_append_of_some hj added, hrest⟩
  · obtain ⟨l, c, rfl, -⟩ := hadded i hi
    cases hs

/-- A buffer that the result of a run holds is allocated on its device afterwards, if the
buffers that the program and the arguments refer to were before. -/
theorem allocated_of_run (hv : v.Accounted) (hresidents : r.residents ⊆ v.held)
    (hargs : ∀ name c, params.lookup name = some c → c.holds ⊆ v.held)
    (hrun : r.run params v = .value a v') {b : DeviceBuffer} (hb : a.storage = some (.device b)) :
    ∃ d, v'.devices[b.device]? = some d ∧ (b.address, b.size) ∈ d.memory.layout := by
  have hconserves : World.Conserves Argument.holds v.held (r.run params v) :=
    run_conserves ⟨hv, List.Perm.refl v.held⟩ hargs hresidents
  rw [hrun] at hconserves
  obtain ⟨haccounted, hperm⟩ := hconserves
  have hholds : b ∈ a.holds := by
    rw [Argument.holds, Argument.deviceBuffer?, hb]
    exact List.mem_singleton.mpr rfl
  have hheld : b ∈ v'.held := hperm.mem_iff.mpr (List.mem_append_left _ hholds)
  exact (haccounted.held_iff b).mp hheld

/-- A program that has a value has a last instruction. -/
theorem exists_last_of_run (ht : r.target = some (.device id offload))
    (hrun : r.run params v = .value a v') : ∃ j, r.last? = some j := by
  cases hj : r.last? with
  | some j => exact ⟨j, rfl⟩
  | none =>
    rw [last?, List.getLast?_eq_none_iff] at hj
    unfold run at hrun
    rw [isCompiled, ht] at hrun
    obtain ⟨_, _, -, hrun⟩ := Action.bind_eq_value.mp hrun
    rw [output?, hj] at hrun
    cases hrun

/-- The output is where the target says exactly if it says the host or no constant was added
to the compiled program.  A constant that was added is the output, and it is on the host.
Otherwise an output that is left on the device is allocated there. -/
theorem run_location (hb : Built p) (hfree : ∀ i ∈ p.instructions, i.op.isTransfer = false)
    (hcompile : p.compile (.device id offload) w = .value q w') (hadd : WithLiterals q n r)
    (hrun : r.run params v = .value a v') :
    (a.location = some (if offload then .host else .device) ↔ offload = true ∨ n = 0) ∧
    (0 < n → a.location = some .host) ∧
    (offload = false → n = 0 → ∃ b, a.storage = some (.device b) ∧ b.device = id ∧
      (v.Accounted → r.residents ⊆ v.held →
        (∀ name c, params.lookup name = some c → c.holds ⊆ v.held) →
        ∃ d, v'.devices[id]? = some d ∧ (b.address, b.size) ∈ d.memory.layout)) := by
  have hsound : Sound q := hb.reached.sound.compile (Or.inr ⟨id, offload, rfl⟩) hcompile
  have htarget : q.target = some (.device id offload) := (compile_eq_value hcompile).2.1
  obtain ⟨hreads, hlast⟩ := readsDevice_of_compile hb hfree hcompile
  obtain ⟨hsound', htarget', added, his, hlen, hbound⟩ := hadd.grown hsound htarget
  have hreads' : ReadsDevice r.instructions := by
    rw [his]
    exact hreads.append hbound
  have hplaced : Placed id r.instructions (r.size - 1) a :=
    everyAt_of_run (fun k i hi values w a w' hkept hvalue =>
      placed_of_instructionValue hsound' htarget' hreads' hi hkept hvalue) hrun
  have hend : ∀ j, r.last? = some j → r.instructions[r.size - 1]? = some j := by
    intro j hj
    rwa [last?, List.getLast?_eq_getElem?] at hj
  have hlate : 0 < n → a.location = some .host := by
    intro hn
    have hne : added ≠ [] := List.length_pos_iff.mp (by omega)
    have hfinal : r.last? = some (added.getLast hne) := by
      rw [last?, his, List.getLast?_append_of_ne_nil _ hne, List.getLast?_eq_some_getLast hne]
    obtain ⟨l, c, heq, -⟩ := hbound _ (List.getLast_mem hne)
    exact (hplaced _ (hend _ hfinal)).1 (Or.inl ⟨l, by rw [heq]⟩)
  have hearly : n = 0 → ∃ j, r.instructions[r.size - 1]? = some j ∧ startsOnHost j.op = false ∧
      (j.op = .deviceToHost ↔ offload = true) := by
    intro hn
    have hnil : added = [] := List.length_eq_zero_iff.mp (by omega)
    rw [hnil, List.append_nil] at his
    obtain ⟨j, hj⟩ := exists_last_of_run htarget' hrun
    refine ⟨j, hend j hj, hlast j ?_⟩
    rw [last?, ← his]
    exact hj
  have hhost : offload = true → n = 0 → a.location = some .host := by
    intro ho hn
    obtain ⟨j, hj, -, hback⟩ := hearly hn
    exact (hplaced j hj).1 (Or.inr (hback.mpr ho))
  have hdevice : offload = false → n = 0 → ∃ b, a.storage = some (.device b) ∧ b.device = id := by
    intro ho hn
    obtain ⟨j, hj, hstarts, hback⟩ := hearly hn
    refine (hplaced j hj).2 hstarts fun hop => ?_
    rw [hback.mp hop] at ho
    cases ho
  refine ⟨?_, hlate, fun ho hn => ?_⟩
  · by_cases hn : n = 0
    · refine ⟨fun _ => Or.inr hn, fun _ => ?_⟩
      cases ho : offload with
      | true => exact hhost ho hn
      | false =>
        obtain ⟨b, hstorage, -⟩ := hdevice ho hn
        rw [Argument.location, hstorage]
        rfl
    · have hloc : a.location = some .host := hlate (by omega)
      rw [hloc, or_iff_left hn]
      cases offload with
      | true => exact ⟨fun _ => rfl, fun _ => rfl⟩
      | false => constructor <;> intro h <;> cases h
  · obtain ⟨b, hstorage, hid⟩ := hdevice ho hn
    refine ⟨b, hstorage, hid, fun hv hresidents hargs => ?_⟩
    rw [← hid]
    exact allocated_of_run hv hresidents hargs hrun hstorage

/-- Without further constants, a copy that a device makes stays there. -/
theorem run_location_twiceTransposed :
    (Built twiceTransposed ∧ ∀ i ∈ twiceTransposed.instructions, i.op.isTransfer = false) ∧
    ∃ q w a v', twiceTransposed.compile (.device 0 false) { devices := [{}] } = .value q w ∧
      WithLiterals q 0 q ∧ q.run [("x", oneToSix)] w = .value a v' ∧
      a.location = some .device ∧ ∃ b, a.storage = some (.device b) ∧ b.device = 0 := by
  have hfree : ∀ i ∈ twiceTransposed.instructions, i.op.isTransfer = false := by decide
  obtain ⟨q, w, hq, hruns⟩ := Turn.exists_of_passes
    (show (twiceTransposed.compile (.device 0 false) { devices := [{}] }).passes
      (fun q w => (q.run [("x", oneToSix)] w).passes fun _ _ => true) = true by decide +kernel)
  obtain ⟨a, v', ha, -⟩ := Turn.exists_of_passes hruns
  obtain ⟨hloc, -, hdevice⟩ := run_location built_twiceTransposed hfree hq .none ha
  obtain ⟨b, hstorage, hid, -⟩ := hdevice rfl rfl
  exact ⟨⟨built_twiceTransposed, hfree⟩, q, w, a, v', hq, .none, ha, hloc.mpr (Or.inr rfl),
    b, hstorage, hid⟩

/-- With a constant added, the output is on the host although it was to be left on the device. -/
theorem run_location_not_device :
    ¬∀ (p q r : Program) (w w' v v' : World) (n : Nat) (params : Parameters) (a : Argument),
      Built p → p.instructions ≠ [] → (∀ i ∈ p.instructions, i.op.isTransfer = false) →
      p.compile (.device 0 false) w = .value q w' → WithLiterals q n r →
      r.run params v = .value a v' → a.location = some .device := by
  intro h
  have hfree : ∀ i ∈ twiceTransposed.instructions, i.op.isTransfer = false := by decide
  obtain ⟨q, w, hq, hadds⟩ := Turn.exists_of_passes
    (show (twiceTransposed.compile (.device 0 false) { devices := [{}] }).passes
      (fun q w => (q.addLiteral zeros w).passes fun r w' =>
        (r.1.run [("x", oneToSix)] w').passes fun a _ => a.location == some .host) = true by
      decide +kernel)
  obtain ⟨⟨r, position⟩, w', hr, hruns⟩ := Turn.exists_of_passes hadds
  obtain ⟨a, v', ha, hhost⟩ := Turn.exists_of_passes hruns
  have hloc : a.location = some .device := h twiceTransposed q r _ w w' v' 1 _ a
    built_twiceTransposed (List.cons_ne_nil _ _) hfree hq (.add .none hr) ha
  rw [hloc] at hhost
  cases hhost

end Program
end TensorGraph
