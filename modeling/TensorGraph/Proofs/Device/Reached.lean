/-
Devices that calls lead to.

A device hands out addresses in increasing order, so on any device that calls have led to
from a new one no address is in use that was not handed out: `Reached.ordered`.  That is what
a new allocation needs, because the launches that are still queued then do not name it.
`alloc_cases` and `launch_cases` say how these two calls end.
-/
import TensorGraph.Proofs.Device.Execute
import Mathlib.Logic.Relation

namespace TensorGraph

theorem Word.add_of_le {a b : Nat} (h : a + b ≤ maxUnsigned) : add a b = some (a + b) := fit_of_le h

theorem Word.add_of_not_le {a b : Nat} (h : ¬a + b ≤ maxUnsigned) : add a b = none := if_neg h

namespace Device

variable {d d' : Device}

/-! ## Addresses in use -/

def footprint (bytes : Nat) : Nat := (max bytes 1 + (alignment - 1)) / alignment * alignment

theorem le_footprint (bytes : Nat) : bytes ≤ footprint bytes := by
  unfold footprint alignment
  omega

theorem footprint_pos (bytes : Nat) : 0 < footprint bytes := by
  unfold footprint alignment
  omega

theorem span_of_le {bytes : Nat} (h : footprint bytes ≤ Word.maxUnsigned) :
    span bytes = some (footprint bytes) := Word.fit_of_le h

theorem span_of_not_le {bytes : Nat} (h : ¬footprint bytes ≤ Word.maxUnsigned) :
    span bytes = none := if_neg h

def Room (d : Device) (bytes : Nat) : Prop :=
  d.next + footprint bytes ≤ Word.maxUnsigned ∧ (bytes + 7) / 8 * 8 ≤ Word.maxSigned ∧
    d.stats.liveBytes + bytes ≤ Word.maxUnsigned

def granted (d : Device) (bytes : Nat) : Device :=
  { d with
    memory := (d.next, Bytes.zeros bytes) :: d.memory
    next := d.next + footprint bytes
    stats := { d.stats with
      allocations := d.stats.allocations + 1
      live := d.stats.live + 1
      liveBytes := d.stats.liveBytes + bytes } }

/-- What is left of `alloc` when the capacity does not stand in its way. -/
def grant (d : Device) (bytes : Nat) : Action Device Nat := do
  let next ← Word.add d.next (← span bytes)
  if (bytes + 7) / 8 * 8 > Word.maxSigned then Action.halt
  let liveBytes ← Word.add d.stats.liveBytes bytes
  set { d with
    memory := (d.next, Bytes.zeros bytes) :: d.memory
    next := next
    stats := { d.stats with
      allocations := d.stats.allocations + 1
      live := d.stats.live + 1
      liveBytes := liveBytes } }
  return d.next

theorem grant_cases (d : Device) (bytes : Nat) :
    grant d bytes d = .value d.next (d.granted bytes) ∧ d.Room bytes ∨
      grant d bytes d = .halted ∧ ¬d.Room bytes := by
  unfold grant Room
  by_cases hnext : d.next + footprint bytes ≤ Word.maxUnsigned
  · have hspan := span_of_le (le_trans (Nat.le_add_left _ _) hnext)
    rw [Action.bind_lift_of_some hspan, Action.bind_lift_of_some (Word.add_of_le hnext)]
    dsimp only
    by_cases hsize : (bytes + 7) / 8 * 8 > Word.maxSigned
    · rw [if_pos hsize]
      exact Or.inr ⟨rfl, fun h => absurd h.2.1 (Nat.not_le.mpr hsize)⟩
    · rw [if_neg hsize]
      by_cases hlive : d.stats.liveBytes + bytes ≤ Word.maxUnsigned
      · rw [Action.bind_lift_of_some (Word.add_of_le hlive)]
        exact Or.inl ⟨rfl, hnext, Nat.not_lt.mp hsize, hlive⟩
      · rw [Action.bind_lift_of_none (Word.add_of_not_le hlive)]
        exact Or.inr ⟨rfl, fun h => hlive h.2.2⟩
  · refine Or.inr ⟨?_, fun h => hnext h.1⟩
    by_cases hspan : footprint bytes ≤ Word.maxUnsigned
    · rw [Action.bind_lift_of_some (span_of_le hspan),
        Action.bind_lift_of_none (Word.add_of_not_le hnext)]
    · rw [Action.bind_lift_of_none (span_of_not_le hspan)]

def Exceeds (d : Device) (bytes : Nat) : Prop :=
  ∃ capacity, d.capacity = some capacity ∧ d.stats.liveBytes + bytes ≤ Word.maxUnsigned ∧
    capacity < d.stats.liveBytes + bytes

/-- An allocation is granted, or refused for the capacity, or there is no room for it. -/
theorem alloc_cases (d : Device) (bytes : Nat) :
    (alloc bytes d = .value d.next (d.granted bytes) ∧ d.Room bytes ∧ ¬d.Exceeds bytes) ∨
      (∃ capacity, d.capacity = some capacity ∧ d.Exceeds bytes ∧ alloc bytes d =
        .refused (.device .alloc (.outOfMemory bytes d.stats.liveBytes capacity)) d) ∨
      (alloc bytes d = .halted ∧ ¬d.Room bytes ∧ ¬d.Exceeds bytes) := by
  have hgrant : ¬d.Exceeds bytes → alloc bytes d = grant d bytes d →
      (alloc bytes d = .value d.next (d.granted bytes) ∧ d.Room bytes ∧ ¬d.Exceeds bytes) ∨
        (alloc bytes d = .halted ∧ ¬d.Room bytes ∧ ¬d.Exceeds bytes) := by
    intro hexceeds h
    rw [h]
    rcases grant_cases d bytes with ⟨hvalue, hroom⟩ | ⟨hhalt, hroom⟩
    · exact Or.inl ⟨hvalue, hroom, hexceeds⟩
    · exact Or.inr ⟨hhalt, hroom, hexceeds⟩
  rcases Option.eq_none_or_eq_some d.capacity with hc | ⟨capacity, hc⟩
  · refine (hgrant ?_ ?_).imp_right Or.inr
    · rintro ⟨capacity, hsome, -⟩
      rw [hc] at hsome
      cases hsome
    · cases d
      cases hc
      rfl
  · have halloc : alloc bytes d = (do
        let wanted ← Word.add d.stats.liveBytes bytes
        if wanted > capacity then
          Action.refuse (.device .alloc (.outOfMemory bytes d.stats.liveBytes capacity))
        grant d bytes : Action Device Nat) d := by
      cases d
      cases hc
      rfl
    by_cases hlive : d.stats.liveBytes + bytes ≤ Word.maxUnsigned
    · rw [Action.bind_lift_of_some (Word.add_of_le hlive)] at halloc
      by_cases hwanted : d.stats.liveBytes + bytes > capacity
      · rw [if_pos hwanted] at halloc
        exact Or.inr (Or.inl ⟨capacity, hc, ⟨capacity, hc, hlive, hwanted⟩, halloc⟩)
      · rw [if_neg hwanted] at halloc
        refine (hgrant ?_ halloc).imp_right Or.inr
        rintro ⟨capacity', hsome, -, hlt⟩
        rw [hc] at hsome
        cases hsome
        exact hwanted hlt
    · rw [Action.bind_lift_of_none (Word.add_of_not_le hlive)] at halloc
      exact Or.inr (Or.inr ⟨halloc, fun h => hlive h.2.2, fun ⟨_, _, h, _⟩ => hlive h⟩)

/-! ## What calls keep -/

theorem allocation_of_some {address : Nat} {bytes : Bytes}
    (h : d.memory.find? address = some bytes) (call : DeviceCall) :
    allocation call address d = .value bytes d := by
  unfold allocation
  rw [Action.bind_of_value Action.get_apply, h]
  rfl

theorem allocation_of_none {address : Nat} (h : d.memory.find? address = none)
    (call : DeviceCall) :
    allocation call address d = .refused (.device call (.notAllocated address)) d := by
  unfold allocation
  rw [Action.bind_of_value Action.get_apply, h]
  rfl

section Keeps

variable {P : Device → Prop}

/-- Reporting a failure keeps what running the queue keeps. -/
theorem always_settle (h : (flush d).Always P)
    (hreport : ∀ d', P d' → P { d' with failure := none }) : (settle d).Always P := by
  refine Action.always_bind h fun _ d₁ h₁ => ?_
  rw [Action.bind_of_value Action.get_apply]
  cases d₁.failure with
  | none => exact h₁
  | some e => exact hreport d₁ h₁

theorem always_allocation (h : P d) (call : DeviceCall) (address : Nat) :
    (allocation call address d).Always P := by
  rcases Option.eq_none_or_eq_some (d.memory.find? address) with hfind | ⟨bytes, hfind⟩
  · rw [allocation_of_none hfind]
    exact h
  · rw [allocation_of_some hfind]
    exact h

theorem always_alloc (h : P d) (bytes : Nat)
    (hgranted : d.Room bytes → ¬d.Exceeds bytes → P (d.granted bytes)) :
    (alloc bytes d).Always P := by
  rcases alloc_cases d bytes with ⟨hvalue, hroom, hexceeds⟩ | ⟨_, -, -, hrefused⟩ | ⟨hhalt, -⟩
  · rw [hvalue]
    exact hgranted hroom hexceeds
  · rw [hrefused]
    exact h
  · rw [hhalt]
    exact trivial

theorem always_free (h : (flush d).Always P) (address : Nat)
    (hinvalid : ∀ d', P d' →
      P { d' with stats := { d'.stats with invalidFrees := d'.stats.invalidFrees + 1 } })
    (hremoved : ∀ d' bytes, P d' → d'.memory.find? address = some bytes →
      P { d' with
        memory := d'.memory.remove address
        stats := { d'.stats with
          frees := d'.stats.frees + 1
          live := d'.stats.live - 1
          liveBytes := d'.stats.liveBytes - bytes.size } }) :
    (free address d).Always P := by
  refine Action.always_bind h fun _ d₁ h₁ => ?_
  rw [Action.bind_of_value Action.get_apply]
  cases hfind : d₁.memory.find? address with
  | none => exact hinvalid d₁ h₁
  | some bytes => exact hremoved d₁ bytes h₁ hfind

theorem always_copyin (h : (settle d).Always P) (bytes : Bytes) (address : Nat)
    (hwrite : ∀ d' old, P d' → d'.memory.find? address = some old →
      (Bytes.overwrite old bytes).size = old.size →
      P { d' with memory := d'.memory.replace address (Bytes.overwrite old bytes) }) :
    (copyin bytes address d).Always P := by
  refine Action.always_bind h fun _ d₁ h₁ => ?_
  rcases Option.eq_none_or_eq_some (d₁.memory.find? address) with hfind | ⟨old, hfind⟩
  · rw [Action.bind_of_refused (allocation_of_none hfind _)]
    exact h₁
  · rw [Action.bind_of_value (allocation_of_some hfind _)]
    dsimp only
    split
    · exact h₁
    · next hlong => exact hwrite d₁ old h₁ hfind (Bytes.size_overwrite (Nat.not_lt.mp hlong))

theorem always_copyout (h : (settle d).Always P) (address len : Nat) :
    (copyout address len d).Always P := by
  refine Action.always_bind h fun _ d₁ h₁ => ?_
  refine Action.always_bind (always_allocation h₁ _ _) fun bytes d₂ h₂ => ?_
  dsimp only
  split <;> exact h₂

end Keeps

/-! ## Addresses that were handed out -/

/-- Whether all addresses in use were handed out, for blocks that a host could hold as well. -/
structure Ordered (d : Device) : Prop where
  memory : ∀ address bytes, d.memory.find? address = some bytes → address < d.next
  holdable : ∀ address bytes, d.memory.find? address = some bytes →
    (bytes.size + 7) / 8 * 8 ≤ Word.maxSigned
  queue : ∀ launch ∈ d.queue, ∀ address ∈ launch.addresses, address < d.next
  liveBytes : d.stats.liveBytes ≤ d.next

theorem Ordered.rewritten (h : d.Ordered) {m : Memory} (hm : d.memory.SameSizes m)
    (hmem : d'.memory = m) (hqueue : d'.queue ⊆ d.queue) (hnext : d'.next = d.next)
    (hstats : d'.stats = d.stats) : d'.Ordered where
  memory address bytes hfind := by
    have hsize := hm address
    rw [← hmem, hfind] at hsize
    obtain ⟨old, hold, -⟩ := Option.map_eq_some_iff.mp hsize.symm
    exact hnext ▸ h.memory address old hold
  holdable address bytes hfind := by
    have hsize := hm address
    rw [← hmem, hfind] at hsize
    obtain ⟨old, hold, heq⟩ := Option.map_eq_some_iff.mp hsize.symm
    exact heq ▸ h.holdable address old hold
  queue launch hl := hnext ▸ h.queue launch (hqueue hl)
  liveBytes := by
    rw [hstats, hnext]
    exact h.liveBytes

theorem Ordered.flush (h : d.Ordered) : (flush d).Always Ordered := by
  unfold Device.flush
  rcases hrun : d.memory.runAll d.queue with _ | ⟨m, _ | stop⟩
  · exact trivial
  · exact h.rewritten (Memory.sameSizes_of_runAll hrun) rfl (List.nil_subset _) rfl rfl
  · exact h.rewritten (Memory.sameSizes_of_runAll hrun) rfl (List.nil_subset _) rfl rfl

theorem Ordered.settle (h : d.Ordered) : (settle d).Always Ordered :=
  always_settle h.flush fun _ h₁ => ⟨h₁.memory, h₁.holdable, h₁.queue, h₁.liveBytes⟩

theorem Ordered.granted (h : d.Ordered) {bytes : Nat} (hroom : d.Room bytes) :
    (d.granted bytes).Ordered where
  memory address b hfind := by
    have hfind' : Memory.find? ((d.next, Bytes.zeros bytes) :: d.memory) address = some b := hfind
    have hpos := footprint_pos bytes
    show address < d.next + footprint bytes
    rw [Memory.find?_cons] at hfind'
    split at hfind'
    · omega
    · exact Nat.lt_add_right _ (h.memory address b hfind')
  holdable address b hfind := by
    have hfind' : Memory.find? ((d.next, Bytes.zeros bytes) :: d.memory) address = some b := hfind
    rw [Memory.find?_cons] at hfind'
    split at hfind'
    · cases hfind'
      rw [Bytes.size_zeros]
      exact hroom.2.1
    · exact h.holdable address b hfind'
  queue launch hl address ha := Nat.lt_add_right _ (h.queue launch hl address ha)
  liveBytes := Nat.add_le_add h.liveBytes (le_footprint bytes)

theorem Ordered.alloc (h : d.Ordered) (bytes : Nat) : (alloc bytes d).Always Ordered :=
  always_alloc h bytes fun hroom _ => h.granted hroom

theorem Ordered.remove (h : d.Ordered) {address : Nat} (hmem : d'.memory = d.memory.remove address)
    (hqueue : d'.queue = d.queue) (hnext : d'.next = d.next)
    (hlive : d'.stats.liveBytes ≤ d.stats.liveBytes) : d'.Ordered where
  memory other b hfind := by
    rw [hmem, Memory.find?_remove] at hfind
    rw [hnext]
    split at hfind
    · cases hfind
    · exact h.memory other b hfind
  holdable other b hfind := by
    rw [hmem, Memory.find?_remove] at hfind
    split at hfind
    · cases hfind
    · exact h.holdable other b hfind
  queue := by
    rw [hqueue, hnext]
    exact h.queue
  liveBytes := by
    rw [hnext]
    exact hlive.trans h.liveBytes

theorem Ordered.free (h : d.Ordered) (address : Nat) : (free address d).Always Ordered :=
  always_free h.flush address (fun _ h₁ => ⟨h₁.memory, h₁.holdable, h₁.queue, h₁.liveBytes⟩)
    fun _ _ h₁ _ => h₁.remove rfl rfl rfl (Nat.sub_le _ _)

theorem Ordered.overwritten (h : d.Ordered) {address : Nat} {old bytes : Bytes}
    (hfind : d.memory.find? address = some old)
    (hsize : (Bytes.overwrite old bytes).size = old.size) :
    Ordered { d with memory := d.memory.replace address (Bytes.overwrite old bytes) } :=
  h.rewritten (Memory.sameSizes_replace hfind hsize) rfl (List.Subset.refl _) rfl rfl

theorem Ordered.copyin (h : d.Ordered) (bytes : Bytes) (address : Nat) :
    (copyin bytes address d).Always Ordered :=
  always_copyin h.settle bytes address fun _ _ h₁ => h₁.overwritten

theorem Ordered.copyout (h : d.Ordered) (address len : Nat) :
    (copyout address len d).Always Ordered := always_copyout h.settle address len

theorem Ordered.synchronize (h : d.Ordered) : (synchronize d).Always Ordered :=
  Ordered.settle ⟨h.memory, h.holdable, h.queue, h.liveBytes⟩

def queued (d : Device) (launch : Launch) : Device :=
  { d with
    queue := d.queue ++ [launch]
    stats := { d.stats with launches := d.stats.launches + 1 } }

theorem requireFits_cases (d : Device) (operand : Operand) :
    requireFits operand d = .value () d ∧
        (∃ bytes, d.memory.find? operand.address = some bytes) ∨
      (∃ e, requireFits operand d = .refused e d) ∨ requireFits operand d = .halted := by
  unfold requireFits
  rcases Option.eq_none_or_eq_some (d.memory.find? operand.address) with hfind | ⟨bytes, hfind⟩
  · rw [Action.bind_of_refused (allocation_of_none hfind _)]
    exact Or.inr (Or.inl ⟨_, rfl⟩)
  · rw [Action.bind_of_value (allocation_of_some hfind _)]
    rcases Option.eq_none_or_eq_some operand.shape.storageBytes with hn | ⟨n, hn⟩
    · rw [Action.bind_lift_of_none hn]
      exact Or.inr (Or.inr rfl)
    · rw [Action.bind_lift_of_some hn]
      split
      · exact Or.inr (Or.inl ⟨_, rfl⟩)
      · exact Or.inl ⟨rfl, bytes, hfind⟩

theorem forEach_requireFits_cases (d : Device) (operands : List Operand) :
    Action.forEach requireFits operands d = .value () d ∧
        (∀ operand ∈ operands, ∃ bytes, d.memory.find? operand.address = some bytes) ∨
      (∃ e, Action.forEach requireFits operands d = .refused e d) ∨
      Action.forEach requireFits operands d = .halted := by
  induction operands with
  | nil => exact Or.inl ⟨rfl, fun _ h => (nomatch h)⟩
  | cons operand operands ih =>
    rw [Action.forEach_cons]
    rcases requireFits_cases d operand with ⟨hvalue, hfind⟩ | ⟨e, hrefused⟩ | hhalt
    · rw [Action.bind_of_value hvalue, List.forall_mem_cons]
      exact ih.imp_left fun h => ⟨h.1, hfind, h.2⟩
    · exact Or.inr (Or.inl ⟨e, Action.bind_of_refused hrefused⟩)
    · exact Or.inr (Or.inr (Action.bind_of_halted hhalt))

theorem launch_of_supports {op : Operator} {output : Operand} {inputs : List Operand}
    (hsupports : d.supports op output.shape.dtype = true)
    (hother : ∀ i ∈ inputs, i.address ≠ output.address) :
    launch op output inputs d = (do
      Action.forEach requireFits (inputs ++ [output])
      modify fun d => d.queued ⟨op, output, inputs⟩ : Action Device Unit) d := by
  have halias : (inputs.any fun i => i.address = output.address) = false :=
    List.any_eq_false.mpr fun i hi => by rw [decide_eq_true_iff]; exact hother i hi
  unfold launch
  rw [Action.bind_of_value Action.get_apply, hsupports, halias]
  rfl

theorem launch_cases (d : Device) (op : Operator) (output : Operand) (inputs : List Operand) :
    launch op output inputs d = .value () (d.queued ⟨op, output, inputs⟩) ∧
        (∀ operand ∈ inputs ++ [output], ∃ bytes, d.memory.find? operand.address = some bytes) ∨
      (∃ e, launch op output inputs d = .refused e d) ∨ launch op output inputs d = .halted := by
  by_cases hsupports : d.supports op output.shape.dtype = true
  · by_cases halias : (inputs.any fun i => i.address = output.address) = true
    · refine Or.inr (Or.inl ⟨.device .launch (.aliases op.text output.address), ?_⟩)
      unfold launch
      rw [Action.bind_of_value Action.get_apply, hsupports, halias]
      rfl
    · rw [launch_of_supports hsupports fun i hi heq =>
        halias (List.any_eq_true.mpr ⟨i, hi, decide_eq_true heq⟩)]
      rcases forEach_requireFits_cases d (inputs ++ [output]) with ⟨hvalue, hfind⟩ | ⟨e, hrefused⟩
        | hhalt
      · rw [Action.bind_of_value hvalue]
        exact Or.inl ⟨rfl, hfind⟩
      · exact Or.inr (Or.inl ⟨e, Action.bind_of_refused hrefused⟩)
      · exact Or.inr (Or.inr (Action.bind_of_halted hhalt))
  · refine Or.inr (Or.inl ⟨.device .launch (.noKernel op.text output.shape.dtype), ?_⟩)
    rw [Bool.not_eq_true] at hsupports
    unfold launch
    rw [Action.bind_of_value Action.get_apply, hsupports]
    rfl

theorem Ordered.queued (h : d.Ordered) {op : Operator} {output : Operand} {inputs : List Operand}
    (hfind : ∀ operand ∈ inputs ++ [output], ∃ bytes,
      d.memory.find? operand.address = some bytes) : (d.queued ⟨op, output, inputs⟩).Ordered where
  memory := h.memory
  holdable := h.holdable
  liveBytes := h.liveBytes
  queue launch hl address ha := by
    have hlt : ∀ operand ∈ inputs ++ [output], operand.address < d.next := fun operand hmem => by
      obtain ⟨bytes, hbytes⟩ := hfind operand hmem
      exact h.memory operand.address bytes hbytes
    rcases List.mem_append.mp hl with hl | hl
    · exact h.queue launch hl address ha
    · rw [List.mem_singleton.mp hl, Launch.addresses, List.mem_cons, List.mem_map] at ha
      rcases ha with rfl | ⟨operand, hmem, rfl⟩
      · exact hlt output (List.mem_append_right _ List.mem_cons_self)
      · exact hlt operand (List.mem_append_left _ hmem)

theorem always_launch {P : Device → Prop} (h : P d) (op : Operator) (output : Operand)
    (inputs : List Operand)
    (hqueued : (∀ operand ∈ inputs ++ [output], ∃ bytes,
      d.memory.find? operand.address = some bytes) → P (d.queued ⟨op, output, inputs⟩)) :
    (launch op output inputs d).Always P := by
  rcases launch_cases d op output inputs with ⟨hvalue, hfind⟩ | ⟨e, hrefused⟩ | hhalt
  · rw [hvalue]
    exact hqueued hfind
  · rw [hrefused]
    exact h
  · rw [hhalt]
    exact trivial

theorem Ordered.launch (h : d.Ordered) (op : Operator) (output : Operand)
    (inputs : List Operand) : (launch op output inputs d).Always Ordered :=
  always_launch h op output inputs h.queued

/-! ## Devices that calls lead to -/

inductive Step : Device → Device → Prop
  | alloc {d d' : Device} {bytes : Nat} : (alloc bytes d).Leaves d' → Step d d'
  | free {d d' : Device} {address : Nat} : (free address d).Leaves d' → Step d d'
  | copyin {d d' : Device} {bytes : Bytes} {address : Nat} :
      (copyin bytes address d).Leaves d' → Step d d'
  | copyout {d d' : Device} {address len : Nat} : (copyout address len d).Leaves d' → Step d d'
  | launch {d d' : Device} {op : Operator} {output : Operand} {inputs : List Operand} :
      (launch op output inputs d).Leaves d' → Step d d'
  | synchronize {d d' : Device} : (synchronize d).Leaves d' → Step d d'
  | collect {d : Device} : Step d { d with notices := [] }

/-- Devices that calls lead to from a new one. -/
def Reached (d : Device) : Prop :=
  ∃ capacity unsupported,
    Relation.ReflTransGen Step { capacity := capacity, unsupported := unsupported } d

theorem Ordered.step (h : d.Ordered) (hstep : Step d d') : d'.Ordered := by
  cases hstep with
  | alloc hleaves => exact (h.alloc _).of_leaves hleaves
  | free hleaves => exact (h.free _).of_leaves hleaves
  | copyin hleaves => exact (h.copyin _ _).of_leaves hleaves
  | copyout hleaves => exact (h.copyout _ _).of_leaves hleaves
  | launch hleaves => exact (h.launch _ _ _).of_leaves hleaves
  | synchronize hleaves => exact h.synchronize.of_leaves hleaves
  | collect => exact ⟨h.memory, h.holdable, h.queue, h.liveBytes⟩

theorem Reached.ordered (h : d.Reached) : d.Ordered := by
  obtain ⟨capacity, unsupported, hpath⟩ := h
  induction hpath with
  | refl =>
    exact ⟨fun _ _ hfind => (nomatch hfind), fun _ _ hfind => (nomatch hfind),
      fun _ hl => (nomatch hl), Nat.zero_le _⟩
  | tail _ hstep ih => exact ih.step hstep

end Device
end TensorGraph
