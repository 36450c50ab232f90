/-
What becomes of launches that were accepted.

A device checks each operand of a launch against the element type that the operand is named
with, but reads all of them with the element type of the output, and it looks neither at how many
operands there are nor at whether their extents go together.  So an accepted launch may read behind
an allocation and may halt: `accepted_not_safe`.  `execution_of_accepted` says when it does neither.
Whatever it reads, it writes inside its output's allocation.
-/
import TensorGraph.Proofs.Device.Frame
import TensorGraph.Proofs.Kernel.Defined

namespace TensorGraph

/-! ## Elements inside an allocation -/

theorem Operand.inside_of_le {o : Operand} {size count : Nat} (h : o.shape.space * size ≤ count) :
    o.Inside size count := by
  intro idx hidx
  have hreach := Index.offset_le_reach (Index.mem_indices.mp hidx)
  have hmul : (Index.offset idx o.shape.axes + 1) * size ≤ o.shape.space * size :=
    Nat.mul_le_mul_right _ (Nat.add_le_add_right hreach 1)
  rw [Nat.add_mul, Nat.one_mul] at hmul
  omega

theorem Operand.inside_iff {o : Operand} {size count : Nat} (hp : o.shape.Populated) :
    o.Inside size count ↔ o.shape.space * size ≤ count := by
  constructor
  · intro h
    obtain ⟨idx, hidx, hoffset⟩ := Index.exists_offset_eq_reach fun _ ha => hp.extent_pos ha
    have hlast := h idx (Index.mem_indices.mpr hidx)
    rw [hoffset] at hlast
    rw [Shape.space, Nat.add_mul, Nat.one_mul]
    exact hlast
  · exact inside_of_le

/-! ## Launches for which there are kernels -/

def Launch.HasKernel (l : Launch) : Prop :=
  l.op = .contiguous ∨ l.op.isCompute = true ∧ l.output.shape.dtype.isFloat = true

theorem Launch.HasKernel.isCompute {l : Launch} (h : l.HasKernel) : l.op.isCompute = true := by
  obtain heq | ⟨hc, -⟩ := h
  · rw [heq]
    rfl
  · exact hc

namespace Device

variable {d d' : Device}

theorem hasKernel_of_supports {op : Operator} {output : Operand} (inputs : List Operand)
    (h : d.supports op output.shape.dtype = true) :
    Launch.HasKernel ⟨op, output, inputs⟩ := by
  unfold supports at h
  split at h
  · cases h
  · split at h
    · exact Or.inl rfl
    · exact Or.inr (Bool.and_eq_true_iff.mp h)

def Equipped (d : Device) : Prop := ∀ l ∈ d.queue, l.HasKernel

theorem equipped_of_queue_nil (h : d.queue = []) : d.Equipped := by
  intro l hl
  rw [h] at hl
  cases hl

theorem queue_of_flush (d : Device) : (flush d).Always fun d' => d'.queue = [] := by
  unfold flush
  rcases d.memory.runAll d.queue with _ | ⟨m, _ | stop⟩
  · exact trivial
  · exact rfl
  · exact rfl

theorem queue_of_settle (d : Device) : (settle d).Always fun d' => d'.queue = [] :=
  always_settle (queue_of_flush d) fun _ h₁ => h₁

theorem queue_of_free (d : Device) (address : Nat) :
    (free address d).Always fun d' => d'.queue = [] :=
  always_free (queue_of_flush d) address (fun _ h₁ => h₁) fun _ _ h₁ _ => h₁

theorem queue_of_copyin (d : Device) (bytes : Bytes) (address : Nat) :
    (copyin bytes address d).Always fun d' => d'.queue = [] :=
  always_copyin (queue_of_settle d) bytes address fun _ _ h₁ _ _ => h₁

theorem queue_of_copyout (d : Device) (address len : Nat) :
    (copyout address len d).Always fun d' => d'.queue = [] :=
  always_copyout (queue_of_settle d) address len

theorem Equipped.alloc (h : d.Equipped) (bytes : Nat) : (alloc bytes d).Always Equipped :=
  always_alloc h bytes fun _ _ => h

theorem Equipped.launch (h : d.Equipped) (op : Operator) (output : Operand)
    (inputs : List Operand) : (launch op output inputs d).Always Equipped := by
  by_cases hsupports : d.supports op output.shape.dtype = true
  · refine always_launch h op output inputs fun _ => ?_
    show ∀ l ∈ d.queue ++ [⟨op, output, inputs⟩], l.HasKernel
    rw [List.forall_mem_append, List.forall_mem_singleton]
    exact ⟨h, hasKernel_of_supports inputs hsupports⟩
  · rw [Bool.not_eq_true] at hsupports
    unfold Device.launch
    rw [Action.bind_of_value Action.get_apply, hsupports]
    exact h

/-- Calls leave the queue empty or as it was, but for a launch that is accepted. -/
theorem Equipped.perform (h : d.Equipped) (call : Call) :
    (call.perform Device.launch d).Always Equipped := by
  have hempty := fun d' => equipped_of_queue_nil (d := d')
  cases call with
  | alloc bytes => exact Action.always_bind (h.alloc bytes) fun _ _ h' => h'
  | free address =>
    exact Action.always_bind ((queue_of_free d address).mono hempty) fun _ _ h' => h'
  | copyin bytes address =>
    exact Action.always_bind ((queue_of_copyin d bytes address).mono hempty) fun _ _ h' => h'
  | copyout address len =>
    exact Action.always_bind ((queue_of_copyout d address len).mono hempty) fun _ _ h' => h'
  | launch op output inputs =>
    exact Action.always_bind (h.launch op output inputs) fun _ _ h' => h'
  | synchronize =>
    exact Action.always_bind ((queue_of_settle d.synced).mono hempty) fun _ _ h' => h'

theorem Equipped.run {calls : List Call} (h : d.Equipped)
    (hafter : after Device.launch calls d = some d') : d'.Equipped :=
  always_after (fun _ call hd => hd.perform call) h hafter

end Device

/-! ## Where a launch halts -/

namespace Memory

variable {m : Memory} {l : Launch} {i : Operand} {inputs : List Operand} {d : Dtype}

theorem view_addressable (hfind : m.find? i.address ≠ none)
    (haddr : i.shape.isAddressable d.size = true) :
    ∃ v, m.view i d = .value v ∧ v.lens = i.shape.lens := by
  obtain ⟨bytes, hbytes⟩ := Option.ne_none_iff_exists'.mp hfind
  unfold view
  rw [hbytes]
  dsimp only
  rw [if_pos haddr]
  exact ⟨_, rfl, rfl⟩

theorem mapM_view_addressable (hfind : ∀ i ∈ inputs, m.find? i.address ≠ none)
    (haddr : ∀ i ∈ inputs, i.shape.isAddressable d.size = true) :
    ∃ views, (inputs.mapM fun i => m.view i d) = .value views ∧
      views.map View.lens = inputs.map fun i => i.shape.lens := by
  induction inputs with
  | nil => exact ⟨[], rfl, rfl⟩
  | cons i inputs ih =>
    rw [List.forall_mem_cons] at hfind haddr
    obtain ⟨v, hv, hlens⟩ := view_addressable hfind.1 haddr.1
    obtain ⟨views, hviews, hall⟩ := ih hfind.2 haddr.2
    refine ⟨v :: views, ?_, ?_⟩
    · rw [List.mapM_cons, hv, hviews]
      rfl
    · rw [List.map_cons, List.map_cons, hlens, hall]

/-- A launch on operands that can be addressed halts where its kernel is not defined. -/
theorem computed_ne_halted_iff (hkernel : l.HasKernel)
    (hfind : ∀ i ∈ l.inputs, m.find? i.address ≠ none)
    (haddr : ∀ i ∈ l.inputs, i.shape.isAddressable l.output.shape.dtype.size = true) :
    m.computed l ≠ .halted ↔
      Kernel.Defined l.output.shape.dtype.size l.op l.output.shape.lens
        (l.inputs.map fun i => i.shape.lens) := by
  by_cases hn : l.op = .contiguous
  · obtain ⟨op, output, inputs⟩ := l
    subst hn
    match inputs, hfind, haddr with
    | [], _, _ => exact iff_of_false (fun h => h rfl) (fun h => nomatch h)
    | i :: rest, hfind, haddr =>
      obtain ⟨v, hv, hlens⟩ :=
        view_addressable (hfind i List.mem_cons_self) (haddr i List.mem_cons_self)
      have hcomputed : m.computed ⟨.contiguous, output, i :: rest⟩ = (do
          let v ← m.view i output.shape.dtype
          return (← v.held output.shape.dtype.size).toTensor) := rfl
      dsimp only at hv
      rw [hcomputed, hv, List.map_cons, ← hlens]
      exact Kernel.return_held_ne_halted_iff
  · obtain heq | ⟨-, hfloat⟩ := hkernel
    · exact absurd heq hn
    · obtain ⟨num, hnum⟩ := Operator.exists_arithmetic hfloat
      obtain ⟨views, hviews, hlens⟩ := mapM_view_addressable hfind haddr
      rw [computed_of_ne_contiguous hn, hnum, ← hlens, ← Dtype.size_arithmetic hnum]
      dsimp only
      rw [hviews]
      exact Kernel.run_ne_halted_iff num l.op _ views

theorem execute_ne_halted_iff (hkernel : l.HasKernel)
    (hfind : ∀ o ∈ l.inputs ++ [l.output], m.find? o.address ≠ none)
    (haddr : ∀ o ∈ l.inputs ++ [l.output],
      o.shape.isAddressable l.output.shape.dtype.size = true) :
    m.execute l ≠ .halted ↔
      Kernel.Defined l.output.shape.dtype.size l.op l.output.shape.lens
        (l.inputs.map fun i => i.shape.lens) := by
  rw [List.forall_mem_append, List.forall_mem_singleton] at hfind haddr
  rw [← computed_ne_halted_iff hkernel hfind.1 haddr.1, execute_eq, result]
  obtain ⟨bytes, hbytes⟩ := Option.ne_none_iff_exists'.mp hfind.2
  cases m.computed l with
  | refused e => exact iff_of_true (fun h => nomatch h) (fun h => nomatch h)
  | halted => exact iff_of_false (fun h => h rfl) (fun h => h rfl)
  | value t =>
    refine iff_of_true ?_ (fun h => nomatch h)
    rw [Outcome.value_bind, inscribe, hbytes]
    dsimp only
    rw [if_pos haddr.2]
    by_cases hlens : t.lens = l.output.shape.lens
    · rw [Outcome.require_pos hlens]
      exact fun h => nomatch h
    · rw [Outcome.require_neg hlens]
      exact fun h => nomatch h

end Memory

namespace Device

open Operator (Infers)

variable {d : Device} {before behind : List Launch} {l : Launch} {m : Memory}

/-! ## Accepted launches -/

/-- A launch that was accepted finds its operands at its turn, each large enough for the shape
that it is named with, and there is a kernel for it. -/
theorem operands_of_queued {capacity : Option Nat} {unsupported : List Dtype} {calls : List Call}
    (hafter : after launch calls { capacity := capacity, unsupported := unsupported } = some d)
    (hqueue : d.queue = before ++ l :: behind) (hturn : d.memory.runAll before = some (m, none)) :
    l.HasKernel ∧ ∀ o ∈ l.inputs ++ [l.output], ∃ bytes n, m.find? o.address = some bytes ∧
      o.shape.storageBytes = some n ∧ n ≤ bytes.size ∧
        (bytes.size + 7) / 8 * 8 ≤ Word.maxSigned := by
  have hl : l ∈ d.queue := by simp [hqueue]
  have hnew := equipped_of_queue_nil (d := { capacity := capacity, unsupported := unsupported }) rfl
  refine ⟨hnew.run hafter l hl, fun o ho => ?_⟩
  have hnewOrdered := Reached.ordered ⟨capacity, unsupported, .refl⟩
  have hrecorded := (recorded_new capacity unsupported).run hnewOrdered hafter
  obtain ⟨size, n, hlive, hn, hle⟩ := (hrecorded.queue l hl).fits o ho
  obtain ⟨old, hold, hsize⟩ := (Memory.mem_layout_iff hrecorded.nodup).mp hlive
  obtain ⟨bytes, hbytes, hsame⟩ := (Memory.sameSizes_of_runAll hturn).find? hold
  have hholdable := (hnewOrdered.run hafter).holdable _ _ hold
  exact ⟨bytes, n, hbytes, hn, by omega, by omega⟩

end Device

/-- Whether a launch reads an input inside the input's allocation. -/
def Launch.ReadsInside (l : Launch) (m : Memory) (i : Operand) : Prop :=
  ∃ bytes, m.find? i.address = some bytes ∧ i.Inside l.output.shape.dtype.size bytes.size

open Operator (Infers) in
/-- What a launch that was accepted does to the memory that it finds at its turn. -/
structure Launch.Behaves (l : Launch) (m : Memory) : Prop where
  /-- What it writes lies inside the allocation of its output. -/
  writes : ∃ old, m.find? l.output.address = some old ∧
    l.output.Inside l.output.shape.dtype.size old.size
  /-- What it reads lies inside the allocations of its inputs exactly as far as these have room for
  elements of the output's type. -/
  reads : ∀ i ∈ l.inputs, ∃ bytes, m.find? i.address = some bytes ∧
    (l.ReadsInside m i ↔ i.shape.space * l.output.shape.dtype.size ≤ bytes.size)
  /-- Inputs of a type that is no narrower than the output's have it. -/
  readsInside : ∀ i ∈ l.inputs, l.output.shape.dtype.size ≤ i.shape.dtype.size → l.ReadsInside m i
  /-- It halts exactly where its kernel is not defined on the extents of its operands. -/
  halts : m.execute l ≠ .halted ↔
    Kernel.Defined l.output.shape.dtype.size l.op l.output.shape.lens
        (l.inputs.map fun i => i.shape.lens)
  /-- On operands that go together under its operator it runs to its end. -/
  completes : Infers l.op (l.inputs.map Operand.shape) l.output.shape →
    l.op.Roomy (l.inputs.map Operand.shape) →
    (∃ m', m.execute l = .value m') ∧ ∀ i ∈ l.inputs, l.ReadsInside m i

namespace Launch

open Operator (Infers)

variable {l : Launch} {m : Memory}

theorem dtype_of_infers (h : Infers l.op (l.inputs.map Operand.shape) l.output.shape)
    (hc : l.op.isCompute = true) : ∀ i ∈ l.inputs, i.shape.dtype = l.output.shape.dtype := by
  rw [← List.forall_mem_map (P := fun s : Shape => s.dtype = l.output.shape.dtype)]
  generalize l.op = op at h hc
  generalize l.inputs.map Operand.shape = shapes at h
  by_cases hn : op = .contiguous
  · subst hn
    cases h with
    | contiguous ht => simp [(Shape.asStandard_eq_some ht).2]
  · exact (h.isFloat hc hn).2

/-- What a launch does to memory with operands that are large enough and can be addressed. -/
theorem behaves_of_operands (hkernel : l.HasKernel)
    (hoperands : ∀ o ∈ l.inputs ++ [l.output], ∃ bytes n, m.find? o.address = some bytes ∧
      o.shape.storageBytes = some n ∧ n ≤ bytes.size ∧
        (bytes.size + 7) / 8 * 8 ≤ Word.maxSigned)
    (hpopulated : ∀ o ∈ l.inputs ++ [l.output], o.shape.Populated)
    (haddressable : ∀ o ∈ l.inputs ++ [l.output],
      o.shape.isAddressable l.output.shape.dtype.size = true) : l.Behaves m := by
  have hroom : ∀ o ∈ l.inputs ++ [l.output], ∃ bytes, m.find? o.address = some bytes ∧
      o.shape.space * o.shape.dtype.size ≤ bytes.size := by
    intro o ho
    obtain ⟨bytes, n, hbytes, hn, hle, -⟩ := hoperands o ho
    rw [((Shape.storageBytes_eq_some (hpopulated o ho)).mp hn).1] at hle
    exact ⟨bytes, hbytes, hle⟩
  have hinput : ∀ i ∈ l.inputs, i ∈ l.inputs ++ [l.output] := fun i hi => by simp [hi]
  have hinside : ∀ i ∈ l.inputs, l.output.shape.dtype.size ≤ i.shape.dtype.size →
      l.ReadsInside m i := by
    intro i hi hwide
    obtain ⟨bytes, hbytes, hle⟩ := hroom i (hinput i hi)
    refine ⟨bytes, hbytes, Operand.inside_of_le ?_⟩
    exact (Nat.mul_le_mul_left _ hwide).trans hle
  have hfind : ∀ o ∈ l.inputs ++ [l.output], m.find? o.address ≠ none := by
    intro o ho
    obtain ⟨bytes, hbytes, -⟩ := hroom o ho
    simp [hbytes]
  have hhalts := Memory.execute_ne_halted_iff hkernel hfind haddressable
  have houtput : l.output ∈ l.inputs ++ [l.output] := by simp
  refine ⟨?_, ?_, hinside, hhalts, ?_⟩
  · obtain ⟨old, hold, hle⟩ := hroom l.output houtput
    exact ⟨old, hold, Operand.inside_of_le hle⟩
  · intro i hi
    obtain ⟨bytes, hbytes, -⟩ := hroom i (hinput i hi)
    refine ⟨bytes, hbytes, ?_⟩
    rw [← Operand.inside_iff (hpopulated i (hinput i hi))]
    simp [ReadsInside, hbytes]
  · intro hinfers hroomy
    have hdtype := dtype_of_infers hinfers hkernel.isCompute
    refine ⟨?_, fun i hi => hinside i hi (by rw [hdtype i hi])⟩
    have hword : ∀ s ∈ l.inputs.map Operand.shape, ∀ n ∈ s.lens, n ≤ Word.maxSigned := by
      rw [List.forall_mem_map]
      intro i hi n hn
      have haddr := haddressable i (hinput i hi)
      rw [← hdtype i hi] at haddr
      exact Shape.Addressable.extent_le haddr (hpopulated i (hinput i hi)) hn
    have hcount := Shape.Addressable.isCountable (haddressable l.output houtput)
    have hlist : l.output.shape.Listable := by
      obtain ⟨bytes, n, -, hn, hle, hholdable⟩ := hoperands l.output houtput
      rw [((Shape.storageBytes_eq_some (hpopulated _ houtput)).mp hn).1] at hle
      exact (Shape.holdable_of_space (hinfers.isStandard hkernel.isCompute)
        (hpopulated _ houtput) (by omega)).listable
    have hdefined := Kernel.defined_of_infers hinfers hkernel.isCompute hword hcount hlist hroomy
    rw [List.map_map] at hdefined
    have hsure := sure_of_infers hinfers hkernel.isCompute m (by
      unfold addresses
      rw [List.forall_mem_cons, List.forall_mem_map]
      exact ⟨hfind l.output houtput, fun i hi => hfind i (hinput i hi)⟩)
    cases he : m.execute l with
    | value m' => exact ⟨m', rfl⟩
    | refused e => exact absurd he (hsure e)
    | halted => exact absurd he (hhalts.mpr hdefined)

end Launch

namespace Device

variable {d : Device} {before behind : List Launch} {l : Launch} {m : Memory}

/-- Where sizes are in range, an accepted launch writes inside its output's allocation, but what it
reads and whether it halts depend on operands that nobody has compared.  A refusal is kept as a
failure of the device. -/
theorem execution_of_accepted (capacity : Option Nat) (unsupported : List Dtype)
    (calls : List Call)
    (hafter : after launch calls { capacity := capacity, unsupported := unsupported } = some d)
    (hqueue : d.queue = before ++ l :: behind) (hturn : d.memory.runAll before = some (m, none))
    (hpopulated : ∀ o ∈ l.inputs ++ [l.output], o.shape.Populated)
    (haddressable : ∀ o ∈ l.inputs ++ [l.output],
      o.shape.isAddressable l.output.shape.dtype.size = true) :
    l.Behaves m ∧ (m.execute l = .halted → flush d = .halted) ∧
      ∀ e, m.execute l = .refused e → ∃ d', flush d = .value () d' ∧
        d'.failure = some (d.failure.getD (.launchFailed l.op.text e)) := by
  obtain ⟨hkernel, hoperands⟩ := operands_of_queued hafter hqueue hturn
  have hrest : d.memory.runAll d.queue = m.runAll (l :: behind) := by
    rw [hqueue]
    exact Memory.runAll_append_of_done hturn
  rw [Memory.runAll_cons] at hrest
  refine ⟨Launch.behaves_of_operands hkernel hoperands hpopulated haddressable, ?_, ?_⟩
  · intro hhalted
    rw [hhalted] at hrest
    rw [flush, hrest]
  · intro e hrefused
    rw [hrefused] at hrest
    rw [flush, hrest]
    exact ⟨_, rfl, rfl⟩

def floats : Shape := ⟨.float, [⟨2, 1⟩]⟩

/-- A sum of two tensors, a sum of one, and a copy of two bytes to where two floats are. -/
def sum : Launch := ⟨.add, ⟨4608, floats⟩, [⟨4096, floats⟩, ⟨4352, floats⟩]⟩

def lonely : Launch := ⟨.add, ⟨4608, floats⟩, [⟨4096, floats⟩]⟩

def widening : Launch := ⟨.contiguous, ⟨4608, floats⟩, [⟨4096, pair⟩]⟩

def launching (first : Nat) (l : Launch) : List Call :=
  [.alloc first, .alloc 8, .alloc 8, .launch l.op l.output l.inputs]

theorem execution_of_accepted_sum : ∃ d, after launch (launching 8 sum) {} = some d ∧
    d.queue = [] ++ sum :: [] ∧ d.memory.runAll [] = some (d.memory, none) ∧
    (∀ o ∈ sum.inputs ++ [sum.output], o.shape.Populated) ∧
    (∀ o ∈ sum.inputs ++ [sum.output],
      o.shape.isAddressable sum.output.shape.dtype.size = true) ∧
    sum.Behaves d.memory := by
  have hafter : ∃ d, after launch (launching 8 sum) {} = some d := ⟨_, rfl⟩
  obtain ⟨d, hd⟩ := hafter
  have hqueue : d.queue = [] ++ sum :: [] := by
    cases hd
    rfl
  have hpopulated : ∀ o ∈ sum.inputs ++ [sum.output], o.shape.Populated := by
    simp [sum, floats, Shape.Populated, Shape.lens]
  have haddressable : ∀ o ∈ sum.inputs ++ [sum.output],
      o.shape.isAddressable sum.output.shape.dtype.size = true := by decide
  have hbehaves := execution_of_accepted none [] (launching 8 sum) hd hqueue rfl hpopulated
    haddressable
  exact ⟨d, hd, hqueue, rfl, hpopulated, haddressable, hbehaves.1⟩

/-- The launch of a sum with one operand is accepted, and the next call that runs the queue halts.
The launch that widens is accepted as well, and reads behind the two bytes of its input. -/
theorem accepted_not_safe :
    (∃ d, after launch (launching 8 lonely) {} = some d ∧ d.queue = [lonely] ∧
      synchronize d = .halted) ∧
    ∃ d m, after launch (launching 2 widening) {} = some d ∧ d.queue = [widening] ∧
      d.memory.execute widening = .value m ∧
      ∃ i ∈ widening.inputs, ¬widening.ReadsInside d.memory i := by
  refine ⟨⟨_, rfl, rfl, rfl⟩, _, _, rfl, rfl, rfl, ⟨4096, pair⟩, List.mem_cons_self, ?_⟩
  rintro ⟨bytes, hbytes, hinside⟩
  cases hbytes
  revert hinside
  decide

end Device
end TensorGraph
