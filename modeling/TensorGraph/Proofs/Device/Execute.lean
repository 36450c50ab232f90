/-
Launches on device memory.

`execute_ends` is the specification of a launch: from operands that read tensors it makes
its output read what the operator denotes, and leaves every other allocation as it was.  A
run of launches does not see an allocation that none of them names, and no launch changes
the size of one.
-/
import TensorGraph.Device.Calls
import TensorGraph.Proofs.Kernel.Run
import TensorGraph.Proofs.Kernel.Stored

namespace TensorGraph
namespace Memory

/-! ## Scattered elements -/

section Scatter

variable {bytes : Bytes} {axes : List Axis} {size : Nat}

/-- The words of elements at different offsets lie apart. -/
theorem disjoint_words {o o' : Nat} (h : o ≠ o') (size : Nat) :
    o * size + size ≤ o' * size ∨ o' * size + size ≤ o * size := by
  rcases Nat.lt_or_gt_of_ne h with hlt | hgt
  · have hmul := Nat.mul_le_mul_right size hlt
    rw [Nat.succ_mul] at hmul
    exact Or.inl hmul
  · have hmul := Nat.mul_le_mul_right size hgt
    rw [Nat.succ_mul] at hmul
    exact Or.inr hmul

theorem wordAt_scatter_of_notMem {o : Nat} {indices : List (List Nat)} {values : List Nat}
    (h : o ∉ indices.map fun idx => Index.offset idx axes) :
    Bytes.wordAt (scatter bytes axes size indices values) (o * size) size =
      Bytes.wordAt bytes (o * size) size := by
  induction indices generalizing bytes values with
  | nil => rfl
  | cons idx indices ih =>
    cases values with
    | nil => rfl
    | cons v values =>
      rw [List.map_cons, List.mem_cons, not_or] at h
      rw [scatter, ih h.2]
      exact Bytes.wordAt_setWord_of_disjoint (disjoint_words h.1 size)

/-- Elements that are written at different offsets are all there afterwards. -/
theorem wordAt_scatter {indices : List (List Nat)} {values : List Nat}
    (hnd : (indices.map fun idx => Index.offset idx axes).Nodup)
    (hroom : ∀ idx ∈ indices, Index.offset idx axes * size + size ≤ bytes.size) {k : Nat}
    {idx : List Nat} {v : Nat} (hk : indices[k]? = some idx) (hv : values[k]? = some v) :
    Bytes.wordAt (scatter bytes axes size indices values) (Index.offset idx axes * size) size =
      v % 256 ^ size := by
  induction indices generalizing bytes values k with
  | nil => cases hk
  | cons idx' indices ih =>
    rw [List.map_cons, List.nodup_cons] at hnd
    cases values with
    | nil => cases hv
    | cons v' values =>
      rw [scatter]
      cases k with
      | zero =>
        cases hk
        cases hv
        rw [wordAt_scatter_of_notMem hnd.1]
        exact Bytes.wordAt_setWord_self (hroom idx List.mem_cons_self)
      | succ k =>
        refine ih hnd.2 (fun idx hidx => ?_) hk hv
        rw [Bytes.size_setWord]
        exact hroom idx (List.mem_cons_of_mem _ hidx)

/-- A tensor that is written under a row-major shape is read back under it. -/
theorem ofBytes_scatter {t : Shape} {v : View} (ht : t.isStandard = some true)
    (hl : v.lens = t.lens) (hs : v.Storable t.dtype.size)
    (hroom : t.space * t.dtype.size ≤ bytes.size) :
    (View.ofBytes t t.dtype.size
      (scatter bytes t.axes t.dtype.size (Index.indices v.lens) v.elements)).Agrees v := by
  refine ⟨hl.symm, fun idx hi => ?_⟩
  have hi' : Index.Within idx v.lens := by
    rw [hl]
    exact hi
  have hoffsets : ((Index.indices v.lens).map fun idx => Index.offset idx t.axes) =
      List.range v.lens.prod := by
    rw [← Index.map_position_indices v.lens]
    refine List.map_congr_left fun idx hidx => ?_
    have hin := Index.mem_indices.mp hidx
    rw [hl] at hin ⊢
    exact Shape.offset_of_isStandard ht hin
  show Bytes.wordAt _ (Index.offset idx t.axes * t.dtype.size) t.dtype.size = v.read idx
  rw [wordAt_scatter (by rw [hoffsets]; exact List.nodup_range) (fun jdx hj => ?_)
    (Index.indices_getElem?_position hi') (View.elements_getElem?_position hi'),
    Nat.mod_eq_of_lt (hs idx)]
  have hin := Index.mem_indices.mp hj
  rw [hl] at hin
  exact (Shape.offset_add_size_le hin).trans hroom

end Scatter

/-! ## Tensors in memory -/

end Memory

/-- A tensor on a device: a buffer, the shape that it is read under and what is read. -/
structure Resident where
  buffer : DeviceBuffer
  shape : Shape
  tensor : View

def Resident.operand (r : Resident) : Operand := ⟨r.buffer.address, r.shape⟩

namespace Memory

variable {m m' : Memory} {r : Resident} {rs : List Resident} {fits : Prop}

/-- Whether an allocation holds a tensor. -/
def Keeps (m : Memory) (r : Resident) : Prop :=
  ∃ bytes, m.find? r.buffer.address = some bytes ∧ bytes.size = r.buffer.size ∧
    (View.ofBytes r.shape r.shape.dtype.size bytes).Agrees r.tensor

theorem shaped_of_keeps (h : ∀ r ∈ rs, m.Keeps r) :
    View.Shaped (rs.map Resident.shape) (rs.map Resident.tensor) := by
  induction rs with
  | nil => exact .nil
  | cons r rs ih =>
    rw [List.forall_mem_cons] at h
    obtain ⟨⟨_, -, -, hagrees⟩, h⟩ := h
    exact .cons hagrees.1.symm (ih h)

theorem Keeps.view_ends (h : m.Keeps r) (hfit : fits → r.shape.Addressable) :
    (m.view r.operand r.shape.dtype).Ends fits fun u => r.shape.Addressable ∧
      u.Agrees r.tensor ∧ u.Storable r.shape.dtype.size := by
  obtain ⟨bytes, hfind, -, hagrees⟩ := h
  unfold view
  rw [show m.find? r.operand.address = some bytes from hfind]
  dsimp only
  by_cases haddr : r.shape.isAddressable r.shape.dtype.size = true
  · rw [if_pos (show r.operand.shape.isAddressable _ = true from haddr)]
    exact ⟨haddr, hagrees, View.storable_ofBytes _ _ _⟩
  · rw [if_neg (show ¬r.operand.shape.isAddressable _ = true from haddr)]
    exact fun hf => haddr (hfit hf)

theorem mapM_view_ends {d : Dtype} (h : ∀ r ∈ rs, m.Keeps r)
    (hd : ∀ s ∈ rs.map Resident.shape, s.dtype = d)
    (hfit : fits → ∀ s ∈ rs.map Resident.shape, s.Addressable) :
    ((rs.map Resident.operand).mapM fun i => m.view i d).Ends fits fun us =>
      (∀ s ∈ rs.map Resident.shape, s.Addressable) ∧
        List.Forall₂ View.Agrees (rs.map Resident.tensor) us ∧ ∀ u ∈ us, u.Storable d.size := by
  induction rs with
  | nil => exact ⟨fun _ h => (nomatch h), .nil, fun _ h => (nomatch h)⟩
  | cons r rs ih =>
    rw [List.map_cons, List.forall_mem_cons] at hd
    simp only [List.map_cons, List.forall_mem_cons] at h hfit ⊢
    obtain ⟨rfl, hd⟩ := hd
    rw [List.mapM_cons]
    refine Outcome.Ends.bind (h.1.view_ends fun hf => (hfit hf).1) ?_
    rintro u ⟨haddr, hagrees, hstorable⟩
    refine Outcome.Ends.bind (ih h.2 hd fun hf => (hfit hf).2) ?_
    rintro us ⟨haddrs, hall, hstorables⟩
    refine ⟨⟨haddr, haddrs⟩, .cons hagrees.symm hall, ?_⟩
    rw [List.forall_mem_cons]
    exact ⟨hstorable, hstorables⟩

section Launch

open Operator (Infers)

variable {op : Operator} {t : Shape} {v : View} {address : Nat} {old : Bytes}

/-- Whether memory is as before but for one allocation, which holds a tensor. -/
def Written (m : Memory) (address : Nat) (old : Bytes) (t : Shape) (v : View) (m' : Memory) :
    Prop :=
  ∃ bytes, m' = m.replace address bytes ∧ bytes.size = old.size ∧
    (View.ofBytes t t.dtype.size bytes).Agrees v

theorem store_ends (ht : t.isStandard = some true) (hl : v.lens = t.lens)
    (hs : v.Storable t.dtype.size) (hold : m.find? address = some old)
    (hroom : t.space * t.dtype.size ≤ old.size) (hfit : fits → t.Addressable) :
    (m.store ⟨address, t⟩ t.dtype v.toTensor).Ends fits (Written m address old t v) := by
  unfold store
  rw [Outcome.require_pos (show v.toTensor.lens = _ from hl), Outcome.value_bind, hold]
  dsimp only
  by_cases haddr : t.isAddressable t.dtype.size = true
  · rw [if_pos haddr]
    exact ⟨_, rfl, size_scatter _ _ _ _ _, ofBytes_scatter ht hl hs hroom⟩
  · rw [if_neg haddr]
    exact fun hf => haddr (hfit hf)

theorem execute_contiguous (output input : Operand) (rest : List Operand) :
    m.execute ⟨.contiguous, output, input :: rest⟩ =
      m.view input output.shape.dtype >>= fun v =>
        liftM (v.held output.shape.dtype.size) >>= fun copy =>
          m.store output output.shape.dtype copy.toTensor :=
  rfl

theorem execute_of_ne_contiguous (hn : op ≠ .contiguous) (output : Operand)
    (inputs : List Operand) : m.execute ⟨op, output, inputs⟩ =
      match output.shape.dtype.arithmetic with
      | some num => do
        let views ← inputs.mapM fun i => m.view i output.shape.dtype
        let t ← Kernel.run num op output.shape.lens views
        m.store output output.shape.dtype t
      | none => .refused (.device .launch (.noKernel op.text output.shape.dtype)) := by
  unfold execute
  cases op with
  | contiguous => exact absurd rfl hn
  | _ => rfl

/-- A launch on tensors in memory writes what its operator denotes. -/
theorem execute_ends (h : Infers op (rs.map Resident.shape) t) (hc : op.isCompute = true)
    (hk : ∀ r ∈ rs, m.Keeps r) (hp : ∀ s ∈ rs.map Resident.shape, s.Populated)
    (hold : m.find? address = some old) (hroom : t.space * t.dtype.size ≤ old.size)
    (hfit : fits → t.Addressable ∧ op.Roomy (rs.map Resident.shape)) (hlist : fits → t.Listable)
    (hfits : fits → ∀ s ∈ rs.map Resident.shape, s.Addressable)
    (hd : op.denote t (rs.map Resident.tensor) = some v) :
    (m.execute ⟨op, ⟨address, t⟩, rs.map Resident.operand⟩).Ends fits
      (Written m address old t v) := by
  have hstd := Shape.isStandard_of_standard (h.isStandard hc)
  have hshaped := shaped_of_keeps hk
  have hlens := Operator.lens_of_denote h (Operator.isParameter_of_isCompute hc) hshaped hd
  by_cases hn : op = .contiguous
  · subst hn
    match rs, h, hk, hd, hlens, hfits with
    | [r], h, hk, hd, hlens, hfits =>
      cases hd
      have hdtype : t.dtype = r.shape.dtype := by
        cases h with
        | contiguous ht => exact (Shape.asStandard_eq_some ht).2
      rw [List.map_singleton, execute_contiguous]
      dsimp only
      rw [hdtype]
      refine Outcome.Ends.bind ((hk r List.mem_cons_self).view_ends fun hf =>
        hfits hf r.shape List.mem_cons_self) ?_
      rintro u ⟨-, hagrees, hstorable⟩
      rw [← hdtype] at hstorable ⊢
      refine Outcome.Ends.bind (Kernel.held_gives fun hf => ?_).ends ?_
      · rw [hagrees.1.trans hlens]
        exact hlist hf
      rintro _ rfl
      refine (store_ends hstd (hagrees.1.trans hlens) hstorable hold hroom
        fun hf => (hfit hf).1).mono ?_
      rintro m' ⟨bytes, rfl, hsize, hread⟩
      exact ⟨bytes, rfl, hsize, hread.trans hagrees⟩
  · obtain ⟨hfloat, hdtypes⟩ := h.isFloat hc hn
    obtain ⟨num, hnum⟩ := Operator.exists_arithmetic hfloat
    rw [execute_of_ne_contiguous hn]
    dsimp only
    rw [hnum]
    refine Outcome.Ends.bind (mapM_view_ends hk hdtypes hfits) ?_
    rintro us ⟨haddrs, hagrees, hstorables⟩
    obtain ⟨u, hu, hvu⟩ := Operator.denote_congr h hshaped hagrees hd
    have hshaped' := hshaped.congr hagrees
    refine Outcome.Ends.bind (Kernel.run_ends h hc hn hnum hshaped'
      (fun s hs n hn => (haddrs s hs).extent_le (hp s hs) hn)
      (fun hf => (hfit hf).1.isCountable) (fun hf => Dtype.size_arithmetic hnum ▸ hlist hf)
      (fun hf => (hfit hf).2) hu) ?_
    rintro _ rfl
    refine (store_ends hstd (hvu.1.symm.trans hlens)
      (Operator.storable_denote h hc hshaped' hstorables hu) hold hroom
      fun hf => (hfit hf).1).mono ?_
    rintro m' ⟨bytes, rfl, hsize, hread⟩
    exact ⟨bytes, rfl, hsize, hread.trans hvu.symm⟩

end Launch

/-! ## What a launch does not name -/

end Memory

def Launch.addresses (launch : Launch) : List Nat :=
  launch.output.address :: launch.inputs.map Operand.address

namespace Memory

variable {m m' : Memory} {launch : Launch} {launches : List Launch} {address : Nat} {b : Bytes}

theorem view_cons {operand : Operand} (h : operand.address ≠ address) (d : Dtype) :
    view ((address, b) :: m) operand d = view m operand d := by
  unfold view
  rw [find?_cons, if_neg h]

theorem mapM_view_cons {operands : List Operand} (h : address ∉ operands.map Operand.address)
    (d : Dtype) : (operands.mapM fun i => view ((address, b) :: m) i d) =
      operands.mapM fun i => view m i d := by
  induction operands with
  | nil => rfl
  | cons operand operands ih =>
    rw [List.map_cons, List.mem_cons, not_or] at h
    rw [List.mapM_cons, List.mapM_cons, view_cons (Ne.symm h.1), ih h.2]

theorem store_cons {operand : Operand} (h : operand.address ≠ address) (d : Dtype) (t : Tensor) :
    store ((address, b) :: m) operand d t = do return (address, b) :: (← store m operand d t) := by
  have hreplace : ∀ bytes, replace ((address, b) :: m) operand.address bytes =
      (address, b) :: replace m operand.address bytes := by
    intro bytes
    show (if address = operand.address then (address, bytes) else (address, b)) :: _ = _
    rw [if_neg (Ne.symm h)]
    rfl
  unfold store
  rw [bind_assoc]
  refine congrArg _ (funext fun _ => ?_)
  rw [find?_cons, if_neg h]
  cases m.find? operand.address with
  | none => rfl
  | some bytes =>
    dsimp only
    by_cases haddr : operand.shape.isAddressable d.size = true
    · rw [if_pos haddr, if_pos haddr, hreplace]
      rfl
    · rw [if_neg haddr, if_neg haddr]
      rfl

/-- An allocation that a launch does not name plays no part in it. -/
theorem execute_cons (h : address ∉ launch.addresses) :
    execute ((address, b) :: m) launch = do return (address, b) :: (← execute m launch) := by
  obtain ⟨op, output, inputs⟩ := launch
  rw [Launch.addresses, List.mem_cons, not_or] at h
  obtain ⟨hout, hin⟩ := h
  by_cases hn : op = .contiguous
  · subst hn
    cases inputs with
    | nil => rfl
    | cons input rest =>
      have hview : input.address ≠ address := fun heq => hin (heq ▸ List.mem_cons_self)
      rw [execute_contiguous, execute_contiguous, view_cons hview, bind_assoc]
      refine congrArg _ (funext fun v => ?_)
      rw [bind_assoc]
      exact congrArg _ (funext fun copy => store_cons (Ne.symm hout) _ _)
  · rw [execute_of_ne_contiguous hn, execute_of_ne_contiguous hn]
    cases output.shape.dtype.arithmetic with
    | none => rfl
    | some num =>
      dsimp only
      rw [mapM_view_cons hin]
      simp only [bind_assoc, store_cons (Ne.symm hout)]

theorem runAll_cons_of_notMem (h : ∀ launch ∈ launches, address ∉ launch.addresses) :
    runAll ((address, b) :: m) launches =
      (runAll m launches).map fun r => ((address, b) :: r.1, r.2) := by
  induction launches generalizing m with
  | nil => rfl
  | cons launch launches ih =>
    rw [List.forall_mem_cons] at h
    rw [runAll_cons, runAll_cons, execute_cons h.1]
    cases m.execute launch with
    | value m' => exact ih h.2
    | refused e => rfl
    | halted => rfl

/-! ## Sizes -/

def SameSizes (m m' : Memory) : Prop :=
  ∀ address, (m'.find? address).map Array.size = (m.find? address).map Array.size

theorem SameSizes.find? (h : SameSizes m m') (hb : m.find? address = some b) :
    ∃ bytes, m'.find? address = some bytes ∧ bytes.size = b.size := by
  have hsize := h address
  rw [hb] at hsize
  exact Option.map_eq_some_iff.mp hsize

theorem sameSizes_replace {new : Bytes} (hb : m.find? address = some b)
    (hsize : new.size = b.size) : SameSizes m (m.replace address new) := by
  intro other
  rw [find?_replace]
  by_cases ho : other = address
  · subst ho
    rw [if_pos rfl, hb]
    exact congrArg some hsize
  · rw [if_neg ho]

theorem execute_eq_value (h : m.execute launch = .value m') :
    ∃ old new, m.find? launch.output.address = some old ∧ new.size = old.size ∧
      m' = m.replace launch.output.address new := by
  have hstore : ∀ {operand : Operand} {d : Dtype} {t : Tensor}, m.store operand d t = .value m' →
      ∃ old new, m.find? operand.address = some old ∧ new.size = old.size ∧
        m' = m.replace operand.address new := by
    intro operand d t h
    unfold store at h
    obtain ⟨_, -, h⟩ := Outcome.bind_eq_value.mp h
    cases hfind : m.find? operand.address with
    | none =>
      rw [hfind] at h
      cases h
    | some bytes =>
      rw [hfind] at h
      dsimp only at h
      split at h
      · cases h
        exact ⟨bytes, _, rfl, size_scatter _ _ _ _ _, rfl⟩
      · cases h
  obtain ⟨op, output, inputs⟩ := launch
  by_cases hn : op = .contiguous
  · subst hn
    cases inputs with
    | nil => cases h
    | cons input rest =>
      obtain ⟨v, -, h⟩ := Outcome.bind_eq_value.mp h
      obtain ⟨copy, -, h⟩ := Outcome.bind_eq_value.mp h
      exact hstore h
  · rw [execute_of_ne_contiguous hn] at h
    split at h
    · obtain ⟨views, -, h⟩ := Outcome.bind_eq_value.mp h
      obtain ⟨t, -, h⟩ := Outcome.bind_eq_value.mp h
      exact hstore h
    · cases h

theorem sameSizes_of_execute (h : m.execute launch = .value m') : SameSizes m m' := by
  obtain ⟨old, new, hold, hsize, rfl⟩ := execute_eq_value h
  exact sameSizes_replace hold hsize

theorem sameSizes_of_runAll {stop : Option Stop} (h : runAll m launches = some (m', stop)) :
    SameSizes m m' := by
  induction launches generalizing m with
  | nil =>
    cases h
    exact fun _ => rfl
  | cons launch launches ih =>
    rw [runAll_cons] at h
    cases he : m.execute launch with
    | value next =>
      rw [he] at h
      exact fun address => (ih h address).trans (sameSizes_of_execute he address)
    | refused e =>
      rw [he] at h
      cases h
      exact fun _ => rfl
    | halted =>
      rw [he] at h
      cases h

/-! ## One launch more -/

theorem runAll_concat (m : Memory) (launches : List Launch) (launch : Launch) :
    runAll m (launches ++ [launch]) =
      match runAll m launches with
      | some (m', none) => runAll m' [launch]
      | some (m', some stop) => some (m', some { stop with dropped := stop.dropped + 1 })
      | none => none := by
  induction launches generalizing m with
  | nil => rfl
  | cons first launches ih =>
    rw [List.cons_append, runAll_cons, runAll_cons]
    cases m.execute first with
    | value next => exact ih next
    | refused e =>
      dsimp only
      rw [List.length_append]
      rfl
    | halted => rfl

end Memory
end TensorGraph
