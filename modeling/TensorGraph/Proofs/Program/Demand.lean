/-
The memory that an evaluation needs.

An upload and a launch put their value in a buffer of its own, and a view is in the buffer of what
it views.  So the instructions say which buffers the values with a use to come are in, `heldAt`,
and how many bytes those have; `Affords` says that what is made fits in beside them.
`World.Grown.liveBytes` counts what has come to be allocated on a device by the buffers that have
come to be held.
-/
import TensorGraph.Proofs.Isolation.World
import TensorGraph.Proofs.Program.Walk

namespace TensorGraph

namespace Instruction

def bytes (i : Instruction) : Nat := i.shape.storageBytes.getD 0

def allocates (i : Instruction) : Bool :=
  match i.kernel with
  | some (.upload _) | some (.launch _ _) => true
  | _ => false

/-- The instruction that made the buffer of a value, given those of the values before.  There is
none for a value on the host, or in a buffer that was there before. -/
def origin (earlier : List (Option Nat)) (i : Instruction) : Option Nat :=
  if i.allocates then some earlier.length
  else
    match i.kernel, i.inputs with
    | some (.view _), r :: _ => earlier.getD r none
    | _, _ => none

end Instruction

namespace Program

variable {is js : List Instruction} {i : Instruction} {k j r : Nat}

/-! ## Origins -/

def origins (is : List Instruction) : List (Option Nat) :=
  is.foldl (fun earlier i => earlier ++ [i.origin earlier]) []

def origin? (is : List Instruction) (k : Nat) : Option Nat := (origins is).getD k none

theorem origins_concat (is : List Instruction) (i : Instruction) :
    origins (is ++ [i]) = origins is ++ [i.origin (origins is)] := by
  unfold origins
  rw [List.foldl_append]
  rfl

theorem length_origins (is : List Instruction) : (origins is).length = is.length := by
  induction is using List.reverseRecOn with
  | nil => rfl
  | append_singleton is i ih => rw [origins_concat, List.length_append, List.length_append, ih]; rfl

/-- What comes later plays no part. -/
theorem origin?_append (hk : k < is.length) (js : List Instruction) :
    origin? (is ++ js) k = origin? is k := by
  induction js using List.reverseRecOn with
  | nil => rw [List.append_nil]
  | append_singleton js j ih =>
    have hlt : k < (origins (is ++ js)).length := by
      rw [length_origins, List.length_append]
      omega
    rw [← ih, ← List.append_assoc, origin?, origins_concat, List.getD_eq_getElem?_getD,
      List.getElem?_append_left hlt, ← List.getD_eq_getElem?_getD, origin?]

theorem origin?_eq (hi : is[k]? = some i) : origin? is k = i.origin (origins (is.take k)) := by
  obtain ⟨hlt, rfl⟩ := List.getElem?_eq_some_iff.mp hi
  have hlen : (origins (is.take k)).length = k := by
    rw [length_origins, List.length_take_of_le (Nat.le_of_lt hlt)]
  have hsplit : is = (is.take k ++ [is[k]]) ++ is.drop (k + 1) := by
    rw [List.append_assoc, List.singleton_append, ← List.drop_eq_getElem_cons hlt,
      List.take_append_drop]
  conv_lhs => rw [hsplit]
  rw [origin?_append (by simp; omega), origin?, origins_concat, List.getD_eq_getElem?_getD,
    List.getElem?_append_right (Nat.le_of_eq hlen), hlen, Nat.sub_self]
  rfl

theorem origin?_of_allocates (hi : is[k]? = some i) (ha : i.allocates = true) :
    origin? is k = some k := by
  rw [origin?_eq hi, Instruction.origin, if_pos ha, length_origins,
    List.length_take_of_le (Nat.le_of_lt (List.getElem?_eq_some_iff.mp hi).1)]

/-- A view is in the buffer of what it views. -/
theorem origin?_of_view {name : String} {rest : List Nat} (hi : is[k]? = some i)
    (hkernel : i.kernel = some (.view name)) (hin : i.inputs = r :: rest) (hr : r < k) :
    origin? is k = origin? is r := by
  have hlt := (List.getElem?_eq_some_iff.mp hi).1
  have hearlier : origin? (is.take k) r = origin? is r := by
    conv_rhs => rw [← List.take_append_drop k is]
    rw [origin?_append (by rw [List.length_take_of_le (Nat.le_of_lt hlt)]; exact hr)]
  rw [origin?_eq hi, ← hearlier]
  unfold Instruction.origin Instruction.allocates
  rw [hkernel, hin]
  rfl

theorem origin?_eq_none (hi : is[k]? = some i) (ha : i.allocates = false)
    (hview : ∀ name, i.kernel ≠ some (.view name)) : origin? is k = none := by
  rw [origin?_eq hi, Instruction.origin, ha, if_neg Bool.false_ne_true]
  split
  · next name _ _ hkernel _ => exact absurd hkernel (hview name)
  · rfl

theorem lt_length_of_origin? (h : origin? is k = some r) : k < is.length := by
  by_contra hge
  rw [origin?, List.getD_eq_getElem?_getD,
    List.getElem?_eq_none (by rw [length_origins]; exact Nat.not_lt.mp hge)] at h
  cases h

/-- A buffer is made before the values that are in it, or for them. -/
theorem origin?_le (h : origin? is k = some r) : r ≤ k := by
  induction is using List.reverseRecOn generalizing k r with
  | nil => cases h
  | append_singleton is i ih =>
    have hlen := lt_length_of_origin? h
    rw [List.length_append, List.length_singleton] at hlen
    rcases Nat.lt_or_eq_of_le (Nat.le_of_lt_succ hlen) with hlt | rfl
    · rw [origin?_append hlt] at h
      exact ih h
    · rw [origin?, origins_concat, List.getD_eq_getElem?_getD, ← length_origins,
        List.getElem?_concat_length, Option.getD_some] at h
      unfold Instruction.origin at h
      split at h
      · cases h
        exact Nat.le_of_eq (length_origins is)
      · split at h
        · exact (ih h).trans (Nat.le_of_lt (lt_length_of_origin? h))
        · cases h

/-! ## Buffers with a use to come -/

instance (is : List Instruction) (k j : Nat) : Decidable (Live is k j) :=
  decidable_of_iff (j < k ∧ (j + 1 = is.length ∨ ∃ i ∈ is.drop k, j ∈ i.inputs)) <| by
    apply and_congr_right
    intro _
    apply or_congr_right
    constructor
    · rintro ⟨i, hi, hj⟩
      obtain ⟨n, hn⟩ := List.mem_iff_getElem?.mp hi
      rw [List.getElem?_drop] at hn
      exact ⟨k + n, Nat.le_add_right k n, i, hn, hj⟩
    · rintro ⟨m, hle, i, hi, hj⟩
      refine ⟨i, List.mem_iff_getElem?.mpr ⟨m - k, ?_⟩, hj⟩
      rw [List.getElem?_drop, Nat.add_sub_cancel' hle]
      exact hi

def heldAt (is : List Instruction) (k : Nat) : Finset Nat :=
  ((List.range k).filterMap fun j => if Live is k j then origin? is j else none).toFinset

def bytesAt (is : List Instruction) (r : Nat) : Nat := (is[r]?.map Instruction.bytes).getD 0

/-- The bytes of the buffers that the values with a use to come are in, each of them once. -/
def heldBytes (is : List Instruction) (k : Nat) : Nat := ∑ r ∈ heldAt is k, bytesAt is r

/-- Whether a buffer that the instruction at a position makes fits in a capacity beside those that
have a use to come, if others take so many bytes. -/
def AffordsAt (others capacity : Nat) (is : List Instruction) (k : Nat) : Prop :=
  ∀ i, is[k]? = some i → i.allocates = true → others + heldBytes is k + i.bytes ≤ capacity

/-- Whether every buffer that is made fits in. -/
def Affords (others capacity : Nat) (is : List Instruction) : Prop :=
  ∀ k, AffordsAt others capacity is k

instance (others capacity : Nat) (is : List Instruction) (k : Nat) :
    Decidable (AffordsAt others capacity is k) :=
  inferInstanceAs (Decidable (∀ i ∈ is[k]?, i.allocates = true →
    others + heldBytes is k + i.bytes ≤ capacity))

theorem affords_iff {others capacity : Nat} :
    Affords others capacity is ↔ ∀ k < is.length, AffordsAt others capacity is k := by
  refine ⟨fun h k _ => h k, fun h k i hi => ?_⟩
  exact h k (List.getElem?_eq_some_iff.mp hi).1 i hi

instance (others capacity : Nat) (is : List Instruction) : Decidable (Affords others capacity is) :=
  decidable_of_iff _ affords_iff.symm

/-- Where not everything fits in there is a first that does not. -/
theorem exists_first_of_not_affords {others capacity : Nat} (h : ¬Affords others capacity is) :
    ∃ k i, is[k]? = some i ∧ (∀ m < k, AffordsAt others capacity is m) ∧
      ¬AffordsAt others capacity is k := by
  have hsome : ∃ k, ¬AffordsAt others capacity is k := not_forall.mp h
  obtain ⟨i, hi⟩ : ∃ i, is[Nat.find hsome]? = some i := by
    by_contra hnone
    exact Nat.find_spec hsome fun i hi => absurd ⟨i, hi⟩ hnone
  exact ⟨Nat.find hsome, i, hi, fun m hm => not_not.mp (Nat.find_min hsome hm),
    Nat.find_spec hsome⟩

theorem bytesAt_of_getElem? (hi : is[k]? = some i) : bytesAt is k = i.bytes := by
  rw [bytesAt, hi]
  rfl

theorem mem_heldAt : r ∈ heldAt is k ↔ ∃ j, Live is k j ∧ origin? is j = some r := by
  rw [heldAt, List.mem_toFinset, List.mem_filterMap]
  constructor
  · rintro ⟨j, -, h⟩
    split at h
    · next hlive => exact ⟨j, hlive, h⟩
    · cases h
  · rintro ⟨j, hlive, h⟩
    refine ⟨j, List.mem_range.mpr hlive.1, ?_⟩
    rw [if_pos hlive]
    exact h

theorem lt_of_mem_heldAt (h : r ∈ heldAt is k) : r < k := by
  obtain ⟨j, hlive, horigin⟩ := mem_heldAt.mp h
  exact (origin?_le horigin).trans_lt hlive.1

/-- What has a use behind an instruction had one before it, unless the instruction made it. -/
theorem heldAt_succ_subset (hb : Backward is) (hi : is[k]? = some i) :
    heldAt is (k + 1) ⊆ if i.allocates then insert k (heldAt is k) else heldAt is k := by
  intro r hr
  obtain ⟨j, ⟨hlt, huse⟩, horigin⟩ := mem_heldAt.mp hr
  by_cases hj : j = k
  · subst hj
    cases ha : i.allocates with
    | true =>
      rw [origin?_of_allocates hi ha] at horigin
      cases horigin
      exact Finset.mem_insert_self _ _
    | false =>
      rw [if_neg Bool.false_ne_true]
      have hview : ∃ name, i.kernel = some (.view name) := by
        by_contra hno
        rw [origin?_eq_none hi ha fun name heq => hno ⟨name, heq⟩] at horigin
        cases horigin
      obtain ⟨name, hkernel⟩ := hview
      cases hin : i.inputs with
      | nil =>
        rw [origin?_eq hi] at horigin
        unfold Instruction.origin Instruction.allocates at horigin
        rw [hkernel, hin] at horigin
        cases horigin
      | cons s rest =>
        have hread : ReadsAt is j s := ⟨i, hi, hin ▸ List.mem_cons_self⟩
        rw [origin?_of_view hi hkernel hin (hb j s hread)] at horigin
        exact mem_heldAt.mpr ⟨s, live_of_readsAt hb hread, horigin⟩
  · have hlive : Live is k j :=
      ⟨by omega, huse.imp_right fun ⟨m, hle, hread⟩ => ⟨m, by omega, hread⟩⟩
    have hmem : r ∈ heldAt is k := mem_heldAt.mpr ⟨j, hlive, horigin⟩
    split
    · exact Finset.mem_insert_of_mem hmem
    · exact hmem

end Program

/-! ## What is allocated -/

namespace World

variable {v w : World} {bs : List DeviceBuffer} {id : DeviceId} {d₀ d : Device}

/-- What a device has live is what it had live before, and the buffers that have come to be held
since, each of them once. -/
theorem Grown.liveBytes {held : Finset Nat} {address size : Nat → Nat} (h : v.Grown bs w)
    (hd₀ : v.devices[id]? = some d₀) (hd : w.devices[id]? = some d)
    (hapart : Set.InjOn address held)
    (hheld : ∀ r ∈ held, d₀.next ≤ address r ∧ ⟨id, address r, size r⟩ ∈ bs)
    (hother : ∀ b ∈ bs, b ∉ v.held → b.device = id → ∃ r ∈ held, b = ⟨id, address r, size r⟩) :
    d.stats.liveBytes = d₀.stats.liveBytes + ∑ r ∈ held, size r := by
  obtain ⟨d₁, hd₁, hgrown, hused⟩ := h.devices id d hd
  rw [hd₀] at hd₁
  cases hd₁
  let early : Nat × Nat → Bool := fun e => decide (e.1 < d₀.next)
  let late := d.memory.layout.filter fun e => !early e
  have hnodup : late.Nodup := by
    have hkeys : (d.memory.layout.map Prod.fst).Nodup := by
      rw [Memory.map_fst_layout]
      exact hgrown.firm.nodup
    exact (List.Nodup.of_map Prod.fst hkeys).filter _
  have hlate : late.toFinset = held.image fun r => (address r, size r) := by
    ext ⟨a, n⟩
    rw [List.mem_toFinset, List.mem_filter, Finset.mem_image]
    constructor
    · rintro ⟨hmem, hle⟩
      have hle' : d₀.next ≤ a := by simpa [early] using hle
      have hbs := hused (a, n) hmem hle'
      have hlater : Later v w ⟨id, a, n⟩ := ⟨d₀, d, hd₀, hd, hle', hmem⟩
      obtain ⟨r, hr, heq⟩ := hother ⟨id, a, n⟩ hbs (fun hold => h.base.not_later hold hlater) rfl
      cases heq
      exact ⟨r, hr, rfl⟩
    · rintro ⟨r, hr, heq⟩
      cases heq
      obtain ⟨hle, hmem⟩ := hheld r hr
      obtain ⟨d', hd', hlayout⟩ := h.allocated (List.mem_append_left _ hmem)
      rw [hd] at hd'
      cases hd'
      exact ⟨hlayout, by simpa [early] using hle⟩
  have hsplit := ((List.filter_append_perm early d.memory.layout).map Prod.snd).sum_eq
  rw [List.map_append, List.sum_append] at hsplit
  have hearly : (d.memory.layout.filter early).map Prod.snd = d₀.memory.layout.map Prod.snd :=
    congrArg _ hgrown.layout
  rw [hgrown.firm.liveBytes, ← hsplit, hearly, ← (h.base.device hd₀).liveBytes]
  apply congrArg
  show (late.map Prod.snd).sum = _
  rw [← List.sum_toFinset Prod.snd hnodup, hlate, Finset.sum_image]
  intro r hr r' hr' heq
  exact hapart hr hr' (congrArg Prod.fst heq)

end World
end TensorGraph
