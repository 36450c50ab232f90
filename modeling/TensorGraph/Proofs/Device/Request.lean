/-
Requests for memory, of every size.

A device with a capacity adds the bytes that are live to those that are asked for and compares the
sum with the capacity.  The sum is formed as a word, so for a request near the end of the range it
has no answer where the comparison would refuse it: `alloc_not_total`.  A request that passes the
comparison still needs an address and a block of the host, `Placeable`.

The result is `alloc_decided`: on every device that calls have led to, and for every size, it says
whether a request is granted, refused or halts, and what is left behind.
-/
import TensorGraph.Proofs.Device.Grown

namespace TensorGraph
namespace Device

variable {d d' : Device} {capacity bytes : Nat}

/-- Whether the addresses that are left and the blocks that a host can hold are enough. -/
def Placeable (d : Device) (bytes : Nat) : Prop :=
  d.next + footprint bytes ≤ Word.maxUnsigned ∧ (bytes + 7) / 8 * 8 ≤ Word.maxSigned

instance (d : Device) (bytes : Nat) : Decidable (d.Placeable bytes) :=
  inferInstanceAs (Decidable (_ ∧ _))

theorem room_iff : d.Room bytes ↔
    d.Placeable bytes ∧ d.stats.liveBytes + bytes ≤ Word.maxUnsigned :=
  and_assoc.symm

theorem exceeds_iff (hc : d.capacity = some capacity) : d.Exceeds bytes ↔
    capacity < d.stats.liveBytes + bytes ∧ d.stats.liveBytes + bytes ≤ Word.maxUnsigned := by
  constructor
  · rintro ⟨c, hsome, hword, hlt⟩
    rw [hc] at hsome
    cases hsome
    exact ⟨hlt, hword⟩
  · rintro ⟨hlt, hword⟩
    exact ⟨capacity, hc, hword, hlt⟩

/-! ## The three ends of a request -/

theorem alloc_of_exceeds (hc : d.capacity = some capacity)
    (hlt : capacity < d.stats.liveBytes + bytes)
    (hword : d.stats.liveBytes + bytes ≤ Word.maxUnsigned) :
    alloc bytes d = .refused (.device .alloc (.outOfMemory bytes d.stats.liveBytes capacity)) d := by
  have hexceeds := (exceeds_iff hc).mpr ⟨hlt, hword⟩
  rcases alloc_cases d bytes with ⟨-, -, hwithin⟩ | ⟨c, hsome, -, hrefused⟩ | ⟨-, -, hwithin⟩
  · exact absurd hexceeds hwithin
  · rw [hc] at hsome
    cases hsome
    exact hrefused
  · exact absurd hexceeds hwithin

theorem alloc_of_not_word (hc : d.capacity = some capacity)
    (hlt : Word.maxUnsigned < d.stats.liveBytes + bytes) : alloc bytes d = .halted := by
  rcases alloc_cases d bytes with ⟨-, hroom, -⟩ | ⟨c, -, hexceeds, -⟩ | ⟨hhalt, -⟩
  · exact absurd hroom.2.2 (Nat.not_le.mpr hlt)
  · exact absurd ((exceeds_iff hc).mp hexceeds).2 (Nat.not_le.mpr hlt)
  · exact hhalt

theorem alloc_of_within (hc : d.capacity = some capacity) (hcap : capacity ≤ Word.maxUnsigned)
    (hle : d.stats.liveBytes + bytes ≤ capacity) :
    alloc bytes d = if d.Placeable bytes then .value d.next (d.granted bytes) else .halted := by
  have hwithin : ¬d.Exceeds bytes := fun h =>
    absurd ((exceeds_iff hc).mp h).1 (Nat.not_lt.mpr hle)
  have hroom : d.Room bytes ↔ d.Placeable bytes :=
    room_iff.trans (and_iff_left (hle.trans hcap))
  rcases alloc_cases d bytes with ⟨hvalue, hplace, -⟩ | ⟨c, -, hexceeds, -⟩ | ⟨hhalt, hnone, -⟩
  · rw [hvalue, if_pos (hroom.mp hplace)]
  · exact absurd hexceeds hwithin
  · rw [hhalt, if_neg fun hplace => hnone (hroom.mpr hplace)]

/-! ## Reached devices -/

/-- Whether a device has a new allocation of zeros at an address, and nothing else has changed in
its memory or in what is queued. -/
structure Provides (d : Device) (bytes address : Nat) (d' : Device) : Prop where
  fresh : d.memory.find? address = none
  unnamed : ∀ launch ∈ d.queue, address ∉ launch.addresses
  zeroed : d'.memory.find? address = some (Bytes.zeros bytes)
  others : ∀ other, other ≠ address → d'.memory.find? other = d.memory.find? other
  queue : d'.queue = d.queue
  liveBytes : d'.stats.liveBytes = d.stats.liveBytes + bytes

/-- The next address of a reached device is in use nowhere. -/
theorem Ordered.provides_granted (h : d.Ordered) (bytes : Nat) :
    d.Provides bytes d.next (d.granted bytes) where
  fresh := by
    rw [Option.eq_none_iff_forall_not_mem]
    exact fun b hfind => Nat.lt_irrefl _ (h.memory d.next b hfind)
  unnamed launch hl ha := Nat.lt_irrefl _ (h.queue launch hl d.next ha)
  zeroed := (Memory.find?_cons d.next _ d.memory d.next).trans (if_pos rfl)
  others other hne := (Memory.find?_cons d.next _ d.memory other).trans (if_neg hne)
  queue := rfl
  liveBytes := rfl

/-- On a device with a capacity, whatever calls have led to it, the size of a request decides how
the request ends.  It is granted exactly if what is allocated and what is asked for are within the
capacity and there is a place; it is refused, and leaves the device as it was, exactly if they are
beyond the capacity and their sum is a word; otherwise it halts. -/
theorem alloc_decided (h : d.Reached) (hc : d.capacity = some capacity)
    (hcap : capacity ≤ Word.maxUnsigned) (bytes : Nat) :
    d.stats.liveBytes = (d.memory.layout.map Prod.snd).sum ∧
    ((∃ address d', alloc bytes d = .value address d') ↔
      d.stats.liveBytes + bytes ≤ capacity ∧ d.Placeable bytes) ∧
    (∀ address d', alloc bytes d = .value address d' → d.Provides bytes address d') ∧
    ((∃ e d', alloc bytes d = .refused e d') ↔
      capacity < d.stats.liveBytes + bytes ∧ d.stats.liveBytes + bytes ≤ Word.maxUnsigned) ∧
    (∀ e d', alloc bytes d = .refused e d' →
      d' = d ∧ e = .device .alloc (.outOfMemory bytes d.stats.liveBytes capacity)) ∧
    (alloc bytes d = .halted ↔ Word.maxUnsigned < d.stats.liveBytes + bytes ∨
      d.stats.liveBytes + bytes ≤ capacity ∧ ¬d.Placeable bytes) := by
  refine ⟨h.booked.liveBytes, ?_⟩
  rcases Nat.lt_or_ge Word.maxUnsigned (d.stats.liveBytes + bytes) with hbig | hword
  · -- beyond the words, and so beyond the capacity
    rw [alloc_of_not_word hc hbig]
    have hbeyond : ¬d.stats.liveBytes + bytes ≤ capacity := by omega
    have hnot : ¬d.stats.liveBytes + bytes ≤ Word.maxUnsigned := Nat.not_le.mpr hbig
    simp [hbeyond, hnot, hbig]
  rcases Nat.lt_or_ge capacity (d.stats.liveBytes + bytes) with hlt | hle
  · rw [alloc_of_exceeds hc hlt hword]
    have hnot : ¬d.stats.liveBytes + bytes ≤ capacity := Nat.not_le.mpr hlt
    have hsmall : ¬Word.maxUnsigned < d.stats.liveBytes + bytes := Nat.not_lt.mpr hword
    simp [hnot, hsmall, hlt, hword, eq_comm]
  · rw [alloc_of_within hc hcap hle]
    have hwithin : ¬capacity < d.stats.liveBytes + bytes := Nat.not_lt.mpr hle
    have hsmall : ¬Word.maxUnsigned < d.stats.liveBytes + bytes := Nat.not_lt.mpr hword
    by_cases hplace : d.Placeable bytes
    · rw [if_pos hplace]
      simp [hle, hplace, hwithin, hsmall, h.ordered.provides_granted bytes]
    · rw [if_neg hplace]
      simp [hle, hplace, hwithin]

def tight : Device := granted { capacity := some 16 } 12

theorem reached_tight : tight.Reached := by
  have halloc : alloc 12 { capacity := some 16 } = .value 4096 tight :=
    (alloc_of_within (d := { capacity := some 16 }) rfl (by decide) (by decide)).trans
      (if_pos (by decide))
  exact ⟨some 16, [], .single (.alloc (Or.inl ⟨4096, halloc⟩))⟩

/-- Four bytes more fit, and five do not.  The largest size that is refused is the one that makes
the sum the largest word; one byte more, and the request halts. -/
theorem alloc_decided_tight :
    tight.Reached ∧ tight.capacity = some 16 ∧ 16 ≤ Word.maxUnsigned ∧
    (∃ address d', alloc 4 tight = .value address d' ∧ tight.Provides 4 address d') ∧
    (∃ e, alloc 5 tight = .refused e tight) ∧
    (∃ e, alloc (2 ^ 64 - 13) tight = .refused e tight) ∧
    alloc (2 ^ 64 - 12) tight = .halted := by
  have hcap : 16 ≤ Word.maxUnsigned := by decide
  obtain ⟨-, hgranted, hprovides, -⟩ := alloc_decided reached_tight rfl hcap 4
  obtain ⟨-, -, -, hfive, hsame, -⟩ := alloc_decided reached_tight rfl hcap 5
  obtain ⟨-, -, -, hlast, hsame', -⟩ := alloc_decided reached_tight rfl hcap (2 ^ 64 - 13)
  obtain ⟨-, -, -, -, -, hhalted⟩ := alloc_decided reached_tight rfl hcap (2 ^ 64 - 12)
  obtain ⟨address, d', hvalue⟩ := hgranted.mpr (by decide)
  obtain ⟨e, d₅, hrefused⟩ := hfive.mpr (by decide)
  obtain ⟨e', d₆, hrefused'⟩ := hlast.mpr (by decide)
  obtain ⟨rfl, -⟩ := hsame _ _ hrefused
  obtain ⟨rfl, -⟩ := hsame' _ _ hrefused'
  exact ⟨reached_tight, rfl, hcap, ⟨address, d', hvalue, hprovides _ _ hvalue⟩, ⟨e, hrefused⟩,
    ⟨e', hrefused'⟩, hhalted.mpr (by decide)⟩

/-- The largest request is far beyond the capacity and is not refused. -/
theorem alloc_not_total : ∃ d : Device, d.Reached ∧ d.capacity = some 16 ∧
    d.stats.liveBytes = 12 ∧ 16 < 12 + (2 ^ 64 - 1) ∧ alloc (2 ^ 64 - 1) d = .halted :=
  ⟨tight, reached_tight, rfl, rfl, by decide, alloc_of_not_word rfl (by decide)⟩

end Device
end TensorGraph
