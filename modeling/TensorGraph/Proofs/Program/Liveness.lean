/-
Which instructions the output depends on.

`Needed is k` says that position `k` is reached from the last one by going from readers to
what they read.  Dead code elimination computes this in one sweep from the last instruction
to the first: inputs point backwards, so when the sweep comes to a position, every
instruction that could read it has been looked at.  `MarkedDownTo` is the invariant, and
`liveTable_eq` says that the table marks the needed positions and no others.
-/
import TensorGraph.Proofs.Program.Passes
import Mathlib.Logic.Relation

namespace TensorGraph
namespace Program

variable {is : List Instruction} {live : List Bool} {n k r : Nat}

def ReadsAt (is : List Instruction) (k r : Nat) : Prop :=
  ∃ i, is[k]? = some i ∧ r ∈ i.inputs

/-- Whether the last instruction depends on position `k`. -/
def Needed (is : List Instruction) (k : Nat) : Prop :=
  Relation.ReflTransGen (ReadsAt is) (is.length - 1) k

/-- Whether instructions read earlier ones only. -/
def Backward (is : List Instruction) : Prop :=
  ∀ k r, ReadsAt is k r → r < k

theorem Consistent.backward (h : Consistent is) : Backward is := by
  intro k r hkr
  obtain ⟨i, hi, hr⟩ := hkr
  exact h.inputs_lt hi r hr

theorem ReadsAt.lt_length (h : ReadsAt is k r) : k < is.length := by
  obtain ⟨i, hi, -⟩ := h
  exact (List.getElem?_eq_some_iff.mp hi).1

/-- A position is needed if it is the last or something needed reads it. -/
theorem needed_iff : Needed is k ↔ k = is.length - 1 ∨ ∃ j, Needed is j ∧ ReadsAt is j k :=
  Relation.ReflTransGen.cases_tail_iff (ReadsAt is) (is.length - 1) k

/-! ## One sweep -/

theorem mark_eq {rs : List Nat} (h : ∀ r ∈ rs, r < live.length) :
    ∃ live', mark live rs = some live' ∧ live'.length = live.length ∧
      ∀ k, live'.getD k false = true ↔ live.getD k false = true ∨ k ∈ rs := by
  induction rs generalizing live with
  | nil => exact ⟨live, rfl, rfl, fun k => by simp⟩
  | cons r rs ih =>
    have hr : r < live.length := h r List.mem_cons_self
    have hlen : (live.set r true).length = live.length := List.length_set
    have hrest : ∀ s ∈ rs, s < (live.set r true).length := by
      intro s hs
      rw [hlen]
      exact h s (List.mem_cons_of_mem r hs)
    obtain ⟨live', hmark, hlen', hmarked⟩ := ih hrest
    refine ⟨live', ?_, hlen'.trans hlen, fun k => ?_⟩
    · show (if r < live.length then mark (live.set r true) rs else none) = some live'
      rw [if_pos hr, hmark]
    · have hset : (live.set r true).getD k false = true ↔ live.getD k false = true ∨ k = r := by
        rw [List.getD_eq_getElem?_getD, List.getD_eq_getElem?_getD, List.getElem?_set]
        by_cases hk : r = k
        · subst hk
          simp [hr]
        · have hk' : ¬k = r := fun h => hk h.symm
          simp [hk, hk']
      rw [hmarked, hset, List.mem_cons, or_assoc]

/-- The marks after the sweep has passed the positions from `n` on: the last position, and
whatever a needed instruction among those passed reads. -/
structure MarkedDownTo (is : List Instruction) (n : Nat) (live : List Bool) : Prop where
  length : live.length = is.length
  marks : ∀ k, live.getD k false = true ↔
    k = is.length - 1 ∨ ∃ j, n ≤ j ∧ Needed is j ∧ ReadsAt is j k

/-- Where the sweep stands, a mark says whether the position is needed. -/
theorem MarkedDownTo.needed_iff (h : MarkedDownTo is (n + 1) live) (hb : Backward is) :
    live.getD n false = true ↔ Needed is n := by
  rw [h.marks, Program.needed_iff]
  refine or_congr_right ⟨?_, ?_⟩
  · intro hj
    obtain ⟨j, -, hneeded, hreads⟩ := hj
    exact ⟨j, hneeded, hreads⟩
  · intro hj
    obtain ⟨j, hneeded, hreads⟩ := hj
    exact ⟨j, hb j n hreads, hneeded, hreads⟩

theorem MarkedDownTo.step (h : MarkedDownTo is (n + 1) live) (hb : Backward is)
    {i : Instruction} (hi : is[n]? = some i) :
    ∃ live', (if live.getD n false then mark live i.inputs else some live) = some live' ∧
      MarkedDownTo is n live' := by
  have hlt : n < is.length := (List.getElem?_eq_some_iff.mp hi).1
  have hreads : ∀ k, ReadsAt is n k ↔ k ∈ i.inputs := by
    intro k
    unfold ReadsAt
    simp [hi]
  by_cases hneeded : Needed is n
  · have hmark : ∀ r ∈ i.inputs, r < live.length := by
      intro r hr
      have hrn : r < n := hb n r ((hreads r).mpr hr)
      rw [h.length]
      omega
    obtain ⟨live', hvalue, hlen, hmarks⟩ := mark_eq hmark
    refine ⟨live', ?_, hlen.trans h.length, fun k => ?_⟩
    · rw [if_pos ((h.needed_iff hb).mpr hneeded), hvalue]
    · rw [hmarks, h.marks, ← hreads, or_assoc]
      refine or_congr_right ⟨?_, ?_⟩
      · intro hk
        rcases hk with ⟨j, hj, hk⟩ | hk
        · exact ⟨j, by omega, hk⟩
        · exact ⟨n, Nat.le_refl n, hneeded, hk⟩
      · intro hk
        obtain ⟨j, hj, hjn, hk⟩ := hk
        by_cases heq : j = n
        · subst heq
          exact Or.inr hk
        · exact Or.inl ⟨j, by omega, hjn, hk⟩
  · refine ⟨live, ?_, h.length, fun k => ?_⟩
    · rw [if_neg fun hmarked => hneeded ((h.needed_iff hb).mp hmarked)]
    · rw [h.marks]
      refine or_congr_right ⟨?_, ?_⟩
      · intro hk
        obtain ⟨j, hj, hk⟩ := hk
        exact ⟨j, by omega, hk⟩
      · intro hk
        obtain ⟨j, hj, hjn, hk⟩ := hk
        have hne : j ≠ n := fun heq => hneeded (heq ▸ hjn)
        exact ⟨j, by omega, hjn, hk⟩

theorem MarkedDownTo.sweep (hb : Backward is) (hn : n ≤ is.length) (h : MarkedDownTo is n live) :
    ∃ live', sweep live (is.take n).reverse = some live' ∧ MarkedDownTo is 0 live' := by
  induction n generalizing live with
  | zero => exact ⟨live, rfl, h⟩
  | succ n ih =>
    have hi : is[n]? = some is[n] := List.getElem?_eq_getElem hn
    have htake : (is.take (n + 1)).reverse = is[n] :: (is.take n).reverse := by
      rw [List.take_add_one, hi, List.reverse_append]
      rfl
    have hlen : (is.take n).reverse.length = n := by
      rw [List.length_reverse, List.length_take]
      omega
    obtain ⟨marked, hstep, hmarked⟩ := h.step hb hi
    obtain ⟨live', hsweep, hdone⟩ := ih (by omega) hmarked
    refine ⟨live', ?_, hdone⟩
    rw [htake]
    unfold Program.sweep
    rw [hlen]
    by_cases hlive : live.getD n false = true
    · rw [if_pos hlive] at hstep ⊢
      show (mark live is[n].inputs).bind _ = _
      rw [hstep]
      exact hsweep
    · rw [if_neg hlive] at hstep ⊢
      cases hstep
      exact hsweep

/-- The table marks the positions that the output depends on, and no others. -/
theorem liveTable_eq {p : Program} (hb : Backward p.instructions) (hne : p.instructions ≠ []) :
    ∃ live, liveTable p = some live ∧ live.length = p.size ∧
      ∀ k, live.getD k false = true ↔ Needed p.instructions k := by
  have hpos : 0 < p.size := List.length_pos_iff.mpr hne
  have hstart : MarkedDownTo p.instructions p.size
      ((List.replicate p.size false).set (p.size - 1) true) := by
    refine ⟨by rw [List.length_set, List.length_replicate]; rfl, fun k => ?_⟩
    have hno : ¬∃ j, p.size ≤ j ∧ Needed p.instructions j ∧ ReadsAt p.instructions j k := by
      intro hj
      obtain ⟨j, hj, -, hreads⟩ := hj
      have hlt : j < p.size := hreads.lt_length
      omega
    rw [or_iff_left hno, List.getD_eq_getElem?_getD, List.getElem?_set, List.length_replicate]
    by_cases hk : p.size - 1 = k
    · rw [if_pos hk, if_pos (by omega)]
      exact ⟨fun _ => hk.symm, fun _ => rfl⟩
    · rw [if_neg hk, List.getElem?_replicate]
      refine ⟨fun h => ?_, fun h => absurd h.symm hk⟩
      split at h
      · cases h
      · cases h
  obtain ⟨live, hsweep, hdone⟩ := hstart.sweep hb (Nat.le_refl _)
  refine ⟨live, ?_, hdone.length, fun k => ?_⟩
  · rw [size, List.take_length] at hsweep
    exact hsweep
  · rw [hdone.marks, needed_iff]
    simp only [Nat.zero_le, true_and]

end Program
end TensorGraph
