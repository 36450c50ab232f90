/-
The sweep of dead code elimination, with every index checked.

`sweep` and the step that keeps or drops an instruction read the table of live positions with
a default, so they say nothing about where they read.  Here stands the same pass with every
index checked: `checkedSweep`, `checkedTable` and `checkedElimination` have no answer, or halt,
where a position is outside the table.  A sweep keeps the length of its table, and so for every
program the checks change nothing, which is `checkedElimination_eq`.

`liveTable_exact` joins this to reachability: where instructions read earlier ones only, the
checks all pass, and the table that one sweep fills marks the positions on a path of inputs from
the last instruction and no others.
-/
import TensorGraph.Proofs.Program.DeadCode

namespace TensorGraph
namespace Program

variable {live live' : List Bool} {is : List Instruction}
variable {i : Instruction} {p q : Program} {k old : Nat}

def checkedSweep (live : List Bool) : List Instruction → Option (List Bool)
  | [] => some live
  | i :: earlier => do
    if ← live[earlier.length]? then checkedSweep (← mark live i.inputs) earlier
    else checkedSweep live earlier

/-- The table of live positions.  The mark of the last position, from which the sweep starts, is
checked as well, so an empty program has no table. -/
def checkedTable (p : Program) : Option (List Bool) := do
  let start ← mark (List.replicate p.size false) [p.size - 1]
  checkedSweep start p.instructions.reverse

/-- Keeps an instruction or drops it, and halts if the table has no mark for it.  The mark is
looked at first, for parameters too. -/
def checkedKeepOrDrop (live : List Bool) (old : Nat) (i : Instruction) :
    Action Program (Option Nat) := do
  let marked ← live[old]?
  if marked || i.isParameter then return some (← push i)
  else return none

def checkedElimination : Action Program Unit := do
  let p ← MonadState.get
  if p.instructions.isEmpty then pure ()
  else do
    let live ← checkedTable p
    rebuild (checkedKeepOrDrop live)

/-! ## The sweep -/

theorem getElem?_eq_some_getD (h : k < live.length) : live[k]? = some (live.getD k false) := by
  rw [List.getD_eq_getElem?_getD, List.getElem?_eq_getElem h]
  rfl

theorem length_mark {rs : List Nat} (h : mark live rs = some live') :
    live'.length = live.length := by
  induction rs generalizing live with
  | nil =>
    cases h
    rfl
  | cons r rs ih =>
    unfold mark at h
    split at h
    · rw [ih h, List.length_set]
    · cases h

theorem length_sweep (h : sweep live is = some live') : live'.length = live.length := by
  induction is generalizing live with
  | nil =>
    cases h
    rfl
  | cons i earlier ih =>
    unfold sweep at h
    split at h
    · obtain ⟨marked, hmark, h⟩ := Option.bind_eq_some_iff.mp h
      rw [ih h, length_mark hmark]
    · exact ih h

/-- On a table with a place for every instruction left, the sweep reads inside the table. -/
theorem checkedSweep_eq (h : is.length ≤ live.length) : checkedSweep live is = sweep live is := by
  induction is generalizing live with
  | nil => rfl
  | cons i earlier ih =>
    have hlt : earlier.length < live.length := h
    unfold checkedSweep sweep
    rw [getElem?_eq_some_getD hlt, Option.bind_eq_bind, Option.bind_some]
    split
    · cases hmark : mark live i.inputs with
      | none => rfl
      | some marked => exact ih (by rw [length_mark hmark]; omega)
    · exact ih (by omega)

theorem length_liveTable (h : liveTable p = some live) : live.length = p.size := by
  rw [length_sweep h, List.length_set, List.length_replicate]

theorem checkedTable_eq (hne : p.instructions ≠ []) : checkedTable p = liveTable p := by
  have hpos : 0 < p.size := List.length_pos_iff.mpr hne
  have hlast : p.size - 1 < (List.replicate p.size false).length := by
    rw [List.length_replicate]
    omega
  have hstart : mark (List.replicate p.size false) [p.size - 1] =
      some ((List.replicate p.size false).set (p.size - 1) true) := if_pos hlast
  unfold checkedTable liveTable
  rw [hstart, Option.bind_eq_bind, Option.bind_some]
  refine checkedSweep_eq (Nat.le_of_eq ?_)
  rw [List.length_reverse, List.length_set, List.length_replicate, size]

/-! ## The pass -/

theorem checkedKeepOrDrop_eq (h : old < live.length) :
    checkedKeepOrDrop live old i = keepOrDrop live old i := by
  funext q
  exact Action.bind_lift_of_some (getElem?_eq_some_getD h)

theorem checkedKeepOrDrop_ne_halted (h : old < live.length) :
    checkedKeepOrDrop live old i q ≠ .halted := by
  rw [checkedKeepOrDrop_eq h, keepOrDrop_apply]
  split
  · exact fun hhalted => nomatch hhalted
  · exact fun hhalted => nomatch hhalted

/-- The checks change nothing, whatever the instructions read. -/
theorem checkedElimination_eq (p : Program) : checkedElimination p = eliminateDeadCode p := by
  unfold checkedElimination eliminateDeadCode
  rw [Action.bind_of_value Action.get_apply, Action.bind_of_value Action.get_apply]
  by_cases hnil : p.instructions = []
  · rw [hnil]
    rfl
  · rw [List.isEmpty_eq_false_iff.mpr hnil, checkedTable_eq hnil]
    cases hlive : liveTable p with
    | none => rfl
    | some live =>
      show rebuild (checkedKeepOrDrop live) p = rebuild (keepOrDrop live) p
      rw [rebuild_apply, rebuild_apply]
      refine congrFun (rebuildFrom_congr fun old i hold => checkedKeepOrDrop_eq ?_) _
      rw [length_liveTable hlive, size]
      rwa [List.length_nil, Nat.zero_add] at hold

/-! ## Reachability -/

/-- One sweep finds what the output depends on.  Where instructions read earlier ones only, every
index into the table is inside its bounds, in the sweep and where instructions are kept or
dropped, and a position is marked if and only if a path of inputs leads to it from the last
instruction. -/
theorem liveTable_exact (hne : p.instructions ≠ []) (hb : Backward p.instructions) :
    ∃ live, checkedTable p = some live ∧ liveTable p = some live ∧ live.length = p.size ∧
      (∀ k, live[k]? = some true ↔ Needed p.instructions k) ∧
      checkedElimination p = Pass.eliminateDeadCode.apply p ∧ checkedElimination p ≠ .halted := by
  obtain ⟨live, hlive, hlen, hmarks⟩ := liveTable_eq hb hne
  have hchecked : checkedTable p = some live := (checkedTable_eq hne).trans hlive
  refine ⟨live, hchecked, hlive, hlen, fun k => ?_, checkedElimination_eq p, ?_⟩
  · rw [← hmarks, List.getD_eq_getElem?_getD]
    cases live[k]? with
    | none => exact ⟨fun h => (nomatch h), fun h => (nomatch h)⟩
    | some marked => exact Option.some_inj
  · have hrebuild : checkedElimination p = rebuild (checkedKeepOrDrop live) p := by
      unfold checkedElimination
      rw [Action.bind_of_value Action.get_apply, List.isEmpty_eq_false_iff.mpr hne]
      exact Action.bind_lift_of_some hchecked
    rw [hrebuild, rebuild_apply]
    refine rebuildFrom_ne_halted fun old i q hold => checkedKeepOrDrop_ne_halted ?_
    rw [hlen, size]
    rwa [List.length_nil, Nat.zero_add] at hold

/-- Whether instructions read earlier ones only can be looked up one instruction at a time. -/
theorem backward_iff : Backward is ↔ ∀ x ∈ is.zipIdx, ∀ r ∈ x.1.inputs, r < x.2 := by
  constructor
  · intro h x hx r hr
    exact h x.2 r ⟨x.1, List.mem_zipIdx_iff_getElem?.mp hx, hr⟩
  · intro h k r hkr
    obtain ⟨i, hi, hr⟩ := hkr
    exact h (i, k) (List.mem_zipIdx_iff_getElem?.mpr hi) r hr

/-- The sine and the cosine of a matrix `x` and their sum, which is the output.  The exponential of
the sine, and the sine of that, nobody needs. -/
def twoPaths : Program where
  instructions :=
    [{ op := .parameter "x" matrix, inputs := [], shape := matrix },
     { op := .elementary .sin, inputs := [0], shape := matrix },
     { op := .elementary .cos, inputs := [0], shape := matrix },
     { op := .elementary .exp, inputs := [1], shape := matrix },
     { op := .elementary .sin, inputs := [3], shape := matrix },
     { op := .add, inputs := [1, 2], shape := matrix }]
  parameters := [("x", matrix)]

/-- Two paths lead to the parameter, and none to the exponential, although it is read. -/
theorem liveTable_exact_twoPaths :
    (twoPaths.instructions ≠ [] ∧ Backward twoPaths.instructions) ∧
    checkedTable twoPaths = some [true, true, true, false, false, true] ∧
    Needed twoPaths.instructions 0 ∧ ¬Needed twoPaths.instructions 3 ∧
    ReadsAt twoPaths.instructions 4 3 ∧ checkedElimination twoPaths ≠ .halted := by
  have hne : twoPaths.instructions ≠ [] := List.cons_ne_nil _ _
  have hb : Backward twoPaths.instructions := backward_iff.mpr (by decide)
  obtain ⟨live, hchecked, -, -, hmarks, -, hends⟩ := liveTable_exact hne hb
  have hvalue : checkedTable twoPaths = some [true, true, true, false, false, true] := rfl
  have hlive : live = [true, true, true, false, false, true] :=
    Option.some_inj.mp (hchecked.symm.trans hvalue)
  subst hlive
  refine ⟨⟨hne, hb⟩, hvalue, (hmarks 0).mp rfl, fun h => ?_, ⟨_, rfl, List.mem_singleton.mpr rfl⟩,
    hends⟩
  cases (hmarks 3).mpr h

end Program
end TensorGraph
