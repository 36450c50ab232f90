/-
Dead code elimination, exactly.

The pass keeps the parameters and whatever the output depends on, which is `Staying`, in the
old order, and numbers inputs by their places among what is kept: `restrict`.  It renumbers
the inputs of every instruction before it decides about it, those of a dropped one too.  So
it goes through exactly if nothing at all reads a dropped instruction; otherwise it is
refused at the first instruction that does, which is always one that was to be dropped
itself.

`stepOn_keepOrDrop` is one step, `rebuildFrom_keepOrDrop` the steps that are left, and
`eliminateDeadCode_exact` the pass.
-/
import TensorGraph.Proofs.Program.Contiguous
import TensorGraph.Proofs.Program.Liveness

namespace TensorGraph
namespace Program

variable {keep : Nat → Bool} {live : List Bool} {is done rest : List Instruction}
variable {i : Instruction} {p : Program} {n k r : Nat}

/-- Whether dead code elimination keeps a position: the output depends on it, or it is a
parameter. -/
def Staying (is : List Instruction) (k : Nat) : Prop :=
  Needed is k ∨ ∃ i, is[k]? = some i ∧ i.isParameter = true

def rank (keep : Nat → Bool) (k : Nat) : Nat := (List.range k).countP keep

/-- The instructions that are kept, in order, reading the same instructions as before. -/
def restrict (keep : Nat → Bool) (is : List Instruction) : List Instruction :=
  (is.zipIdx.filter fun x => keep x.2).map fun x =>
    { x.1 with inputs := x.1.inputs.map (rank keep) }

/-! ## Ranks -/

theorem rank_succ (keep : Nat → Bool) (k : Nat) :
    rank keep (k + 1) = rank keep k + if keep k then 1 else 0 := by
  rw [rank, List.range_succ, List.countP_append, List.countP_singleton]
  rfl

theorem restrict_concat (keep : Nat → Bool) (is : List Instruction) (i : Instruction) :
    restrict keep (is ++ [i]) = restrict keep is ++
      if keep is.length then [{ i with inputs := i.inputs.map (rank keep) }] else [] := by
  rw [restrict, List.zipIdx_append, List.filter_append, List.map_append, Nat.zero_add]
  congr 1
  by_cases hk : keep is.length = true
  · simp [hk]
  · simp [hk]

theorem length_restrict (keep : Nat → Bool) (is : List Instruction) :
    (restrict keep is).length = rank keep is.length := by
  induction is using List.reverseRecOn with
  | nil => rfl
  | append_singleton is i ih =>
    rw [restrict_concat, List.length_append, List.length_append, List.length_singleton, rank_succ,
      ih]
    by_cases hk : keep is.length = true
    · rw [if_pos hk, if_pos hk]
      rfl
    · rw [if_neg hk, if_neg hk]
      rfl

/-- The place of a kept instruction is its rank, so inputs still name what they named. -/
theorem getElem?_restrict (hk : keep k = true) (hi : is[k]? = some i) :
    (restrict keep is)[rank keep k]? = some { i with inputs := i.inputs.map (rank keep) } := by
  induction is using List.reverseRecOn with
  | nil => cases hi
  | append_singleton is j ih =>
    rw [restrict_concat]
    rcases getElem?_concat_eq hi with hi | ⟨heq, hij⟩
    · exact getElem?_append_of_some (ih hi) _
    · subst heq hij
      rw [if_pos hk, ← length_restrict, List.getElem?_concat_length]

/-! ## One step -/

def keepOrDrop (live : List Bool) (old : Nat) (i : Instruction) : Action Program (Option Nat) := do
  if live.getD old false || i.isParameter then return some (← push i)
  else return none

def places (keep : Nat → Bool) (n : Nat) : List (Option Nat) :=
  (List.range n).map fun k => if keep k then some (rank keep k) else none

theorem length_places (keep : Nat → Bool) (n : Nat) : (places keep n).length = n := by
  rw [places, List.length_map, List.length_range]

theorem places_succ (keep : Nat → Bool) (n : Nat) :
    places keep (n + 1) = places keep n ++ [if keep n then some (rank keep n) else none] := by
  rw [places, List.range_succ, List.map_append]
  rfl

theorem getElem?_places (h : r < n) :
    (places keep n)[r]? = some (if keep r then some (rank keep r) else none) := by
  rw [places, List.getElem?_map, List.getElem?_range h]
  rfl

/-- Inputs are numbered by rank, unless one of them was dropped. -/
theorem renumber_places (keep : Nat → Bool) {rs : List Nat} (h : ∀ r ∈ rs, r < n) :
    ((∀ r ∈ rs, keep r = true) ∧ renumber (places keep n) rs = .value (rs.map (rank keep))) ∨
    ∃ r ∈ rs, keep r = false ∧ renumber (places keep n) rs = .refused (.noInstruction r n) := by
  induction rs with
  | nil => exact Or.inl ⟨(fun r hr => nomatch hr), rfl⟩
  | cons r rs ih =>
    have hr : (places keep n)[r]? = some (if keep r then some (rank keep r) else none) :=
      getElem?_places (h r List.mem_cons_self)
    have hrest : ∀ s ∈ rs, s < n := fun s hs => h s (List.mem_cons_of_mem r hs)
    unfold renumber
    rw [hr]
    cases hkr : keep r with
    | false =>
      refine Or.inr ⟨r, List.mem_cons_self, hkr, ?_⟩
      show Outcome.refused (.noInstruction r (places keep n).length) = _
      rw [length_places]
    | true =>
      rcases ih hrest with ⟨hall, hvalue⟩ | ⟨s, hs, hks, hrefused⟩
      · refine Or.inl ⟨List.forall_mem_cons.mpr ⟨hkr, hall⟩, ?_⟩
        show (renumber (places keep n) rs >>= _) = _
        rw [hvalue]
        rfl
      · refine Or.inr ⟨s, List.mem_cons_of_mem r hs, hks, ?_⟩
        show (renumber (places keep n) rs >>= _) = _
        rw [hrefused]
        rfl

theorem keepOrDrop_apply (live : List Bool) (old : Nat) (i : Instruction) (q : Program) :
    keepOrDrop live old i q =
      if live.getD old false || i.isParameter then
        .value (some q.size) { q with instructions := q.instructions ++ [i] }
      else .value none q := by
  unfold keepOrDrop
  by_cases h : (live.getD old false || i.isParameter) = true
  · rw [if_pos h, if_pos h]
    rfl
  · rw [if_neg h, if_neg h]
    rfl

/-- One step, when all that was done is restricted: the instruction is kept or dropped if
everything that it reads was kept, and refused otherwise. -/
theorem stepOn_keepOrDrop (hin : ∀ r ∈ i.inputs, r < done.length)
    (hkeep : keep done.length = (live.getD done.length false || i.isParameter)) :
    ((∀ r ∈ i.inputs, keep r = true) ∧
      stepOn (keepOrDrop live) (places keep done.length) i
          { p with instructions := restrict keep done } =
        .value (if keep done.length then some (rank keep done.length) else none)
          { p with instructions := restrict keep (done ++ [i]) }) ∨
    ∃ r ∈ i.inputs, keep r = false ∧
      stepOn (keepOrDrop live) (places keep done.length) i
          { p with instructions := restrict keep done } =
        .refused (.noInstruction r done.length) { p with instructions := restrict keep done } := by
  rcases renumber_places keep hin with ⟨hall, hvalue⟩ | ⟨r, hr, hkr, hrefused⟩
  · refine Or.inl ⟨hall, ?_⟩
    have hnow := keepOrDrop_apply live done.length
      { i with inputs := i.inputs.map (rank keep) } { p with instructions := restrict keep done }
    unfold stepOn
    rw [Action.bind_lift_of_value hvalue, length_places, hnow, restrict_concat]
    show (if (live.getD done.length false || i.isParameter) = true then _ else _) = _
    rw [← hkeep]
    by_cases hk : keep done.length = true
    · rw [if_pos hk, if_pos hk, if_pos hk, ← length_restrict]
      rfl
    · rw [if_neg hk, if_neg hk, if_neg hk, List.append_nil]
  · exact Or.inr ⟨r, hr, hkr, stepOn_of_refused hrefused⟩

/-! ## The whole pass -/

/-- The steps that are left: all go through if nothing left reads what was dropped, and
otherwise the first that does is refused. -/
theorem rebuildFrom_keepOrDrop (hb : Backward is)
    (hkeep : ∀ k i, is[k]? = some i → keep k = (live.getD k false || i.isParameter))
    (his : is = done ++ rest) :
    ((∀ k r, done.length ≤ k → ReadsAt is k r → keep r = true) ∧
      rebuildFrom (keepOrDrop live) (places keep done.length) rest
          { p with instructions := restrict keep done } =
        .value () { p with instructions := restrict keep is }) ∨
    ∃ k r, ReadsAt is k r ∧ keep r = false ∧
      (∀ j s, done.length ≤ j → j < k → ReadsAt is j s → keep s = true) ∧
      rebuildFrom (keepOrDrop live) (places keep done.length) rest
          { p with instructions := restrict keep done } =
        .refused (.noInstruction r k) { p with instructions := restrict keep (is.take k) } := by
  induction rest generalizing done with
  | nil =>
    rw [List.append_nil] at his
    subst his
    refine Or.inl ⟨fun k r hk hreads => ?_, rfl⟩
    have hlt : k < is.length := hreads.lt_length
    omega
  | cons i rest ih =>
    have hi : is[done.length]? = some i := getElem?_of_split his
    have hreads : ∀ r, ReadsAt is done.length r ↔ r ∈ i.inputs := by
      intro r
      unfold ReadsAt
      simp [hi]
    have hin : ∀ r ∈ i.inputs, r < done.length :=
      fun r hr => hb done.length r ((hreads r).mpr hr)
    have his' : is = (done ++ [i]) ++ rest := by rw [his, List.append_assoc]; rfl
    have hlen : (done ++ [i]).length = done.length + 1 := List.length_append
    rw [rebuildFrom_cons]
    rcases stepOn_keepOrDrop (p := p) hin (hkeep done.length i hi) with
      ⟨hall, hvalue⟩ | ⟨r, hr, hkr, hrefused⟩
    · -- the instruction in hand reads what was kept, so what it adds is up to those after it
      have hhand : ∀ s, ReadsAt is done.length s → keep s = true :=
        fun s hs => hall s ((hreads s).mp hs)
      rw [Action.bind_of_value hvalue, ← places_succ, ← hlen]
      rcases ih his' with ⟨hrest, hdone⟩ | ⟨k, r, hkr, hr, hfirst, hrefused⟩
      · refine Or.inl ⟨fun k r hk hkr => ?_, hdone⟩
        by_cases heq : k = done.length
        · subst heq
          exact hhand r hkr
        · exact hrest k r (by omega) hkr
      · refine Or.inr ⟨k, r, hkr, hr, fun j s hj hjk hjs => ?_, hrefused⟩
        by_cases heq : j = done.length
        · subst heq
          exact hhand s hjs
        · exact hfirst j s (by omega) hjk hjs
    · refine Or.inr ⟨done.length, r, (hreads r).mpr hr, hkr, fun j s hj hjk _ => ?_, ?_⟩
      · omega
      · have htake : is.take done.length = done := by rw [his, List.take_left' rfl]
        rw [Action.bind_of_refused hrefused, htake]

/-- What an instruction that stays reads stays as well. -/
theorem Staying.reads (h : Staying is k) (hb : ∀ i ∈ is, i.isParameter = true → i.inputs = [])
    (hreads : ReadsAt is k r) : Staying is r := by
  rcases h with hneeded | ⟨i, hi, hparam⟩
  · exact Or.inl (hneeded.tail hreads)
  · obtain ⟨i', hi', hr⟩ := hreads
    rw [hi] at hi'
    cases hi'
    rw [hb i (List.mem_of_getElem? hi) hparam] at hr
    cases hr

theorem Consistent.inputs_of_isParameter (h : Consistent is) (hi : i ∈ is)
    (hparam : i.isParameter = true) : i.inputs = [] := by
  obtain ⟨k, hk⟩ := List.mem_iff_getElem?.mp hi
  obtain ⟨shapes, hshapes, hinfers⟩ := h.infers hk
  obtain ⟨op, inputs, s, kernel⟩ := i
  have hinfers' : Operator.Infers op shapes s := hinfers
  cases hinfers' with
  | parameter name s =>
    rw [shapesAt_eq_some, List.forall₂_nil_right_iff] at hshapes
    exact hshapes
  | _ => cases hparam

/-- Dead code elimination gives the program restricted to what stays if no instruction, dead
or not, reads one that does not stay.  What stays has a new position and reads from the new
positions of what it read before.  Otherwise the pass is refused at the first instruction that
reads what does not stay; that one does not stay either. -/
theorem eliminateDeadCode_exact (hp : Built p) (hne : p.instructions ≠ []) :
    ∃ keep : Nat → Bool, (∀ k, keep k = true ↔ Staying p.instructions k) ∧
      (∀ k i, Staying p.instructions k → p.instructions[k]? = some i →
        (restrict keep p.instructions)[rank keep k]? =
          some { i with inputs := i.inputs.map (rank keep) }) ∧
      (Pass.eliminateDeadCode.apply p =
          .value () { p with instructions := restrict keep p.instructions } ↔
        ∀ k r, ReadsAt p.instructions k r → Staying p.instructions r) ∧
      ∀ k r, ReadsAt p.instructions k r → ¬Staying p.instructions r →
        ∃ j s, j ≤ k ∧ ReadsAt p.instructions j s ∧ ¬Staying p.instructions s ∧
          ¬Staying p.instructions j ∧
          Pass.eliminateDeadCode.apply p = .refused (.noInstruction s j)
            { p with instructions := restrict keep (p.instructions.take j) } := by
  have hcons : Consistent p.instructions := hp.unbound.wellFormed.consistent
  have hb : Backward p.instructions := hcons.backward
  obtain ⟨live, hlive, -, hmarks⟩ := liveTable_eq hb hne
  let keep : Nat → Bool := fun k =>
    live.getD k false || (p.instructions[k]?).any Instruction.isParameter
  have hstays : ∀ k, keep k = true ↔ Staying p.instructions k := by
    intro k
    show (live.getD k false || (p.instructions[k]?).any Instruction.isParameter) = true ↔ _
    rw [Bool.or_eq_true, hmarks, Option.any_eq_true]
    rfl
  have hdrops : ∀ k, keep k = false ↔ ¬Staying p.instructions k := by
    intro k
    rw [← hstays, Bool.not_eq_true]
  have hkeep : ∀ k i, p.instructions[k]? = some i →
      keep k = (live.getD k false || i.isParameter) := by
    intro k i hi
    show (live.getD k false || (p.instructions[k]?).any Instruction.isParameter) = _
    rw [hi]
    rfl
  have happly : Pass.eliminateDeadCode.apply p =
      rebuildFrom (keepOrDrop live) [] p.instructions { p with instructions := [] } := by
    show eliminateDeadCode p = _
    unfold eliminateDeadCode
    rw [Action.bind_of_value Action.get_apply, List.isEmpty_eq_false_iff.mpr hne]
    exact Action.bind_lift_of_some hlive
  refine ⟨keep, hstays, fun k i hk hi => getElem?_restrict ((hstays k).mpr hk) hi, ?_⟩
  rw [happly]
  rcases rebuildFrom_keepOrDrop (p := p) hb hkeep (List.nil_append p.instructions).symm with
    ⟨hall, hvalue⟩ | ⟨j, s, hjs, hs, hfirst, hrefused⟩
  · have hread : ∀ k r, ReadsAt p.instructions k r → Staying p.instructions r :=
      fun k r hkr => (hstays r).mp (hall k r (Nat.zero_le k) hkr)
    exact ⟨⟨fun _ => hread, fun _ => hvalue⟩, fun k r hkr hr => absurd (hread k r hkr) hr⟩
  · have hs' : ¬Staying p.instructions s := (hdrops s).mp hs
    have hj : ¬Staying p.instructions j := fun h =>
      hs' (h.reads (fun i hi => hcons.inputs_of_isParameter hi) hjs)
    refine ⟨⟨fun hvalue => ?_, fun hread => absurd (hread j s hjs) hs'⟩, fun k r hkr hr => ?_⟩
    · have hends := hrefused.symm.trans hvalue
      cases hends
    · refine ⟨j, s, ?_, hjs, hs', hj, hrefused⟩
      by_contra hlt
      exact hr ((hstays r).mp (hfirst k r (Nat.zero_le k) (by omega) hkr))

/-- A matrix `x`, its sine, the cosine of instruction `r`, and the exponential of `x`, which is
the output. -/
def sineAndCosine (r : Nat) : Program where
  instructions :=
    [{ op := .parameter "x" matrix, inputs := [], shape := matrix },
     { op := .elementary .sin, inputs := [0], shape := matrix },
     { op := .elementary .cos, inputs := [r], shape := matrix },
     { op := .elementary .exp, inputs := [0], shape := matrix }]
  parameters := [("x", matrix)]

theorem built_sineAndCosine {r : Nat} (hr : r ≤ 1) : Built (sineAndCosine r) := by
  have hx : addParameter "x" matrix {} = .value 0
      { instructions := (sineAndCosine r).instructions.take 1,
        parameters := [("x", matrix)] } := rfl
  have hsin : addInstruction (.elementary .sin) [0]
      { instructions := (sineAndCosine r).instructions.take 1, parameters := [("x", matrix)] } =
        .value 1 { instructions := (sineAndCosine r).instructions.take 2,
                   parameters := [("x", matrix)] } := rfl
  have hcos : addInstruction (.elementary .cos) [r]
      { instructions := (sineAndCosine r).instructions.take 2, parameters := [("x", matrix)] } =
        .value 2 { instructions := (sineAndCosine r).instructions.take 3,
                   parameters := [("x", matrix)] } := by
    have hr' : r = 0 ∨ r = 1 := by omega
    rcases hr' with rfl | rfl
    · rfl
    · rfl
  have hexp : addInstruction (.elementary .exp) [0]
      { instructions := (sineAndCosine r).instructions.take 3, parameters := [("x", matrix)] } =
        .value 3 (sineAndCosine r) := rfl
  have hplain : ∀ fn l, Operator.elementary fn = .literal l → l.Made := fun _ _ h => nomatch h
  exact .instruction (.instruction (.instruction (.parameter .empty hx) (hplain .sin) hsin)
    (hplain .cos) hcos) (hplain .exp) hexp

/-- Where the cosine reads the parameter, it is dropped along with the sine. -/
theorem eliminateDeadCode_sineAndCosine :
    (Built (sineAndCosine 0) ∧ (sineAndCosine 0).instructions ≠ []) ∧
    ∃ keep : Nat → Bool, (∀ k, keep k = true ↔ Staying (sineAndCosine 0).instructions k) ∧
      restrict keep (sineAndCosine 0).instructions =
        [{ op := .parameter "x" matrix, inputs := [], shape := matrix },
         { op := .elementary .exp, inputs := [0], shape := matrix }] ∧
      Pass.eliminateDeadCode.apply (sineAndCosine 0) =
        .value () { instructions := restrict keep (sineAndCosine 0).instructions,
                    parameters := [("x", matrix)] } := by
  have hb : Built (sineAndCosine 0) := built_sineAndCosine (Nat.zero_le 1)
  have hne : (sineAndCosine 0).instructions ≠ [] := List.cons_ne_nil _ _
  have hzero : ∀ i ∈ (sineAndCosine 0).instructions, ∀ r ∈ i.inputs, r = 0 := by decide
  obtain ⟨keep, hstays, -, hiff, -⟩ := eliminateDeadCode_exact hb hne
  have hvalue : Pass.eliminateDeadCode.apply (sineAndCosine 0) =
      .value () { sineAndCosine 0 with
        instructions := restrict keep (sineAndCosine 0).instructions } := by
    refine hiff.mpr fun k r hkr => ?_
    obtain ⟨i, hi, hr⟩ := hkr
    rw [hzero i (List.mem_of_getElem? hi) r hr]
    exact Or.inr ⟨_, rfl, rfl⟩
  have hrun : Pass.eliminateDeadCode.apply (sineAndCosine 0) = .value ()
      { instructions := _, parameters := [("x", matrix)] } := rfl
  have hsame := hvalue.symm.trans hrun
  injection hsame with _ hsame
  exact ⟨⟨hb, hne⟩, keep, hstays, congrArg Program.instructions hsame, hvalue⟩

/-- Where the dropped cosine reads the dropped sine, the pass is refused. -/
theorem eliminateDeadCode_not_total :
    ¬∀ p, Built p → p.instructions ≠ [] → ∃ q, Pass.eliminateDeadCode.apply p = .value () q := by
  intro h
  obtain ⟨q, hvalue⟩ := h (sineAndCosine 1) (built_sineAndCosine (Nat.le_refl 1))
    (List.cons_ne_nil _ _)
  have hrefused : Pass.eliminateDeadCode.apply (sineAndCosine 1) = .refused (.noInstruction 1 2)
      { instructions := (sineAndCosine 1).instructions.take 1,
        parameters := [("x", matrix)] } := rfl
  rw [hrefused] at hvalue
  cases hvalue

end Program
end TensorGraph
