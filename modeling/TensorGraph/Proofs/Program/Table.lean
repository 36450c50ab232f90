/-
The table of a run.

A run keeps the values of its instructions in a table.  Behind an instruction the table is
`succeeding`, whatever its kernel did: the value of the instruction comes, if it is read again or
is the output, and those go that the instruction was the last to read.  Which those are comes from
`LastReads`, the specification of the table of last uses, and `Filled` says what is kept at which
position.  `runStep_eq_value` is all that a step tells of its table.
-/
import TensorGraph.Proofs.Program.Compile

namespace TensorGraph
namespace Program

variable {is done rest : List Instruction} {last : List (Option Nat)} {output k m j : Nat}
variable {params : Parameters} {values values' : Values} {i : Instruction} {a : Argument}
variable {w w' : World}

/-! ## Last uses -/

structure LastReads (is : List Instruction) (last : List (Option Nat)) : Prop where
  reads : ∀ r m : Nat, last[r]? = some (some m) → ∃ i : Instruction, is[m]? = some i ∧ r ∈ i.inputs
  latest : ∀ (k : Nat) (i : Instruction), is[k]? = some i → ∀ r ∈ i.inputs,
    ∃ m, last[r]? = some (some m) ∧ k ≤ m

theorem getElem?_foldl_set (inputs : List Nat) (position : Nat) (last : List (Option Nat))
    (hlt : ∀ r ∈ inputs, r < last.length) (r : Nat) :
    (inputs.foldl (fun l r => l.set r (some position)) last)[r]? =
      if r ∈ inputs then some (some position) else last[r]? := by
  induction inputs generalizing last with
  | nil => rfl
  | cons s rest ih =>
    rw [List.foldl_cons, ih _ fun n hn => by
      rw [List.length_set]
      exact hlt n (List.mem_cons_of_mem _ hn)]
    by_cases hr : r ∈ rest
    · rw [if_pos hr, if_pos (List.mem_cons_of_mem _ hr)]
    · rw [if_neg hr]
      by_cases hs : r = s
      · subst hs
        rw [if_pos List.mem_cons_self, List.getElem?_set_self (hlt r List.mem_cons_self)]
      · rw [if_neg (List.not_mem_cons_of_ne_of_not_mem hs hr), List.getElem?_set_ne (Ne.symm hs)]

theorem LastReads.concat (h : LastReads done last) {i : Instruction}
    (hlt : ∀ r ∈ i.inputs, r < last.length) :
    LastReads (done ++ [i]) (i.inputs.foldl (fun l r => l.set r (some done.length)) last) where
  reads r m hr := by
    rw [getElem?_foldl_set _ _ _ hlt] at hr
    split at hr
    · next hmem =>
      cases hr
      exact ⟨i, List.getElem?_concat_length, hmem⟩
    · obtain ⟨j, hj, hmem⟩ := h.reads r m hr
      exact ⟨j, getElem?_append_of_some hj _, hmem⟩
  latest k j hj r hr := by
    rw [getElem?_foldl_set _ _ _ hlt]
    rcases getElem?_concat_eq hj with hj | ⟨rfl, rfl⟩
    · split
      · exact ⟨_, rfl, Nat.le_of_lt (List.getElem?_eq_some_iff.mp hj).1⟩
      · exact h.latest k j hj r hr
    · exact ⟨_, if_pos hr, Nat.le_refl _⟩

theorem LastReads.lastUsesFrom (h : LastReads done last)
    (hlt : ∀ i ∈ rest, ∀ r ∈ i.inputs, r < last.length) :
    ∃ last', Program.lastUsesFrom last done.length rest = some last' ∧ last'.length = last.length ∧
      LastReads (done ++ rest) last' := by
  induction rest generalizing done last with
  | nil => exact ⟨last, rfl, rfl, by rwa [List.append_nil]⟩
  | cons i rest ih =>
    have hi := hlt i List.mem_cons_self
    have hall : (i.inputs.all fun r => decide (r < last.length)) = true :=
      List.all_eq_true.mpr fun r hr => decide_eq_true (hi r hr)
    have hlen : ∀ (inputs : List Nat) (l : List (Option Nat)),
        (inputs.foldl (fun l r => l.set r (some done.length)) l).length = l.length := by
      intro inputs
      induction inputs with
      | nil => exact fun _ => rfl
      | cons r rs ih => exact fun l => (ih _).trans (List.length_set ..)
    obtain ⟨last', hlast, hlen', h'⟩ := ih (h.concat hi) fun j hj r hr => by
      rw [hlen]
      exact hlt j (List.mem_cons_of_mem _ hj) r hr
    refine ⟨last', ?_, hlen'.trans (hlen _ _), by rwa [List.append_assoc] at h'⟩
    rw [Program.lastUsesFrom, if_pos hall]
    rwa [List.length_append] at hlast

/-- A program whose instructions read others of it has a table of last uses. -/
theorem exists_lastUses_of_lt {p : Program} (h : ∀ i ∈ p.instructions, ∀ r ∈ i.inputs, r < p.size) :
    ∃ last, lastUses p = some last ∧ last.length = p.size ∧ LastReads p.instructions last := by
  have hnil : LastReads [] (List.replicate p.size none) := by
    refine ⟨fun r m h => ?_, fun _ _ h => nomatch h⟩
    rw [List.getElem?_replicate] at h
    split at h <;> cases h
  have hlt : ∀ i ∈ p.instructions, ∀ r ∈ i.inputs,
      r < (List.replicate p.size (none : Option Nat)).length := by
    rw [List.length_replicate]
    exact h
  obtain ⟨last, hlast, hlen, h⟩ := hnil.lastUsesFrom hlt
  rw [List.length_replicate] at hlen
  exact ⟨last, hlast, hlen, h⟩

theorem exists_lastUses {p : Program} (hc : Consistent p.instructions) :
    ∃ last, lastUses p = some last ∧ last.length = p.size ∧ LastReads p.instructions last := by
  apply exists_lastUses_of_lt
  intro i hi r hr
  obtain ⟨k, hk⟩ := List.mem_iff_getElem?.mp hi
  exact (hc.inputs_lt hk r hr).trans (List.getElem?_eq_some_iff.mp hk).1

theorem LastReads.later (h : LastReads is last) (hc : Consistent is) {r m : Nat}
    (hm : last[r]? = some (some m)) : r < m := by
  obtain ⟨i, hi, hr⟩ := h.reads r m hm
  exact hc.inputs_lt hi r hr

/-! ## Kept values -/

/-- Whether the value of a position is kept until the instruction at another. -/
def Kept (last : List (Option Nat)) (output k r : Nat) : Prop :=
  r < k ∧ (r = output ∨ ∃ m, last[r]? = some (some m) ∧ k ≤ m)

/-- What is kept behind an instruction: what was kept before it and is read again, and its own
value if it is read or the output. -/
theorem kept_succ (h : LastReads is last)
    (hlater : ∀ {r m : Nat}, last[r]? = some (some m) → r < m) (ho : output + 1 = is.length)
    (hi : is[k]? = some i) (r : Nat) :
    Kept last output (k + 1) r ↔
      (r = k ∧ ((∃ m, last[k]? = some (some m)) ∨ k = output)) ∨
      (Kept last output k r ∧ ¬(r ∈ i.inputs ∧ last[r]? = some (some k))) := by
  have hk := (List.getElem?_eq_some_iff.mp hi).1
  constructor
  · rintro ⟨hr, huse⟩
    rcases Nat.lt_or_ge r k with hlt | hge
    · refine Or.inr ⟨⟨hlt, huse.imp_right fun ⟨m, hm, hle⟩ => ⟨m, hm, by omega⟩⟩, ?_⟩
      rintro ⟨-, hlast⟩
      rcases huse with rfl | ⟨m, hm, hle⟩
      · omega
      · rw [hlast] at hm
        cases hm
        omega
    · obtain rfl : r = k := by omega
      exact Or.inl ⟨rfl, huse.symm.imp_left fun ⟨m, hm, _⟩ => ⟨m, hm⟩⟩
  · rintro (⟨rfl, ⟨m, hm⟩ | rfl⟩ | ⟨⟨hr, huse⟩, hdead⟩)
    · exact ⟨Nat.lt_succ_self r, Or.inr ⟨m, hm, hlater hm⟩⟩
    · exact ⟨Nat.lt_succ_self r, Or.inl rfl⟩
    · refine ⟨by omega, huse.imp_right fun ⟨m, hm, hle⟩ => ⟨m, hm, ?_⟩⟩
      rcases Nat.eq_or_lt_of_le hle with rfl | hlt
      · obtain ⟨j, hj, hmem⟩ := h.reads r k hm
        rw [hi] at hj
        cases hj
        exact absurd ⟨hmem, hm⟩ hdead
      · exact hlt

/-- At the end only the output is kept. -/
theorem kept_length_iff (h : LastReads is last) (ho : output + 1 = is.length) (r : Nat) :
    Kept last output is.length r ↔ r = output := by
  constructor
  · rintro ⟨-, rfl | ⟨m, hm, hle⟩⟩
    · rfl
    · obtain ⟨j, hj, -⟩ := h.reads r m hm
      have := (List.getElem?_eq_some_iff.mp hj).1
      omega
  · rintro rfl
    exact ⟨by omega, Or.inl rfl⟩

/-- The table of values at a position: there are values for what is kept, and no others. -/
structure Filled (last : List (Option Nat)) (output n k : Nat) (values : Values) : Prop where
  length : values.length = n
  kept_iff : ∀ r : Nat, (∃ a, values[r]? = some (some a)) ↔ Kept last output k r

theorem getElem?_replicate_none (n r : Nat) (a : Argument) :
    (List.replicate n none)[r]? ≠ some (some a) := by
  intro hr
  rw [List.getElem?_replicate] at hr
  split at hr <;> cases hr

/-- A run starts with no values. -/
theorem filled_zero (last : List (Option Nat)) (output n : Nat) :
    Filled last output n 0 (List.replicate n none) :=
  ⟨List.length_replicate, fun r => ⟨fun ⟨a, ha⟩ => absurd ha (getElem?_replicate_none n r a),
    fun hkept => absurd hkept.1 (Nat.not_lt_zero r)⟩⟩

theorem getElem?_eq_some_none {α : Type} {table : List (Option α)} (hk : k < table.length)
    (hfree : ∀ a, table[k]? ≠ some (some a)) : table[k]? = some none := by
  cases hv : table[k] with
  | none => rw [List.getElem?_eq_getElem hk, hv]
  | some a => exact absurd (by rw [List.getElem?_eq_getElem hk, hv]) (hfree a)

theorem getD_eq_some {α : Type} {table : List (Option α)} {a : α} :
    table.getD k none = some a ↔ table[k]? = some (some a) := by
  rw [List.getD_eq_getElem?_getD]
  rcases table[k]? with _ | _ | b <;> simp

/-- There is no value yet at the position that a run has come to. -/
theorem Filled.free {n : Nat} (hf : Filled last output n k values) (hk : k < n) :
    values[k]? = some none := by
  refine getElem?_eq_some_none (by rwa [hf.length]) fun a ha => ?_
  exact Nat.lt_irrefl k ((hf.kept_iff k).mp ⟨a, ha⟩).1

/-! ## The table behind an instruction -/

theorem getElem?_set_none {s r : Nat} {a : Argument} :
    (values.set s none)[r]? = some (some a) ↔ values[r]? = some (some a) ∧ r ≠ s := by
  rw [List.getElem?_set]
  by_cases hr : s = r
  · subst hr
    rw [if_pos rfl]
    refine ⟨fun h => ?_, fun h => absurd rfl h.2⟩
    split at h <;> cases h
  · rw [if_neg hr]
    exact ⟨fun h => ⟨h, Ne.symm hr⟩, fun h => h.1⟩

def cleared (last : List (Option Nat)) (position : Nat) (values : Values) : List Nat → Values
  | [] => values
  | r :: rest =>
    if last[r]? = some (some position) then cleared last position (values.set r none) rest
    else cleared last position values rest

theorem length_cleared (inputs : List Nat) :
    (cleared last m values inputs).length = values.length := by
  induction inputs generalizing values with
  | nil => rfl
  | cons r rest ih =>
    unfold cleared
    split
    · rw [ih, List.length_set]
    · exact ih

theorem getElem?_cleared {inputs : List Nat} :
    (cleared last m values inputs)[j]? = some (some a) ↔
      values[j]? = some (some a) ∧ ¬(j ∈ inputs ∧ last[j]? = some (some m)) := by
  induction inputs generalizing values with
  | nil => simp [cleared]
  | cons r rest ih =>
    unfold cleared
    rw [List.mem_cons]
    by_cases hr : last[r]? = some (some m)
    · rw [if_pos hr, ih, getElem?_set_none, and_assoc]
      apply and_congr_right
      intro _
      by_cases hj : j = r
      · simp [hj, hr]
      · simp [hj]
    · rw [if_neg hr, ih]
      apply and_congr_right
      intro _
      by_cases hj : j = r
      · simp [hj, hr]
      · simp [hj]

def succeeding (last : List (Option Nat)) (output position : Nat) (values : Values) (a : Argument)
    (inputs : List Nat) : Values :=
  cleared last position
    (if (last.getD position none).isSome || position = output then values.set position (some a)
      else values) inputs

/-- What there is behind an instruction was there before, or is its own value. -/
theorem getElem?_of_succeeding {inputs : List Nat} {b : Argument}
    (h : (succeeding last output k values a inputs)[j]? = some (some b)) :
    values[j]? = some (some b) ∨ j = k ∧ b = a := by
  have h := (getElem?_cleared.mp h).1
  split at h
  · rw [List.getElem?_set] at h
    split at h
    · next heq =>
      split at h
      · cases h
        exact Or.inr ⟨heq.symm, rfl⟩
      · cases h
    · exact Or.inl h
  · exact Or.inl h

theorem Filled.exists_input {n : Nat} (hf : Filled last output n k values) (hl : LastReads is last)
    (hc : Consistent is) (hi : is[k]? = some i) :
    ∀ r ∈ i.inputs, ∃ a, values[r]? = some (some a) := by
  intro r hr
  obtain ⟨m, hm, hle⟩ := hl.latest k i hi r hr
  exact (hf.kept_iff r).mpr ⟨hc.inputs_lt hi r hr, Or.inr ⟨m, hm, hle⟩⟩

/-- In the end there is a value for the output, and no other. -/
theorem Filled.only_output {n : Nat} (hf : Filled last output n is.length values)
    (hl : LastReads is last) (ho : output + 1 = is.length) :
    (∃ a, values[output]? = some (some a)) ∧
      ∀ (r : Nat) (a : Argument), (values.set output none)[r]? ≠ some (some a) := by
  refine ⟨(hf.kept_iff output).mpr ((kept_length_iff hl ho output).mpr rfl), fun r a hr => ?_⟩
  obtain ⟨hr, hother⟩ := getElem?_set_none.mp hr
  exact hother ((kept_length_iff hl ho r).mp ((hf.kept_iff r).mp ⟨a, hr⟩))

theorem Filled.succeeding (hf : Filled last output is.length k values) (hl : LastReads is last)
    (hlater : ∀ {r m : Nat}, last[r]? = some (some m) → r < m) (hlen : last.length = is.length)
    (ho : output + 1 = is.length) (hi : is[k]? = some i) (a : Argument) :
    Filled last output is.length (k + 1) (succeeding last output k values a i.inputs) := by
  have hk := (List.getElem?_eq_some_iff.mp hi).1
  have hkeep : (∃ m, last[k]? = some (some m)) ∨ k = output ↔
      ((last.getD k none).isSome || decide (k = output)) = true := by
    rw [List.getD_eq_getElem?_getD, List.getElem?_eq_getElem (by omega), Option.getD_some,
      Bool.or_eq_true, decide_eq_true_iff, Option.isSome_iff_exists]
    simp only [Option.some.injEq]
  refine ⟨?_, fun r => ?_⟩
  · rw [Program.succeeding, length_cleared]
    split
    · rw [List.length_set, hf.length]
    · exact hf.length
  · rw [kept_succ hl hlater ho hi, hkeep, ← hf.kept_iff, Program.succeeding]
    simp only [getElem?_cleared, exists_and_right]
    by_cases hr : r = k
    · subst hr
      have hself : ¬(r ∈ i.inputs ∧ last[r]? = some (some r)) := fun hdead =>
        Nat.lt_irrefl r (hlater hdead.2)
      have hnone : ¬∃ a, values[r]? = some (some a) := by
        rw [hf.kept_iff]
        exact fun hkept => Nat.lt_irrefl r hkept.1
      split
      · next hkept =>
        rw [List.getElem?_set_self (by rwa [hf.length])]
        exact iff_of_true ⟨⟨a, rfl⟩, hself⟩ (Or.inl ⟨rfl, hkept⟩)
      · next hdead =>
        refine iff_of_false (fun hin => hnone hin.1) ?_
        rintro (⟨-, hkept⟩ | ⟨hsome, -⟩)
        · exact hdead hkept
        · exact hnone hsome
    · split
      · rw [List.getElem?_set_ne (Ne.symm hr)]
        exact ⟨Or.inr, fun h => h.resolve_left fun hself => hr hself.1⟩
      · exact ⟨Or.inr, fun h => h.resolve_left fun hself => hr hself.1⟩

/-! ## Releasing values -/

/-- An input that is read for the last time is released and cleared, if there is a value for it,
and others are passed over. -/
theorem releaseDead_cons (last : List (Option Nat)) (m : Nat) (values : Values) (r : Nat)
    (inputs : List Nat) :
    (∃ a, values[r]? = some (some a) ∧
      releaseDead last m values (r :: inputs) =
        (World.release a >>= fun _ => releaseDead last m (values.set r none) inputs) ∧
      cleared last m values (r :: inputs) = cleared last m (values.set r none) inputs) ∨
    releaseDead last m values (r :: inputs) = releaseDead last m values inputs ∧
      cleared last m values (r :: inputs) = cleared last m values inputs := by
  rw [releaseDead, cleared]
  by_cases hr : last[r]? = some (some m)
  · rw [if_pos hr, if_pos hr]
    rcases hv : values[r]? with _ | _ | a
    · have hsame : values.set r none = values :=
        List.set_eq_of_length_le (List.getElem?_eq_none_iff.mp hv)
      rw [hsame]
      exact Or.inr ⟨rfl, rfl⟩
    · have hsame : values.set r none = values := by
        have hlt := (List.getElem?_eq_some_iff.mp hv).1
        rw [← (List.getElem?_eq_some_iff.mp hv).2, List.set_getElem_self]
      rw [hsame]
      exact Or.inr ⟨rfl, rfl⟩
    · exact Or.inl ⟨a, rfl, rfl, rfl⟩
  · rw [if_neg hr, if_neg hr]
    exact Or.inr ⟨rfl, rfl⟩

theorem releaseDead_eq_value {inputs : List Nat}
    (h : releaseDead last m values inputs w = .value values' w') :
    values' = cleared last m values inputs := by
  induction inputs generalizing values w with
  | nil =>
    cases h
    rfl
  | cons r rest ih =>
    rcases releaseDead_cons last m values r rest with ⟨a, -, heq, hclear⟩ | ⟨heq, hclear⟩
    · rw [heq] at h
      rw [hclear]
      obtain ⟨_, w₁, -, h⟩ := Action.bind_eq_value.mp h
      exact ih h
    · rw [heq] at h
      rw [hclear]
      exact ih h

/-! ## Steps -/

abbrev Advance := Nat → Instruction → Values → Argument → Action World Values

def releasing (last : List (Option Nat)) (output : Nat) : Advance := fun position i values a =>
  if (last.getD position none).isSome || position = output then
    releaseDead last position (values.set position (some a)) i.inputs
  else do
    let values ← releaseDead last position values i.inputs
    World.release a
    return values

def runStep (params : Parameters) (last : List (Option Nat)) (output position : Nat)
    (values : Values) (i : Instruction) : Action World Values := do
  let value ← (instructionValue params position i values).onRefusal (releaseValues values)
  if (← MonadState.get).settings.traceEval then
    World.note .debug s!"@{position} = {i.op.text} -> {value.text}"
  if (last.getD position none).isSome || position = output then
    releaseDead last position (values.set position (some value)) i.inputs
  else do
    let values ← releaseDead last position values i.inputs
    World.release value
    return values

def settling (last : List (Option Nat)) (output k : Nat) (i : Instruction) (values : Values)
    (a : Argument) : Action World Values := do
  if (← MonadState.get).settings.traceEval then
    World.note .debug s!"@{k} = {i.op.text} -> {a.text}"
  releasing last output k i values a

theorem runStep_eq : runStep params last output k values i =
    ((instructionValue params k i values).onRefusal (releaseValues values) >>= fun a =>
      settling last output k i values a) := rfl

theorem runFrom_cons (params : Parameters) (last : List (Option Nat)) (output position : Nat)
    (values : Values) (i : Instruction) (rest : List Instruction) :
    runFrom params last output position values (i :: rest) =
      runStep params last output position values i >>= fun values =>
        runFrom params last output (position + 1) values rest := by
  rw [runFrom, runStep]
  simp only [bind_assoc]
  refine congrArg _ (funext fun value => congrArg _ (funext fun w => ?_))
  by_cases hkeep : ((last.getD position none).isSome || decide (position = output)) = true
  · simp only [if_pos hkeep]
    split <;> simp only [bind_assoc]
  · simp only [if_neg hkeep]
    split <;> simp only [bind_assoc, pure_bind]

/-- A line in the log apart, a step settles its value by releasing. -/
theorem settling_cases (last : List (Option Nat)) (output k : Nat) (i : Instruction)
    (values : Values) (a : Argument) (w : World) :
    settling last output k i values a w = releasing last output k i values a w ∨
      ∃ text, settling last output k i values a w =
        releasing last output k i values a { w with log := w.log ++ [⟨.debug, text⟩] } := by
  unfold settling
  rw [Action.bind_of_value Action.get_apply]
  split
  · exact Or.inr ⟨_, rfl⟩
  · exact Or.inl rfl

theorem releasing_eq_value (h : releasing last output k i values a w = .value values' w') :
    values' = succeeding last output k values a i.inputs := by
  unfold releasing at h
  unfold succeeding
  split at h
  · next hkeep =>
    rw [if_pos hkeep]
    exact releaseDead_eq_value h
  · next hdead =>
    rw [if_neg hdead]
    obtain ⟨values₁, w₁, hclear, h⟩ := Action.bind_eq_value.mp h
    obtain ⟨_, w₂, -, h⟩ := Action.bind_eq_value.mp h
    cases h
    exact releaseDead_eq_value hclear

theorem settling_eq_value (h : settling last output k i values a w = .value values' w') :
    values' = succeeding last output k values a i.inputs := by
  obtain ⟨w₁, w₂, -, h⟩ := Action.bind_eq_value.mp h
  split at h
  · obtain ⟨_, w₃, -, h⟩ := Action.bind_eq_value.mp h
    exact releasing_eq_value h
  · exact releasing_eq_value h

/-- A step that gives a table made the value of its instruction and went on from there. -/
theorem runStep_eq_value (h : runStep params last output k values i w = .value values' w') :
    ∃ a w₁, instructionValue params k i values w = .value a w₁ ∧
      settling last output k i values a w₁ = .value values' w' ∧
      values' = succeeding last output k values a i.inputs := by
  rw [runStep_eq] at h
  obtain ⟨a, w₁, ha, h⟩ := Action.bind_eq_value.mp h
  exact ⟨a, w₁, Action.onRefusal_eq_value.mp ha, h, settling_eq_value h⟩

end Program
end TensorGraph
