/-
Evaluation with any kernels.

`runWith` is `run` with the kernels for a parameter, and `run_eq_runWith` says that it is.  What a
run does with the value of an instruction, its `Advance`, is to put it in a table and to let go of
what is not read again; `runKeeping` lets go of nothing until the end.  `Live` says which values
have a use to come, and `held_of_walk` that a run holds those and no others at every point,
whatever its kernels do.
-/
import TensorGraph.Proofs.Ownership.Evaluate
import TensorGraph.Proofs.Program.Liveness

namespace TensorGraph

abbrev Compute := Shape → List Argument → Action World Argument

namespace Program

abbrev Kernels := Nat → Option Compute

variable {kernels : Kernels} {params : Parameters} {advance : Advance} {values values' : Values}
variable {is done rest : List Instruction} {i : Instruction} {last : List (Option Nat)}
variable {output k j m : Nat} {w w' : World} {a : Argument} {p : Program}

/-! ## Evaluators -/

def valueWith (kernels : Kernels) (params : Parameters) (position : Nat) (i : Instruction)
    (values : Values) : Action World Argument :=
  match i.op with
  | .parameter name _ =>
    match params.lookup name with
    | some a => do
      World.retain a
      return a
    | none => Action.refuse (.parameter name .missing)
  | op =>
    match kernels position with
    | none => Action.refuse (.lowering op.name "unbound" (.unbound position))
    | some c => do
      let inputs ← inputValues position values i.inputs
      c i.shape inputs

def stepWith (kernels : Kernels) (params : Parameters) (advance : Advance) (position : Nat)
    (values : Values) (i : Instruction) : Action World Values := do
  let value ← (valueWith kernels params position i values).onRefusal (releaseValues values)
  if (← MonadState.get).settings.traceEval then
    World.note .debug s!"@{position} = {i.op.text} -> {value.text}"
  advance position i values value

def walk (kernels : Kernels) (params : Parameters) (advance : Advance) (position : Nat)
    (values : Values) : List Instruction → Action World Values
  | [] => pure values
  | i :: rest => do
    let values ← stepWith kernels params advance position values i
    walk kernels params advance (position + 1) values rest

def keeping : Advance := fun position _ values a => pure (values.set position (some a))

/-- The value of the output, from a table of values that it is in. -/
def evaluateBy (table : Nat → Action World Values) (p : Program) (params : Parameters) :
    Action World Argument := do
  if !p.isCompiled then Action.refuse .uncompiled
  checkParameters params p.parameters
  match p.output? with
  | none => Action.refuse (.noInstruction 0 0)
  | some output => do
    let values ← table output
    match values.getD output none with
    | none => do
      releaseValues values
      Action.refuse (.noInstruction output p.size)
    | some a => do
      releaseValues (values.set output none)
      return a

/-- Evaluates a program with the given kernels, keeping a value as long as it has a use. -/
def runWith (kernels : Kernels) (p : Program) (params : Parameters) : Action World Argument :=
  evaluateBy (fun output => do
    let last ← lastUses p
    walk kernels params (releasing last output) 0 (List.replicate p.size none) p.instructions)
    p params

def runKeeping (kernels : Kernels) (p : Program) (params : Parameters) : Action World Argument :=
  evaluateBy (fun _ => walk kernels params keeping 0 (List.replicate p.size none) p.instructions)
    p params

def bound (p : Program) : Kernels := fun k =>
  ((p.instructions[k]?).bind Instruction.kernel).map BoundKernel.compute

theorem valueWith_of_parameter {name : String} {s : Shape} (hop : i.op = .parameter name s) :
    valueWith kernels params k i values =
      match params.lookup name with
      | some a => do
        World.retain a
        return a
      | none => Action.refuse (.parameter name .missing) := by
  unfold valueWith
  rw [hop]

theorem valueWith_of_not_isParameter (hp : i.isParameter = false) :
    valueWith kernels params k i values =
      match kernels k with
      | some c => do
        let inputs ← inputValues k values i.inputs
        c i.shape inputs
      | none => Action.refuse (.lowering i.op.name "unbound" (.unbound k)) := by
  obtain ⟨op, inputs, s, kernel⟩ := i
  unfold valueWith
  cases op with
  | parameter => cases hp
  | _ => cases kernels k <;> rfl

theorem instructionValue_eq_valueWith (h : kernels k = i.kernel.map BoundKernel.compute) :
    instructionValue params k i values = valueWith kernels params k i values := by
  unfold instructionValue valueWith
  rw [h]
  cases i.kernel <;> rfl

theorem runFrom_eq_walk
    (h : ∀ n, kernels (k + n) = ((rest[n]?).bind Instruction.kernel).map BoundKernel.compute) :
    runFrom params last output k values rest =
      walk kernels params (releasing last output) k values rest := by
  induction rest generalizing k values with
  | nil => rfl
  | cons i rest ih =>
    have hstep : runStep params last output k values i =
        stepWith kernels params (releasing last output) k values i := by
      have hkernel : kernels k = i.kernel.map BoundKernel.compute := h 0
      unfold runStep stepWith
      rw [instructionValue_eq_valueWith hkernel]
      rfl
    have hrest : ∀ n, kernels (k + 1 + n) =
        ((rest[n]?).bind Instruction.kernel).map BoundKernel.compute := by
      intro n
      rw [Nat.add_assoc, Nat.add_comm 1 n]
      exact h (n + 1)
    rw [runFrom_cons, walk, hstep]
    exact congrArg _ (funext fun values => ih hrest)

/-- A run is an evaluation with the kernels that the program is bound to. -/
theorem run_eq_runWith (p : Program) (params : Parameters) :
    p.run params = runWith p.bound p params := by
  have hwalk : ∀ last output, runFrom params last output 0 (List.replicate p.size none)
      p.instructions = walk p.bound params (releasing last output) 0 (List.replicate p.size none)
      p.instructions := by
    intro last output
    apply runFrom_eq_walk
    intro n
    rw [Nat.zero_add]
    rfl
  have hrest : ∀ (output : Nat) (f : Values → Action World Argument), (do
      let last ← lastUses p
      let values ← runFrom params last output 0 (List.replicate p.size none) p.instructions
      f values : Action World Argument) = (do
      let last ← lastUses p
      walk p.bound params (releasing last output) 0 (List.replicate p.size none)
        p.instructions : Action World Values) >>= f := by
    intro output f
    simp only [hwalk, bind_assoc]
  unfold run runWith evaluateBy
  cases p.output? with
  | none => rfl
  | some output =>
    exact congrArg (fun rest : Action World Argument => do
      if !p.isCompiled then Action.refuse .uncompiled
      checkParameters params p.parameters
      rest) (hrest output _)

/-- A walk is a walk through the first instructions and one through the others. -/
theorem walk_append (done rest : List Instruction) (k : Nat) (values : Values) :
    walk kernels params advance k values (done ++ rest) =
      walk kernels params advance k values done >>= fun values =>
        walk kernels params advance (k + done.length) values rest := by
  induction done generalizing k values with
  | nil => rfl
  | cons i done ih =>
    simp only [List.cons_append, walk, bind_assoc, ih, List.length_cons, Nat.add_assoc,
      Nat.add_comm 1]

/-! ## Values with a use to come -/

/-- Whether the value of a position is there before an instruction and has a use to come: that
instruction or a later one reads it, or it is the output. -/
def Live (is : List Instruction) (k j : Nat) : Prop :=
  j < k ∧ (j + 1 = is.length ∨ ∃ m, k ≤ m ∧ ReadsAt is m j)

/-- The last use of a position is the latest instruction that reads it. -/
theorem exists_readsAt_iff (hl : LastReads is last) :
    (∃ m, k ≤ m ∧ ReadsAt is m j) ↔ ∃ m, k ≤ m ∧ last[j]? = some (some m) := by
  constructor
  · rintro ⟨m, hle, i, hi, hmem⟩
    obtain ⟨m', hm', hle'⟩ := hl.latest m i hi j hmem
    exact ⟨m', by omega, hm'⟩
  · rintro ⟨m, hle, hm⟩
    exact ⟨m, hle, hl.reads j m hm⟩

theorem exists_lastUses_of_backward (hb : Backward p.instructions) :
    ∃ last, lastUses p = some last ∧ last.length = p.size ∧ LastReads p.instructions last := by
  apply exists_lastUses_of_lt
  intro i hi r hr
  obtain ⟨k, hk⟩ := List.mem_iff_getElem?.mp hi
  have hread : ReadsAt p.instructions k r := ⟨i, hk, hr⟩
  exact (hb k r hread).trans hread.lt_length

/-- A run keeps what has a use to come. -/
theorem live_iff_kept (hl : LastReads is last) (ho : output + 1 = is.length) :
    Live is k j ↔ Kept last output k j := by
  rw [Live, exists_readsAt_iff hl, Kept]
  apply and_congr_right
  intro _
  apply or_congr
  · omega
  · exact exists_congr fun m => And.comm

theorem live_of_readsAt (hb : Backward is) (h : ReadsAt is k j) : Live is k j :=
  ⟨hb k j h, Or.inr ⟨k, le_rfl, h⟩⟩

/-- In the end only the output is left. -/
theorem live_length_iff : Live is is.length j ↔ j + 1 = is.length := by
  constructor
  · rintro ⟨-, heq | ⟨m, hle, hread⟩⟩
    · exact heq
    · have hlt := hread.lt_length
      omega
  · intro heq
    exact ⟨by omega, Or.inl heq⟩

structure Held (is : List Instruction) (k : Nat) (values : Values) : Prop where
  length : values.length = is.length
  live_iff : ∀ j : Nat, (∃ a, values[j]? = some (some a)) ↔ Live is k j

theorem held_zero (is : List Instruction) : Held is 0 (List.replicate is.length none) where
  length := List.length_replicate
  live_iff j := by
    constructor
    · rintro ⟨a, ha⟩
      exact absurd ha (getElem?_replicate_none _ j a)
    · rintro ⟨hlt, -⟩
      exact absurd hlt (Nat.not_lt_zero j)

theorem Held.inputValues (h : Held is k values) (hb : Backward is) (hi : is[k]? = some i) :
    ∃ args, Program.inputValues k values i.inputs = .value args := by
  have hin : ∀ r ∈ i.inputs, ∃ a, values[r]? = some (some a) := by
    intro r hr
    rw [h.live_iff]
    exact live_of_readsAt hb ⟨i, hi, hr⟩
  obtain ⟨args, hargs, -⟩ := inputValues_eq_value k hin
  exact ⟨args, hargs⟩

theorem held_iff_filled (hl : LastReads is last) (ho : output + 1 = is.length) :
    Held is k values ↔ Filled last output is.length k values := by
  constructor
  · intro h
    exact ⟨h.length, fun j => (h.live_iff j).trans (live_iff_kept hl ho)⟩
  · intro h
    exact ⟨h.length, fun j => (h.kept_iff j).trans (live_iff_kept hl ho).symm⟩

theorem Held.succeeding (h : Held is k values) (hl : LastReads is last)
    (hlength : last.length = is.length) (hb : Backward is) (hi : is[k]? = some i)
    (ho : output + 1 = is.length) (a : Argument) :
    Held is (k + 1) (succeeding last output k values a i.inputs) := by
  rw [held_iff_filled hl ho] at h ⊢
  exact h.succeeding hl (fun hm => hb _ _ (hl.reads _ _ hm)) hlength ho hi a

/-! ## Tables of a walk -/

theorem stepWith_eq_value
    (h : stepWith kernels params advance k values i w = .value values' w') :
    ∃ a w₁, advance k i values a w₁ = .value values' w' := by
  unfold stepWith at h
  obtain ⟨a, w₁, -, h⟩ := Action.bind_eq_value.mp h
  obtain ⟨w₂, w₃, -, h⟩ := Action.bind_eq_value.mp h
  split at h
  · obtain ⟨_, w₄, -, h⟩ := Action.bind_eq_value.mp h
    exact ⟨a, w₄, h⟩
  · exact ⟨a, w₃, h⟩

/-- Whatever the kernels do, a run holds the values with a use to come. -/
theorem held_of_walk (h : Held is done.length values) (hl : LastReads is last)
    (hlength : last.length = is.length) (hb : Backward is) (ho : output + 1 = is.length)
    {now later : List Instruction} (his : is = done ++ (now ++ later))
    (hwalk : walk kernels params (releasing last output) done.length values now w =
      .value values' w') : Held is (done.length + now.length) values' := by
  induction now generalizing done values w with
  | nil =>
    cases hwalk
    exact h
  | cons i now ih =>
    have hi : is[done.length]? = some i := getElem?_of_split his
    obtain ⟨values₁, w₁, hstep, hwalk⟩ := Action.bind_eq_value.mp hwalk
    obtain ⟨a, w₂, hadvance⟩ := stepWith_eq_value hstep
    have hnext := h.succeeding hl hlength hb hi ho a
    rw [← releasing_eq_value hadvance] at hnext
    have hlen : (done ++ [i]).length = done.length + 1 := by simp
    rw [← hlen] at hnext hwalk
    have hrest := ih hnext (by simp [his]) hwalk
    rw [hlen] at hrest
    rw [List.length_cons]
    have hadd : done.length + (now.length + 1) = done.length + 1 + now.length := by omega
    rw [hadd]
    exact hrest

end Program
end TensorGraph
