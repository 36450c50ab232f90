/-
The order of evaluation.

`Backs` says what it takes for values to stand for the instructions of a program: a
predicate of the values that are kept, in a world, that notes, releases and kernels
preserve.  `run_ends` carries it through a run, at the end of which the output is all that
is kept.
-/
import TensorGraph.Proofs.Program.Table

namespace TensorGraph

/-! ## Kernels that give a value -/

namespace BoundKernel

variable {op : Operator} {id : DeviceId} {s : Shape} {a b : Argument} {args : List Argument}
variable {name : String} {w w' : World}

theorem host_eq_value (h : (host op).compute s args w = .value a w') :
    Kernel.onHost w.nextKey op s args = .value a ∧
      World.retain a { w with nextKey := w.nextKey + 1 } = .value () w' := by
  obtain ⟨key, w₁, hkey, hcomputed⟩ := Action.bind_eq_value.mp h
  cases hkey
  obtain ⟨r, w₂, hlift, hretained⟩ := Action.bind_eq_value.mp hcomputed
  obtain ⟨hr, rfl⟩ := Action.ofOutcome_eq_value.mp hlift
  obtain ⟨_, w₃, hretain, hvalue⟩ := Action.bind_eq_value.mp hretained
  cases hvalue
  exact ⟨hr, hretain⟩

theorem resident_eq_value (h : (resident b).compute s args w = .value a w') :
    a = b ∧ World.retain b w = .value () w' := by
  obtain ⟨_, w₁, hretain, hvalue⟩ := Action.bind_eq_value.mp h
  cases hvalue
  exact ⟨rfl, hretain⟩

theorem view_eq_value (h : (view name).compute s (b :: args) w = .value a w') :
    b.withShape s = .value a ∧ World.retain a w = .value () w' := by
  obtain ⟨b', w₁, hlift, hretained⟩ := Action.bind_eq_value.mp h
  obtain ⟨hb', rfl⟩ := Action.ofOutcome_eq_value.mp hlift
  obtain ⟨_, w₂, hretain, hvalue⟩ := Action.bind_eq_value.mp hretained
  cases hvalue
  exact ⟨hb', hretain⟩

/-- A launch that gives a value made a buffer for it and queued its command. -/
theorem launch_eq_value (h : (launch op id).compute s args w = .value a w') :
    ∃ size b w₁ operands target, s.storageBytes = some size ∧
      World.allocate id size w = .value b w₁ ∧ Argument.make s (.device b) = .value a ∧
      List.Forall₂ (fun a o => World.operand a = .value o) args operands ∧
      World.onDevice id (Device.launch op target operands) w₁ = .value () w' := by
  obtain ⟨size, _, hspace, hallocated⟩ := Action.bind_eq_value.mp h
  obtain ⟨hsize, rfl⟩ := Action.ofOutcome_eq_value.mp hspace
  obtain ⟨b, w₁, hb, hrefusable⟩ := Action.bind_eq_value.mp hallocated
  obtain ⟨result, _, hresult, hlaunched⟩ :=
    Action.bind_eq_value.mp (Action.onRefusal_eq_value.mp hrefusable)
  obtain ⟨hmake, rfl⟩ := Action.ofOutcome_eq_value.mp hresult
  rw [Action.mapM_lift] at hlaunched
  obtain ⟨operands, _, hread, hqueued⟩ := Action.bind_eq_value.mp hlaunched
  obtain ⟨hoperands, rfl⟩ := Action.ofOutcome_eq_value.mp hread
  obtain ⟨target, _, htarget, hcalled⟩ := Action.bind_eq_value.mp hqueued
  obtain ⟨-, rfl⟩ := Action.ofOutcome_eq_value.mp htarget
  obtain ⟨_, w₂, hlaunch, hvalue⟩ := Action.bind_eq_value.mp hcalled
  cases hvalue
  exact ⟨size, b, _, operands, target, Outcome.ofOption_eq_value.mp hsize, hb, hmake,
    Outcome.forall₂_of_mapM hoperands, hlaunch⟩

end BoundKernel

namespace Program

variable {is done now rest : List Instruction} {last : List (Option Nat)} {output : Nat}

/-! ## Kept values -/

/-- The values that an instruction is given are those that it reads. -/
theorem inputValues_eq_some {values : Values} {k : Nat} {inputs : List Nat} {args : List Argument}
    (h : inputValues k values inputs = .value args) :
    List.Forall₂ (fun r a => values[r]? = some (some a)) inputs args := by
  induction inputs generalizing args with
  | nil =>
    cases h
    exact .nil
  | cons r inputs ih =>
    unfold inputValues at h
    split at h
    · next a ha =>
      obtain ⟨args', hargs', h⟩ := Outcome.bind_eq_value.mp h
      cases h
      exact .cons ha (ih hargs')
    · cases h
    · cases h

def keptFrom (position : Nat) : Values → List (Nat × Argument)
  | [] => []
  | none :: rest => keptFrom (position + 1) rest
  | some a :: rest => (position, a) :: keptFrom (position + 1) rest

def kept (values : Values) : List (Nat × Argument) := keptFrom 0 values

theorem keptFrom_set_none {values : Values} {k : Nat} {a : Argument} (position : Nat)
    (h : values[k]? = some (some a)) :
    (keptFrom position values).Perm ((position + k, a) :: keptFrom position (values.set k none)) := by
  induction values generalizing position k with
  | nil => cases h
  | cons v values ih =>
    cases k with
    | zero =>
      cases h
      exact .refl _
    | succ k =>
      have hrest := ih (position + 1) (k := k) h
      rw [Nat.add_assoc, Nat.add_comm 1 k] at hrest
      cases v with
      | none => exact hrest
      | some b => exact (hrest.cons _).trans (.swap ..)

theorem kept_set_none {values : Values} {k : Nat} {a : Argument}
    (h : values[k]? = some (some a)) : (kept values).Perm ((k, a) :: kept (values.set k none)) := by
  have hperm := keptFrom_set_none 0 h
  rwa [Nat.zero_add] at hperm

theorem kept_set_some {values : Values} {k : Nat} (a : Argument) (h : values[k]? = some none) :
    (kept (values.set k (some a))).Perm ((k, a) :: kept values) := by
  have hlt := (List.getElem?_eq_some_iff.mp h).1
  have hperm := kept_set_none (List.getElem?_set_self (a := some a) hlt)
  have hset : (values.set k (some a)).set k none = values := by
    rw [List.set_set, ← (List.getElem?_eq_some_iff.mp h).2, List.set_getElem_self]
  rwa [hset] at hperm

theorem mem_kept {values : Values} {k : Nat} {a : Argument} (h : values[k]? = some (some a)) :
    (k, a) ∈ kept values := (kept_set_none h).mem_iff.mpr List.mem_cons_self

theorem keptFrom_eq_nil {values : Values} (position : Nat)
    (h : ∀ (r : Nat) (a : Argument), values[r]? ≠ some (some a)) :
    keptFrom position values = [] ∧ values.filterMap id = [] := by
  induction values generalizing position with
  | nil => exact ⟨rfl, rfl⟩
  | cons v values ih =>
    cases v with
    | none => exact ih (position + 1) fun r a => h (r + 1) a
    | some a => exact absurd rfl (h 0 a)

theorem kept_replicate (n : Nat) : kept (List.replicate n none) = [] :=
  (keptFrom_eq_nil 0 (getElem?_replicate_none n)).1

/-! ## Backings -/

structure Backs (params : Parameters) (is : List Instruction) (fits : Prop)
    (Holds : Nat → World → List (Nat × Argument) → Prop) : Prop where
  perm : ∀ {k : Nat} {w : World} {es es' : List (Nat × Argument)}, es.Perm es' →
    Holds k w es → Holds k w es'
  note : ∀ {k : Nat} {w : World} {es : List (Nat × Argument)} (level : Level) (text : String),
    Holds k w es → Holds k { w with log := w.log ++ [⟨level, text⟩] } es
  release : ∀ {k : Nat} {w : World} {r : Nat} {a : Argument} {es : List (Nat × Argument)},
    Holds k w ((r, a) :: es) → (World.release a w).Ends fits fun _ w' => Holds k w' es
  parameter : ∀ {k : Nat} {w : World} {i : Instruction} {name : String} {s : Shape}
    {es : List (Nat × Argument)}, is[k]? = some i → i.op = .parameter name s → Holds k w es →
    ∃ a, params.lookup name = some a ∧
      (World.retain a w).Ends fits fun _ w' => Holds (k + 1) w' ((k, a) :: es)
  compute : ∀ {k : Nat} {w : World} {i : Instruction} {args : List Argument}
    {es : List (Nat × Argument)}, is[k]? = some i → i.isParameter = false → Holds k w es →
    List.Forall₂ (fun r a => (r, a) ∈ es) i.inputs args →
    ∃ c, i.kernel = some c ∧
      (c.compute i.shape args w).Ends fits fun a w' => Holds (k + 1) w' ((k, a) :: es)

variable {params : Parameters} {fits : Prop} {Holds : Nat → World → List (Nat × Argument) → Prop}
variable {values : Values} {k : Nat} {w : World} {i : Instruction}

theorem inputValues_eq_value {inputs : List Nat} (position : Nat)
    (h : ∀ r ∈ inputs, ∃ a, values[r]? = some (some a)) :
    ∃ args, inputValues position values inputs = .value args ∧
      List.Forall₂ (fun r a => values[r]? = some (some a)) inputs args := by
  induction inputs with
  | nil => exact ⟨[], rfl, .nil⟩
  | cons r rest ih =>
    obtain ⟨a, ha⟩ := h r List.mem_cons_self
    obtain ⟨args, hargs, hall⟩ := ih fun n hn => h n (List.mem_cons_of_mem _ hn)
    refine ⟨a :: args, ?_, .cons ha hall⟩
    rw [inputValues, ha, hargs]
    rfl

/-! ## One instruction -/

theorem exists_parameter (hp : i.isParameter = true) : ∃ name s, i.op = .parameter name s := by
  obtain ⟨op, inputs, s, kernel⟩ := i
  cases op with
  | parameter name t => exact ⟨name, t, rfl⟩
  | _ => cases hp

theorem instructionValue_of_parameter {name : String} {s : Shape} {a : Argument}
    (hop : i.op = .parameter name s) (ha : params.lookup name = some a) :
    instructionValue params k i values = (do World.retain a; return a) := by
  unfold instructionValue
  rw [hop]
  dsimp only
  rw [ha]

theorem instructionValue_of_missing {name : String} {s : Shape} (hop : i.op = .parameter name s)
    (ha : params.lookup name = none) :
    instructionValue params k i values = Action.refuse (.parameter name .missing) := by
  unfold instructionValue
  rw [hop]
  dsimp only
  rw [ha]

theorem parameter_eq_value {name : String} {s : Shape} (hop : i.op = .parameter name s)
    {w' : World} (h : instructionValue params k i values w = .value a w') :
    params.lookup name = some a ∧ World.retain a w = .value () w' := by
  cases ha : params.lookup name with
  | none =>
    rw [instructionValue_of_missing hop ha] at h
    cases h
  | some b =>
    rw [instructionValue_of_parameter hop ha] at h
    obtain ⟨_, w₁, hretain, hreturn⟩ := Action.bind_eq_value.mp h
    cases hreturn
    exact ⟨rfl, hretain⟩

theorem instructionValue_of_kernel {c : BoundKernel} (hp : i.isParameter = false)
    (hc : i.kernel = some c) :
    instructionValue params k i values = (do
      let inputs ← inputValues k values i.inputs
      c.compute i.shape inputs) := by
  unfold instructionValue
  obtain ⟨op, inputs, s, kernel⟩ := i
  obtain rfl : kernel = some c := hc
  cases op with
  | parameter => cases hp
  | _ => rfl

/-- A value of an instruction is what its kernel computes from values of its inputs. -/
theorem instructionValue_eq_value {c : BoundKernel} (hp : i.isParameter = false)
    (hc : i.kernel = some c) {w' : World} :
    instructionValue params k i values w = .value a w' ↔
      ∃ args, inputValues k values i.inputs = .value args ∧
        c.compute i.shape args w = .value a w' := by
  rw [instructionValue_of_kernel hp hc, Action.bind_eq_value]
  constructor
  · rintro ⟨args, _, hlift, hcompute⟩
    obtain ⟨hargs, rfl⟩ := Action.ofOutcome_eq_value.mp hlift
    exact ⟨args, hargs, hcompute⟩
  · rintro ⟨args, hargs, hcompute⟩
    exact ⟨args, w, Action.ofOutcome_eq_value.mpr ⟨hargs, rfl⟩, hcompute⟩

theorem instructionValue_of_unbound (hp : i.isParameter = false) (hc : i.kernel = none) :
    instructionValue params k i values =
      Action.refuse (.lowering i.op.name "unbound" (.unbound k)) := by
  unfold instructionValue
  obtain ⟨op, inputs, s, kernel⟩ := i
  obtain rfl : kernel = none := hc
  cases op with
  | parameter => cases hp
  | _ => rfl

theorem Backs.instructionValue_ends (hb : Backs params is fits Holds) (hi : is[k]? = some i)
    (h : Holds k w (kept values)) (hin : ∀ r ∈ i.inputs, ∃ a, values[r]? = some (some a)) :
    (instructionValue params k i values w).Ends fits
      fun a w' => Holds (k + 1) w' ((k, a) :: kept values) := by
  by_cases hp : i.isParameter = true
  · obtain ⟨name, s, hop⟩ := exists_parameter hp
    obtain ⟨a, ha, hends⟩ := hb.parameter hi hop h
    rw [instructionValue_of_parameter hop ha]
    exact Action.ends_bind hends fun _ _ h' => h'
  · rw [Bool.not_eq_true] at hp
    obtain ⟨args, hargs, hall⟩ := inputValues_eq_value k hin
    obtain ⟨c, hc, hends⟩ := hb.compute hi hp h (hall.imp fun r a hr => mem_kept hr)
    rw [instructionValue_of_kernel hp hc, Action.bind_lift_of_value hargs]
    exact hends

/-! ## One step -/

theorem Backs.releaseDead_ends (hb : Backs params is fits Holds) (inputs : List Nat) (m : Nat)
    (es : List (Nat × Argument)) (h : Holds k w (es ++ kept values)) :
    (releaseDead last m values inputs w).Ends fits
      fun values' w' => Holds k w' (es ++ kept values') := by
  induction inputs generalizing values w with
  | nil => exact h
  | cons s rest ih =>
    rcases releaseDead_cons last m values s rest with ⟨a, ha, heq, -⟩ | ⟨heq, -⟩
    · have hperm : (es ++ kept values).Perm ((s, a) :: (es ++ kept (values.set s none))) :=
        ((kept_set_none ha).append_left es).trans List.perm_middle
      rw [heq]
      exact Action.ends_bind (hb.release (hb.perm hperm h)) fun _ w' h' => ih h'
    · rw [heq]
      exact ih h

theorem Backs.releasing_ends (hb : Backs params is fits Holds) {m : Nat} {a : Argument}
    (hfree : values[m]? = some none) (h : Holds k w ((m, a) :: kept values)) :
    (releasing last output m i values a w).Ends fits fun values' w' => Holds k w' (kept values') := by
  unfold releasing
  split
  · exact hb.releaseDead_ends i.inputs m [] (hb.perm (kept_set_some a hfree).symm h)
  · exact Action.ends_bind (hb.releaseDead_ends i.inputs m [(m, a)] h) fun _ _ h' =>
      Action.ends_bind (hb.release h') fun _ _ h'' => h''

theorem Backs.settling_ends (hb : Backs params is fits Holds) {m : Nat} {a : Argument}
    (hfree : values[m]? = some none) (h : Holds k w ((m, a) :: kept values)) :
    (settling last output m i values a w).Ends fits fun values' w' => Holds k w' (kept values') := by
  rcases settling_cases last output m i values a w with heq | ⟨text, heq⟩
  · rw [heq]
    exact hb.releasing_ends hfree h
  · rw [heq]
    exact hb.releasing_ends hfree (hb.note .debug text h)

theorem Backs.runStep_ends (hb : Backs params is fits Holds) (hl : LastReads is last)
    (hlen : last.length = is.length) (hc : Consistent is) (ho : output + 1 = is.length)
    (hi : is[k]? = some i) (hf : Filled last output is.length k values)
    (h : Holds k w (kept values)) :
    (runStep params last output k values i w).Ends fits fun values' w' =>
      Filled last output is.length (k + 1) values' ∧ Holds (k + 1) w' (kept values') := by
  have hvalue := hb.instructionValue_ends hi h (hf.exists_input hl hc hi)
  rw [runStep_eq]
  refine Action.ends_bind (Action.ends_onRefusal hvalue) ?_
  intro a w₁ h₁
  refine (hb.settling_ends (hf.free (List.getElem?_eq_some_iff.mp hi).1) h₁).with_value.mono ?_
  rintro values' w' ⟨hsettle, h'⟩
  rw [settling_eq_value hsettle] at h' ⊢
  exact ⟨hf.succeeding hl (hl.later hc) hlen ho hi a, h'⟩

/-! ## Runs -/

theorem Backs.runFrom_ends (hb : Backs params is fits Holds) (hl : LastReads is last)
    (hlen : last.length = is.length) (hc : Consistent is) (ho : output + 1 = is.length)
    (his : is = done ++ now ++ rest) (hf : Filled last output is.length done.length values)
    (h : Holds done.length w (kept values)) :
    (runFrom params last output done.length values now w).Ends fits fun values' w' =>
      Filled last output is.length (done ++ now).length values' ∧
        Holds (done ++ now).length w' (kept values') := by
  induction now generalizing done values w with
  | nil =>
    rw [List.append_nil]
    exact ⟨hf, h⟩
  | cons i now ih =>
    have hi : is[done.length]? = some i :=
      getElem?_of_split (his.trans (List.append_assoc ..))
    rw [runFrom_cons]
    refine Action.ends_bind (hb.runStep_ends hl hlen hc ho hi hf h) ?_
    rintro values' w' ⟨hf', h'⟩
    have hdone : (done ++ [i]).length = done.length + 1 := List.length_append
    rw [← hdone] at hf' h' ⊢
    rw [List.append_cons] at his ⊢
    exact ih his hf' h'

/-- A run whose values are backed gives a value for the output, which is then all that is
kept. -/
theorem Backs.run_ends {p : Program} (hb : Backs params p.instructions fits Holds)
    (hc : Consistent p.instructions) (hne : p.instructions ≠ []) (ht : p.isCompiled = true)
    (hcheck : checkParameters params p.parameters = .value ()) (h : Holds 0 w []) :
    (p.run params w).Ends fits fun a w' => Holds p.size w' [(p.size - 1, a)] := by
  obtain ⟨last, hlast, hlen, hl⟩ := exists_lastUses hc
  have hpos : 0 < p.size := List.length_pos_iff.mpr hne
  have ho : p.size - 1 + 1 = p.instructions.length := Nat.sub_add_cancel hpos
  have houtput : p.output? = some (p.size - 1) := by
    rw [output?, List.isEmpty_eq_false_iff.mpr hne]
    rfl
  have hstart : Holds ([] : List Instruction).length w (kept (List.replicate p.size none)) := by
    rw [kept_replicate]
    exact h
  unfold run
  rw [ht, houtput, Bool.not_true, if_neg Bool.false_ne_true]
  beta_reduce
  rw [Action.bind_lift_of_value hcheck]
  refine Action.ends_bind (P := fun found w' => found = last ∧ w' = w)
    (by rw [hlast]; exact ⟨rfl, rfl⟩) ?_
  rintro _ _ ⟨rfl, rfl⟩
  refine Action.ends_bind (hb.runFrom_ends hl hlen hc ho (List.append_nil _).symm
    (filled_zero _ _ _) hstart) ?_
  rintro values w' ⟨hf', h'⟩
  obtain ⟨⟨a, ha⟩, hrest⟩ := hf'.only_output hl ho
  have hkept := hb.perm (kept_set_none ha) h'
  rw [kept, (keptFrom_eq_nil 0 hrest).1] at hkept
  rw [getD_eq_some.mpr ha]
  refine Action.ends_bind (P := fun _ w'' => w'' = w') ?_ ?_
  · rw [releaseValues, (keptFrom_eq_nil 0 hrest).2]
    exact rfl
  · rintro _ _ rfl
    exact hkept

end Program
end TensorGraph
