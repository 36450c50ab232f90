/-
Row-major inputs.

Inserting copies establishes that every operator it is told to look at reads row-major storage, and
a program in which that is so already is left as it is; so the pass is the same done once or twice.
What it establishes the transfers leave alone, and `Reached.rowMajor` follows it to every program
that was compiled.
-/
import TensorGraph.Proofs.Program.History
import TensorGraph.Proofs.Program.Liveness

namespace TensorGraph
namespace Program

variable {p q : Program} {selects needs : Operator → Bool} {is : List Instruction}
variable {i j : Instruction} {positions : List (Option Nat)}

theorem StandardAt.lt {r : Nat} (h : StandardAt is r) : r < is.length := by
  obtain ⟨i, hi, -⟩ := h
  exact (List.getElem?_eq_some_iff.mp hi).1

theorem StandardAt.of_append {js : List Instruction} {r : Nat} (h : StandardAt (is ++ js) r)
    (hr : r < is.length) : StandardAt is r := by
  obtain ⟨i, hi, hs⟩ := h
  rw [List.getElem?_append_left hr] at hi
  exact ⟨i, hi, hs⟩

theorem Backward.concat (h : Backward is) (hj : ∀ r ∈ j.inputs, r < is.length) :
    Backward (is ++ [j]) := by
  rintro k r ⟨i, hi, hr⟩
  rcases getElem?_concat_eq hi with hi | ⟨rfl, rfl⟩
  · exact h k r ⟨i, hi, hr⟩
  · exact hj r hr

/-- Whether instructions read earlier ones, and those that are selected row-major storage. -/
structure Settles (selects : Operator → Bool) (is : List Instruction) : Prop where
  backward : Backward is
  rowMajor : ReadsRowMajor selects is

theorem settles_nil : Settles selects [] where
  backward _ _ h := absurd h.lt_length (Nat.not_lt_zero _)
  rowMajor _ hi := absurd hi List.not_mem_nil

theorem Settles.concat (h : Settles selects is) (hlt : ∀ r ∈ j.inputs, r < is.length)
    (hj : selects j.op = true → ∀ r ∈ j.inputs, StandardAt is r) : Settles selects (is ++ [j]) :=
  ⟨h.backward.concat hlt, h.rowMajor.concat hj⟩

/-! ## Inserting copies -/

/-- Copies come before what reads them, and are not selected themselves. -/
theorem Settles.contiguousInputs (hcopy : selects .contiguous = false)
    (h : Settles selects q.instructions) {inputs inputs' : List Nat} {q' : Program}
    (hq : contiguousInputs inputs q = .value inputs' q') :
    Settles selects q'.instructions ∧ (∀ r ∈ inputs', StandardAt q'.instructions r) ∧
      ∃ copies, q'.instructions = q.instructions ++ copies := by
  induction inputs generalizing q inputs' q' with
  | nil =>
    cases hq
    exact ⟨h, fun _ hr => (nomatch hr), [], (List.append_nil _).symm⟩
  | cons r rest ih =>
    unfold Program.contiguousInputs at hq
    rw [Action.bind_of_value Action.get_apply] at hq
    obtain ⟨i, _, hlook, hread⟩ := Action.bind_eq_value.mp hq
    obtain ⟨hget, rfl⟩ := Action.ofOutcome_eq_value.mp hlook
    obtain ⟨standard, _, htest, hcopied⟩ := Action.bind_eq_value.mp hread
    obtain ⟨hstd, rfl⟩ := Action.ofOutcome_eq_value.mp htest
    clear hq hread hlook htest
    rename_i q
    have hi : q.instructions[r]? = some i := eq_of_get hget
    cases standard with
    | true =>
      obtain ⟨rest', q₁, hrest, hdone⟩ := Action.bind_eq_value.mp hcopied
      cases hdone
      obtain ⟨hsettles, hall, copies, hcopies⟩ := ih h hrest
      refine ⟨hsettles, ?_, copies, hcopies⟩
      rw [List.forall_mem_cons, hcopies]
      exact ⟨StandardAt.append ⟨i, hi, Outcome.ofOption_eq_value.mp hstd⟩ copies,
        hcopies ▸ hall⟩
    | false =>
      obtain ⟨copy, q₁, hadd, hlater⟩ := Action.bind_eq_value.mp hcopied
      obtain ⟨rest', q₂, hrest, hdone⟩ := Action.bind_eq_value.mp hlater
      cases hdone
      rcases addInstruction_cases .contiguous [r] q with hadd' | ⟨e, hadd'⟩ |
        ⟨s, -, -, hfitted, hadd'⟩
      · rw [hadd] at hadd'
        cases hadd'
      · rw [hadd] at hadd'
        cases hadd'
      rw [hadd] at hadd'
      cases hadd'
      have hs : s.isStandard = some true := by
        obtain ⟨shapes, -, hinfer⟩ := hfitted
        cases Operator.infers_of_infer hinfer with
        | contiguous ht => exact Shape.isStandard_of_standard ht
      have hnew : Settles selects
          (q.instructions ++ [{ op := .contiguous, inputs := [r], shape := s }]) :=
        h.concat hfitted.inputs_lt fun hsel => absurd (hcopy.symm.trans hsel) Bool.false_ne_true
      obtain ⟨hsettles, hall, copies, hcopies⟩ := ih hnew hrest
      refine ⟨hsettles, ?_, _, hcopies.trans (List.append_assoc ..)⟩
      rw [List.forall_mem_cons, hcopies]
      exact ⟨StandardAt.append ⟨_, List.getElem?_concat_length, hs⟩ copies, hcopies ▸ hall⟩

def looksAt (needs : Operator → Bool) (op : Operator) : Bool := needs op || isReshape op

structure Settling (needs : Operator → Bool) (positions : List (Option Nat)) (q : Program) : Prop
    where
  settles : Settles (looksAt needs) q.instructions
  bounded : ∀ k n : Nat, positions[k]? = some (some n) → n < q.instructions.length

theorem settling_nil {q : Program} : Settling needs [] { q with instructions := [] } where
  settles := settles_nil
  bounded _ _ hk := by cases hk

theorem Settling.step (hcopy : needs .contiguous = false) (h : Settling needs positions q)
    {now : Option Nat} {q' : Program}
    (hq : stepOn (insertStep needs) positions i q = .value now q') :
    Settling needs (positions ++ [now]) q' := by
  obtain ⟨inputs, hr, hq⟩ := stepOn_eq_value hq
  have hpush : ∀ {q₁ : Program} {inputs' : List Nat}, Settles (looksAt needs) q₁.instructions →
      (∃ copies, q₁.instructions = q.instructions ++ copies) →
      (∀ r ∈ inputs', r < q₁.instructions.length) →
      (looksAt needs i.op = true → ∀ r ∈ inputs', StandardAt q₁.instructions r) →
      Settling needs (positions ++ [some q₁.size])
        { q₁ with instructions := q₁.instructions ++ [{ i with inputs := inputs' }] } := by
    rintro q₁ inputs' hsettles ⟨copies, hcopies⟩ hlt hstd
    refine ⟨hsettles.concat hlt hstd, fun k n hk => ?_⟩
    rw [List.length_append, List.length_singleton]
    rcases getElem?_concat_eq hk with hk | ⟨-, hn⟩
    · have hbound := h.bounded k n hk
      rw [hcopies, List.length_append]
      omega
    · cases hn
      exact Nat.lt_succ_self _
  unfold insertStep at hq
  dsimp only at hq
  split at hq
  · next hsel =>
    obtain ⟨inputs', q₁, hin, hq⟩ := Action.bind_eq_value.mp hq
    cases hq
    have hcopy' : looksAt needs .contiguous = false := by
      unfold looksAt
      rw [hcopy]
      rfl
    obtain ⟨hsettles, hstd, hcopies⟩ := h.settles.contiguousInputs hcopy' hin
    exact hpush hsettles hcopies (fun r hr => (hstd r hr).lt) fun _ => hstd
  · next hsel =>
    cases hq
    exact hpush h.settles ⟨[], (List.append_nil _).symm⟩ (hr.forall_mem h.bounded)
      fun hsel' => absurd hsel' hsel

/-- Whatever program is given, what the pass looks at reads row-major storage afterwards. -/
theorem settles_of_insertContiguous (hcopy : needs .contiguous = false) {u : Unit}
    (hq : insertContiguous needs p = .value u q) : Settles (looksAt needs) q.instructions := by
  rw [insertContiguous_eq, rebuild_apply] at hq
  obtain ⟨positions, h⟩ := rebuildFrom_value (I := fun _ positions q => Settling needs positions q)
    (fun _ _ _ _ _ _ _ _ h hstep => h.step hcopy hstep) (List.nil_append _).symm
    settling_nil hq
  exact h.settles

/-! ## Inserting copies again -/

theorem contiguousInputs_of_standardAt {inputs : List Nat}
    (h : ∀ r ∈ inputs, StandardAt q.instructions r) :
    contiguousInputs inputs q = .value inputs q := by
  induction inputs with
  | nil => rfl
  | cons r rest ih =>
    rw [List.forall_mem_cons] at h
    obtain ⟨⟨i, hi, hs⟩, hrest⟩ := h
    unfold contiguousInputs
    rw [Action.bind_of_value Action.get_apply, Action.bind_lift_of_value (get_of_getElem? hi),
      Action.bind_lift_of_some hs]
    exact Action.bind_of_value (ih hrest)

def unmoved (count : Nat) : List (Option Nat) := (List.range count).map some

theorem renumbered_unmoved {inputs : List Nat} {count : Nat} (h : ∀ r ∈ inputs, r < count) :
    Renumbered (unmoved count) inputs inputs := by
  induction inputs with
  | nil => exact .nil
  | cons r rest ih =>
    rw [List.forall_mem_cons] at h
    refine .cons ?_ (ih h.2)
    rw [unmoved, List.getElem?_map, List.getElem?_range h.1]
    rfl

/-- A pass whose steps append each instruction as it is gives back the program. -/
theorem rebuild_eq_self {step : Nat → Instruction → Action Program (Option Nat)}
    (hb : Backward p.instructions) (hstep : ∀ done i rest, p.instructions = done ++ i :: rest →
      step done.length i { p with instructions := done } =
        .value (some done.length) { p with instructions := done ++ [i] }) :
    rebuild step p = .value () p := by
  have hfrom : ∀ rest done, p.instructions = done ++ rest →
      rebuildFrom step (unmoved done.length) rest { p with instructions := done } =
        .value () p := by
    intro rest
    induction rest with
    | nil =>
      intro done hdone
      rw [List.append_nil] at hdone
      rw [← hdone]
      rfl
    | cons i rest ih =>
      intro done hdone
      have hlt : ∀ r ∈ i.inputs, r < done.length := fun r hr =>
        hb done.length r ⟨i, getElem?_of_split hdone, hr⟩
      have hlen : (unmoved done.length).length = done.length := by
        rw [unmoved, List.length_map, List.length_range]
      have hnext : unmoved (done ++ [i]).length = unmoved done.length ++ [some done.length] := by
        rw [unmoved, List.length_append, List.length_singleton, List.range_succ, List.map_append]
        rfl
      rw [rebuildFrom_cons, Action.bind_of_value
        ((stepOn_of_renumbered (renumbered_unmoved hlt)).trans
          ((congrArg (step · i _) hlen).trans (hstep done i rest hdone))), ← hnext]
      exact ih (done ++ [i]) (hdone.trans (by rw [List.append_assoc]; rfl))
  rw [rebuild_apply]
  exact hfrom p.instructions [] rfl

/-- Nothing is copied where all that the pass looks at reads row-major storage. -/
theorem insertContiguous_of_settles (h : Settles (looksAt needs) p.instructions) :
    insertContiguous needs p = .value () p := by
  rw [insertContiguous_eq]
  refine rebuild_eq_self h.backward fun done i rest hdone => ?_
  show (if (needs i.op || isReshape i.op) = true then _ else _ : Action Program _) _ = _
  split
  · next hsel =>
    have hstd : ∀ r ∈ i.inputs, StandardAt done r := fun r hr => by
      have hall := h.rowMajor i (mem_of_split hdone) hsel r hr
      rw [hdone] at hall
      exact hall.of_append (h.backward done.length r ⟨i, getElem?_of_split hdone, hr⟩)
    rw [Action.bind_of_value (contiguousInputs_of_standardAt hstd)]
    rfl
  · rfl

/-! ## Transfers -/

theorem ReadsRowMajor.moveStep (h : ReadsRowMajor selects q.instructions)
    (hup : selects .hostToDevice = false) {done rest : List Instruction}
    (hsplit : p.instructions = done ++ i :: rest) (hp : ReadsRowMajor selects p.instructions)
    (hm : Moving p done positions q) {now : Option Nat} {q' : Program}
    (hq : stepOn moveStep positions i q = .value now q') :
    ReadsRowMajor selects q'.instructions := by
  obtain ⟨inputs, hr, hq⟩ := stepOn_eq_value hq
  rw [moveStep_apply hm.progress.target] at hq
  have hp' := hp i (mem_of_split hsplit)
  rw [hsplit] at hp'
  have hpushed : ReadsRowMajor selects (q.instructions ++ [{ i with inputs := inputs }]) :=
    h.concat fun hsel => hm.progress.rebuilt.standardAt hr (hp' hsel)
  split at hq
  · cases hq
    exact hpushed.concat fun hsel => absurd (hup.symm.trans hsel) Bool.false_ne_true
  · cases hq
    exact hpushed

theorem ReadsRowMajor.insertTransfers (hup : selects .hostToDevice = false)
    (hdown : selects .deviceToHost = false) (hc : Consistent p.instructions)
    (ht : p.target = none) (hp : ReadsRowMajor selects p.instructions) {offload : Bool} {u : Unit}
    (hq : insertTransfers offload p = .value u q) : ReadsRowMajor selects q.instructions := by
  obtain ⟨r, hr, hback⟩ := insertTransfers_eq_value hq
  rw [rebuild_apply] at hr
  obtain ⟨positions, -, h⟩ := rebuildFrom_value
    (I := fun done positions q => Moving p done positions q ∧ ReadsRowMajor selects q.instructions)
    (fun done i rest positions q now q' hsplit h hstep =>
      ⟨h.1.step hc hsplit hstep, h.2.moveStep hup hsplit hp h.1 hstep⟩)
    (List.nil_append _).symm ⟨moving_nil ht, settles_nil.rowMajor⟩ hr
  rcases hback with ⟨rfl, -⟩ | ⟨-, -, s, rfl⟩
  · exact h
  · exact h.concat fun hsel => absurd (hdown.symm.trans hsel) Bool.false_ne_true

/-! ## Compiled programs -/

/-- The operators that read row-major storage on a target, reshapes included. -/
def readsOn (t : Target) : Operator → Bool :=
  match t.backend with
  | .host _ => looksAt Target.hostNeeds
  | .device _ => looksAt Target.deviceNeeds

theorem rowMajor_of_lowers {t : Target} (hs : t.Stock) (hc : Consistent p.instructions)
    (ht : p.target = none) (h : Lowers t.passes p q) :
    ReadsRowMajor (readsOn t) q.instructions := by
  obtain rfl | ⟨id, offload, rfl⟩ := hs
  · obtain ⟨r, hdead, r', hinsert, rfl⟩ := h
    exact (settles_of_insertContiguous rfl hinsert).rowMajor
  · obtain ⟨r, hdead, r', hinsert, r'', hmove, rfl⟩ := h
    have hlow := lowered_of_insertContiguous (fun op => deviceNeeds_keeps) hc ht hdead hinsert
    exact (settles_of_insertContiguous rfl hinsert).rowMajor.insertTransfers rfl rfl hlow.consistent
      hlow.refines.target hmove

/-- A call on an open program leaves it open, unless it compiles it. -/
theorem Step.of_open (h : Step p q) (ht : p.target = none) :
    q.target = none ∨ ∃ t w w', t.Stock ∧ p.compile t w = .value q w' := by
  cases h with
  | @addParameter _ name s hq =>
    have hopen : (Program.addParameter name s p).Always fun q => q.target = none := by
      rcases addParameter_cases name s p with ⟨e, h⟩ | ⟨-, -, h⟩ <;> rw [h] <;> exact ht
    exact Or.inl (hopen.of_leaves hq)
  | @addInstruction _ op inputs hq =>
    have hopen : (Program.addInstruction op inputs p).Always fun q => q.target = none := by
      rcases addInstruction_cases op inputs p with h | ⟨e, h⟩ | ⟨s, -, -, -, h⟩ <;> rw [h]
      · exact trivial
      · exact ht
      · exact ht
    exact Or.inl (hopen.of_leaves hq)
  | addLiteral hq =>
    rw [addLiteral_of_open ht] at hq
    cases hq
    exact Or.inl ht
  | addLiteralRefused => exact Or.inl ht
  | compile hs hq => exact Or.inr ⟨_, _, _, hs, hq⟩
  | compileRefused => exact Or.inl ht

theorem Reached.rowMajor (h : Reached p) {t : Target} (ht : p.target = some t) :
    ReadsRowMajor (readsOn t) p.instructions := by
  induction h generalizing t with
  | refl => cases ht
  | @tail p q hp hstep ih =>
    have hsound : Sound p := Reached.sound hp
    rcases Option.eq_none_or_eq_some p.target with hopen | ⟨t', ht'⟩
    · rcases hstep.of_open hopen with hnone | ⟨t', w, w', hs, hcompile⟩
      · rw [hnone] at ht
        cases ht
      · obtain ⟨-, hqt, lowered, hlowers, hrebound⟩ := compile_eq_value hcompile
        rw [hqt] at ht
        cases ht
        have hbare : q.instructions.map bare = lowered.instructions.map bare := hrebound.bare_eq
        rw [← readsRowMajor_map_bare, hbare, readsRowMajor_map_bare]
        exact rowMajor_of_lowers hs hsound.wellFormed.consistent hopen hlowers
    · obtain ⟨hqt, -, added, hadded, hliterals⟩ := hstep.grown hsound ht'
      rw [hqt] at ht
      cases ht
      rw [hadded]
      intro i hi hsel r hr
      rcases List.mem_append.mp hi with hi | hi
      · exact (ih ht' i hi hsel r hr).append added
      · obtain ⟨l, k, rfl, -⟩ := hliterals i hi
        cases hr

/-- Inserting copies establishes row-major inputs for good.  On every program that was built, with
every selection that leaves the copies themselves out, the pass is refused nowhere and goes through
where the sizes of row-major layouts are words.  Then each selected operator and each reshape reads
row-major storage, and the pass done again changes nothing.  So the matrix product, softmax, the
convolution and reshapes read row-major storage in every program that was compiled for the host, and
in every one compiled for a device all that computes does, copies apart, and so do reshapes. -/
theorem insertContiguous_settles :
    (∀ (p : Program) (needs : Operator → Bool), Built p → needs .contiguous = false →
      ((Pass.insertContiguous needs).apply p).Ends (HasRowMajorInputs needs p.instructions)
        fun _ q => (∀ i ∈ q.instructions, needs i.op = true ∨ isReshape i.op = true →
          ∀ r ∈ i.inputs, StandardAt q.instructions r) ∧
        (Pass.insertContiguous needs).apply q = .value () q) ∧
    ∀ q, Reached q →
      (q.target = some .host → ∀ i ∈ q.instructions,
        (∃ factor, i.op = .gemm factor) ∨ (∃ axis, i.op = .softmax axis) ∨
          (∃ c, i.op = .convolution c) ∨ (∃ dims, i.op = .reshape dims) →
        ∀ r ∈ i.inputs, StandardAt q.instructions r) ∧
      ∀ id offload, q.target = some (.device id offload) → ∀ i ∈ q.instructions,
        i.op.isCompute = true ∧ i.op ≠ .contiguous ∨ (∃ dims, i.op = .reshape dims) →
        ∀ r ∈ i.inputs, StandardAt q.instructions r := by
  refine ⟨fun p needs hb hcopy => ?_, fun q hq => ⟨fun ht i hi hop => ?_,
    fun id offload ht i hi hop => ?_⟩⟩
  · obtain ⟨hwell, htarget, -, -⟩ := hb.unbound
    have hends : (insertContiguous needs p).Ends (HasRowMajorInputs needs p.instructions) _ :=
      insertContiguous_ends hwell.consistent htarget id
    show (insertContiguous needs p).Ends _ _
    cases hrun : insertContiguous needs p with
    | value u q =>
      have hsettles := settles_of_insertContiguous hcopy hrun
      exact ⟨fun i hi hsel => hsettles.rowMajor i hi ((Bool.or_eq_true _ _).mpr hsel),
        insertContiguous_of_settles hsettles⟩
    | refused e q =>
      rw [hrun] at hends
      exact hends
    | halted =>
      rw [hrun] at hends
      exact hends
  · refine hq.rowMajor ht i hi ?_
    rcases hop with ⟨_, hop⟩ | ⟨_, hop⟩ | ⟨_, hop⟩ | ⟨_, hop⟩ <;> rw [hop] <;> rfl
  · refine hq.rowMajor ht i hi ?_
    rcases hop with ⟨hcompute, hne⟩ | ⟨_, hop⟩
    · show (Target.deviceNeeds i.op || isReshape i.op) = true
      have hneeds : Target.deviceNeeds i.op = i.op.isCompute := by
        unfold Target.deviceNeeds
        split
        · next hop => exact absurd hop hne
        · rfl
      rw [hneeds, hcompute]
      rfl
    · rw [hop]
      rfl

def square : Shape := ⟨.float, [⟨2, 2⟩, ⟨2, 1⟩]⟩

def transposedSquare : Program where
  instructions :=
    [{ op := .parameter "x" square, inputs := [], shape := square },
     { op := .transpose [1, 0], inputs := [0], shape := ⟨.float, [⟨2, 1⟩, ⟨2, 2⟩]⟩ },
     { op := .gemm 0x3f800000, inputs := [1, 1], shape := square }]
  parameters := [("x", square)]

theorem built_transposedSquare : Built transposedSquare := by
  have hx : addParameter "x" square {} = .value 0
      { instructions := transposedSquare.instructions.take 1, parameters := [("x", square)] } := rfl
  have hturned : addInstruction (.transpose [1, 0]) [0]
      { instructions := transposedSquare.instructions.take 1, parameters := [("x", square)] } =
        .value 1 { instructions := transposedSquare.instructions.take 2,
                   parameters := [("x", square)] } := rfl
  have hproduct : addInstruction (.gemm 0x3f800000) [1, 1]
      { instructions := transposedSquare.instructions.take 2, parameters := [("x", square)] } =
        .value 2 transposedSquare := rfl
  have hplain : ∀ l, Operator.transpose [1, 0] = .literal l → l.Made := fun _ h => nomatch h
  have hplain' : ∀ l, Operator.gemm 0x3f800000 = .literal l → l.Made := fun _ h => nomatch h
  exact .instruction (.instruction (.parameter .empty hx) hplain hturned) hplain' hproduct

/-- The transposed matrix is copied for each of its two uses, and then no more. -/
theorem insertContiguous_settles_transposedSquare :
    (Built transposedSquare ∧ ¬StandardAt transposedSquare.instructions 1) ∧
    (∃ q i, (Pass.insertContiguous Target.hostNeeds).apply transposedSquare = .value () q ∧
      q.last? = some i ∧ i.inputs = [2, 3] ∧ (∀ r ∈ i.inputs, StandardAt q.instructions r) ∧
      (Pass.insertContiguous Target.hostNeeds).apply q = .value () q) ∧
    (∃ q w, transposedSquare.compile .host {} = .value q w ∧ ∀ i ∈ q.instructions,
      i.op = .gemm 0x3f800000 → ∀ r ∈ i.inputs, StandardAt q.instructions r) ∧
    ∃ q w, transposedSquare.compile (.device 0 true) { devices := [{}] } = .value q w ∧
      ∀ i ∈ q.instructions, i.op.isCompute = true ∧ i.op ≠ .contiguous →
        ∀ r ∈ i.inputs, StandardAt q.instructions r := by
  have hfit : HasRowMajorInputs Target.hostNeeds transposedSquare.instructions := by
    have hall : ∀ j ∈ transposedSquare.instructions,
        (Axis.rowMajor j.shape.lens).isSome = true := by decide
    exact fun _ _ _ _ _ j hj => Option.isSome_iff_exists.mp (hall j (List.mem_of_getElem? hj))
  have hreached := built_transposedSquare.reached
  refine ⟨⟨built_transposedSquare, ?_⟩, ?_, ?_, ?_⟩
  · rintro ⟨i, hi, hs⟩
    cases hi
    revert hs
    decide
  · obtain ⟨q, hq⟩ : ∃ q, (Pass.insertContiguous Target.hostNeeds).apply transposedSquare =
        .value () q := ⟨_, rfl⟩
    obtain ⟨hreads, hagain⟩ := (insertContiguous_settles.1 transposedSquare Target.hostNeeds
      built_transposedSquare rfl).of_value hq
    cases hq
    exact ⟨_, _, rfl, rfl, rfl, hreads _ (List.mem_of_getLast? rfl) (Or.inl rfl), hagain⟩
  · obtain ⟨q, w, hq⟩ : ∃ q w, transposedSquare.compile .host {} = .value q w := ⟨_, _, rfl⟩
    have hall := (insertContiguous_settles.2 q (hreached.tail (.compile (Or.inl rfl) hq))).1
      (compile_eq_value hq).2.1
    exact ⟨q, w, hq, fun i hi hop => hall i hi (Or.inl ⟨_, hop⟩)⟩
  · obtain ⟨q, w, hq, -⟩ := Turn.exists_of_passes
      (show (transposedSquare.compile (.device 0 true) { devices := [{}] }).passes
        (fun _ _ => true) = true by decide +kernel)
    have hall := (insertContiguous_settles.2 q
      (hreached.tail (.compile (Or.inr ⟨0, true, rfl⟩) hq))).2 0 true (compile_eq_value hq).2.1
    exact ⟨q, w, hq, fun i hi hop => hall i hi (Or.inl hop)⟩

end Program
end TensorGraph
