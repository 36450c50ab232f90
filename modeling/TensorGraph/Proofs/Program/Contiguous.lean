/-
Inserting row-major copies.

The pass copies inputs of the operators it is told to select, and of every reshape, and
keeps the shapes recorded for those operators.  For an operator whose output is row-major
anyway the recorded shape stays the inferred one.  The layout of a transpose or a transfer
follows its input, so there the two part exactly if the input was not row-major before.
`insertContiguous_ends` says both, for every choice of operators.
-/
import TensorGraph.Proofs.Program.Passes

namespace TensorGraph

/-! ## Copied shapes -/

/-- What stands in for a shape as an input: itself if it is row-major, else its row-major
counterpart. -/
def Shape.Settled (s s' : Shape) : Prop :=
  s.isStandard = some true ∧ s' = s ∨ s.isStandard = some false ∧ s.asStandard = some s'

theorem Shape.Settled.relaid {s s' : Shape} (h : s.Settled s') : s.Relaid s' := by
  rcases h with ⟨-, rfl⟩ | ⟨-, h⟩
  · exact Relaid.refl s'
  · exact relaid_of_asStandard h

theorem Shape.Settled.isStandard {s s' : Shape} (h : s.Settled s') :
    s'.isStandard = some true := by
  rcases h with ⟨h, rfl⟩ | ⟨-, h⟩
  · exact h
  · exact isStandard_of_standard h

theorem Shape.Settled.rowMajor {s s' : Shape} (h : s.Settled s') :
    ∃ axes, Axis.rowMajor s.lens = some axes := by
  have hstd : ∃ b, s.isStandard = some b := by
    rcases h with ⟨h, -⟩ | ⟨h, -⟩ <;> exact ⟨_, h⟩
  obtain ⟨b, hb⟩ := hstd
  obtain ⟨axes, haxes, -⟩ := Option.bind_eq_some_iff.mp hb
  exact ⟨axes, haxes⟩

theorem Shape.Settled.eq_iff {s s' : Shape} (h : s.Settled s') :
    s' = s ↔ s.isStandard = some true := by
  refine ⟨fun heq => heq ▸ h.isStandard, fun hs => ?_⟩
  rcases h with ⟨-, rfl⟩ | ⟨hnot, -⟩
  · rfl
  · rw [hs] at hnot
    cases hnot

/-- Permuting the axes of a shape loses nothing. -/
theorem Shape.permute_injective {permutation : List Nat} {s s' t : Shape}
    (hd : s'.dtype = s.dtype) (hr : s'.rank = s.rank)
    (hp : Operator.isPermutation s.rank permutation = true)
    (h : s.permute permutation = some t) (h' : s'.permute permutation = some t) : s' = s := by
  have hmap : permutation.map s'.axisAt = permutation.map s.axisAt := by
    rw [← axes_of_permute h', ← axes_of_permute h]
  have hall := List.map_inj_left.mp hmap
  have haxes : s'.axes = s.axes := by
    rw [← map_axisAt_range s', ← map_axisAt_range s, hr]
    refine List.map_congr_left fun p hp' => hall p ?_
    exact (Operator.perm_range_of_isPermutation hp).mem_iff.mp hp'
  obtain ⟨d, axes⟩ := s
  obtain ⟨d', axes'⟩ := s'
  cases hd
  cases haxes
  rfl

namespace Operator

variable {op : Operator} {shapes shapes' : List Shape} {t : Shape}

/-- An operator keeps its inferred shape on copied inputs unless its layout follows an input
that had to be copied. -/
theorem infers_settled_iff (h : Infers op shapes t)
    (hs : List.Forall₂ Shape.Settled shapes shapes') :
    Infers op shapes' t ↔
      (op.forwardsLayout = true → ∀ s ∈ shapes, s.isStandard = some true) := by
  cases hf : op.forwardsLayout with
  | false =>
    refine ⟨fun _ hfalse => (nomatch hfalse), fun _ => h.relaid hf ?_⟩
    exact hs.imp fun _ _ => Shape.Settled.relaid
  | true =>
    cases h with
    | transpose hp ht =>
      obtain _ | ⟨hs, _ | _⟩ := hs
      rw [forall_prop_of_true rfl, List.forall_mem_singleton, ← hs.eq_iff]
      constructor
      · intro h'
        cases h' with
        | transpose hp' ht' =>
          refine Shape.permute_injective hs.relaid.1.symm ?_ hp ht ht'
          rw [← Shape.length_lens, ← Shape.length_lens, hs.relaid.2]
      · rintro rfl
        exact .transpose hp ht
    | hostToDevice =>
      obtain _ | ⟨hs, _ | _⟩ := hs
      rw [forall_prop_of_true rfl, List.forall_mem_singleton, ← hs.eq_iff]
      constructor
      · intro h'
        cases h'
        rfl
      · rintro rfl
        exact .hostToDevice _
    | deviceToHost =>
      obtain _ | ⟨hs, _ | _⟩ := hs
      rw [forall_prop_of_true rfl, List.forall_mem_singleton, ← hs.eq_iff]
      constructor
      · intro h'
        cases h'
        rfl
      · rintro rfl
        exact .deviceToHost _
    | _ => cases hf

end Operator

namespace Program

variable {p q : Program} {fits : Prop}

/-! ## Copied inputs -/

def StandardAt (is : List Instruction) (r : Nat) : Prop :=
  ∃ i, is[r]? = some i ∧ i.shape.isStandard = some true

def ReadsRowMajor (selects : Operator → Bool) (is : List Instruction) : Prop :=
  ∀ i ∈ is, selects i.op = true → ∀ r ∈ i.inputs, StandardAt is r

def Laid (is : List Instruction) : Prop :=
  ∀ i ∈ is, isReshape i.op = true → ∀ r ∈ i.inputs, StandardAt is r

theorem StandardAt.append {is : List Instruction} {r : Nat} (h : StandardAt is r)
    (js : List Instruction) : StandardAt (is ++ js) r := by
  obtain ⟨i, hi, hs⟩ := h
  exact ⟨i, getElem?_append_of_some hi js, hs⟩

theorem ReadsRowMajor.concat {selects : Operator → Bool} {is : List Instruction} {j : Instruction}
    (h : ReadsRowMajor selects is) (hj : selects j.op = true → ∀ r ∈ j.inputs, StandardAt is r) :
    ReadsRowMajor selects (is ++ [j]) := by
  intro i hi hop r hr
  rcases List.mem_append.mp hi with hi | hi
  · exact (h i hi hop r hr).append _
  · rw [List.mem_singleton.mp hi] at hop hr
    exact (hj hop r hr).append _

theorem Laid.concat {is : List Instruction} {j : Instruction} (h : Laid is)
    (hj : isReshape j.op = true → ∀ r ∈ j.inputs, StandardAt is r) : Laid (is ++ [j]) :=
  ReadsRowMajor.concat h hj

/-- A program with copies appended, read in place of the inputs. -/
structure Copied (q q' : Program) (inputs inputs' : List Nat) : Prop where
  parameters : q'.parameters = q.parameters
  target : q'.target = q.target
  extends' : ∃ copies, q'.instructions = q.instructions ++ copies
  laid : Laid q.instructions → Laid q'.instructions
  rebuilt : ∀ done positions, Rebuilt [.contiguous] done positions q.instructions →
    Rebuilt [.contiguous] done positions q'.instructions
  consistent : Consistent q'.instructions ↔ Consistent q.instructions
  alike : List.Forall₂ (Alike q'.instructions) inputs inputs'

theorem Copied.nil (q : Program) : Copied q q [] [] where
  parameters := rfl
  target := rfl
  extends' := ⟨[], (List.append_nil _).symm⟩
  laid h := h
  rebuilt _ _ h := h
  consistent := Iff.rfl
  alike := .nil

theorem Copied.keep {q' : Program} {inputs inputs' : List Nat} (h : Copied q q' inputs inputs')
    {r : Nat} {i : Instruction} (hr : q.instructions[r]? = some i) :
    Copied q q' (r :: inputs) (r :: inputs') where
  parameters := h.parameters
  target := h.target
  extends' := h.extends'
  laid := h.laid
  rebuilt := h.rebuilt
  consistent := h.consistent
  alike := by
    obtain ⟨copies, hcopies⟩ := h.extends'
    refine .cons (Alike.refl (i := i) ?_) h.alike
    rw [hcopies]
    exact getElem?_append_of_some hr copies

theorem Copied.copy {q' : Program} {inputs inputs' : List Nat} {r : Nat} {i : Instruction}
    {t : Shape} (hr : q.instructions[r]? = some i) (ht : i.shape.asStandard = some t)
    (h : Copied { q with
      instructions := q.instructions ++ [{ op := .contiguous, inputs := [r], shape := t }] }
      q' inputs inputs') :
    Copied q q' (r :: inputs) (q.size :: inputs') where
  parameters := h.parameters
  target := h.target
  extends' := by
    obtain ⟨copies, hcopies⟩ := h.extends'
    exact ⟨_, hcopies.trans (List.append_assoc ..)⟩
  laid hl := h.laid (hl.concat fun hop => nomatch hop)
  rebuilt done positions hb :=
    h.rebuilt done positions (hb.copy hr List.mem_cons_self rfl rfl (Shape.relaid_of_asStandard ht) rfl)
  consistent := by
    rw [h.consistent, consistent_concat, and_iff_left]
    exact ⟨[i.shape], shapesAt_eq_some.mpr (.cons ⟨i, hr, rfl⟩ .nil),
      Operator.Infers.infer_eq (.contiguous ht)⟩
  alike := by
    obtain ⟨copies, hcopies⟩ := h.extends'
    refine .cons ?_ h.alike
    rw [hcopies]
    exact (alike_copy hr rfl rfl (Shape.relaid_of_asStandard ht)).append copies

theorem addInstruction_contiguous {t : Shape} (ht : q.target = none)
    (hi : q.instructions[r]? = some i) (hstd : i.shape.asStandard = some t) :
    addInstruction .contiguous [r] q = .value q.size { q with
      instructions := q.instructions ++ [{ op := .contiguous, inputs := [r], shape := t }] } := by
  rw [addInstruction_apply ht rfl (shapesAt_eq_some.mpr (.cons ⟨i, hi, rfl⟩ .nil)),
    Operator.Infers.infer_eq (.contiguous hstd)]
  rfl

theorem shapesAt_cons {is js : List Instruction} {rs : List Nat} {shapes : List Shape}
    (hi : is[r]? = some i) (h : shapesAt (is ++ js) rs = some shapes) :
    shapesAt (is ++ js) (r :: rs) = some (i.shape :: shapes) :=
  shapesAt_eq_some.mpr (.cons ⟨i, getElem?_append_of_some hi js, rfl⟩ (shapesAt_eq_some.mp h))

theorem contiguousInputs_ends {inputs : List Nat} {shapes : List Shape} (ht : q.target = none)
    (hs : shapesAt q.instructions inputs = some shapes)
    (hfit : fits → ∀ s ∈ shapes, ∃ axes, Axis.rowMajor s.lens = some axes) :
    (contiguousInputs inputs q).Ends fits fun inputs' q' => Copied q q' inputs inputs' ∧
      ∃ shapes', shapesAt q'.instructions inputs' = some shapes' ∧
        List.Forall₂ Shape.Settled shapes shapes' := by
  induction inputs generalizing q shapes with
  | nil =>
    cases hs
    exact ⟨Copied.nil q, [], rfl, .nil⟩
  | cons r rs ih =>
    obtain _ | ⟨⟨i, hi, rfl⟩, hss⟩ := shapesAt_eq_some.mp hs
    have hget : q.get r = .value i := by
      obtain ⟨hlt, hget⟩ := List.getElem?_eq_some_iff.mp hi
      rw [get_of_lt hlt, hget]
    have htail := shapesAt_eq_some.mpr hss
    unfold contiguousInputs
    rw [Action.bind_of_value Action.get_apply, Action.bind_lift_of_value hget]
    rcases hstd : i.shape.isStandard with _ | standard
    · rw [Action.bind_lift_of_none rfl]
      intro hf
      obtain ⟨axes, haxes⟩ := hfit hf i.shape List.mem_cons_self
      rw [Shape.isStandard_eq_none, haxes] at hstd
      cases hstd
    · rw [Action.bind_lift_of_some rfl]
      cases standard with
      | true =>
        refine Action.ends_bind (ih ht htail fun hf s hs => hfit hf s (List.mem_cons_of_mem _ hs)) ?_
        rintro inputs' q' ⟨hcopied, shapes', hs', hsettled⟩
        refine ⟨hcopied.keep hi, i.shape :: shapes', ?_, .cons (Or.inl ⟨hstd, rfl⟩) hsettled⟩
        obtain ⟨copies, hcopies⟩ := hcopied.extends'
        rw [hcopies] at hs' ⊢
        exact shapesAt_cons hi hs'
      | false =>
        obtain ⟨t, hasStd⟩ := Shape.exists_asStandard_of_isStandard hstd
        rw [if_neg Bool.false_ne_true, Action.bind_of_value (addInstruction_contiguous ht hi hasStd)]
        refine Action.ends_bind (ih ht (shapesAt_append htail _)
          fun hf s hs => hfit hf s (List.mem_cons_of_mem _ hs)) ?_
        rintro inputs' q' ⟨hcopied, shapes', hs', hsettled⟩
        refine ⟨hcopied.copy hi hasStd, t :: shapes', ?_, .cons (Or.inr ⟨hstd, hasStd⟩) hsettled⟩
        obtain ⟨copies, hcopies⟩ := hcopied.extends'
        rw [hcopies] at hs' ⊢
        exact shapesAt_cons List.getElem?_concat_length hs'

/-! ## The pass -/

/-- Whether the inputs that the pass looks at have a row-major layout whose sizes are words. -/
def HasRowMajorInputs (needs : Operator → Bool) (is : List Instruction) : Prop :=
  ∀ i ∈ is, (needs i.op || isReshape i.op) = true → ∀ r ∈ i.inputs, ∀ j, is[r]? = some j →
    ∃ axes, Axis.rowMajor j.shape.lens = some axes

theorem forwardsLayout_of_isReshape {op : Operator} (h : isReshape op = true) :
    op.forwardsLayout = false := by
  cases op <;> first | rfl | cases h

/-- Whether the selected operators whose layout follows their input have row-major inputs. -/
def Steady (needs : Operator → Bool) (is done : List Instruction) : Prop :=
  ∀ i ∈ done, needs i.op = true → i.op.forwardsLayout = true → ∀ r ∈ i.inputs, StandardAt is r

theorem steady_concat {needs : Operator → Bool} {is done : List Instruction} {i : Instruction} :
    Steady needs is (done ++ [i]) ↔ Steady needs is done ∧
      (needs i.op = true → i.op.forwardsLayout = true → ∀ r ∈ i.inputs, StandardAt is r) := by
  unfold Steady
  simp only [List.mem_append, List.mem_singleton, or_imp, forall_and, forall_eq]

theorem forall_standardAt_iff {is : List Instruction} {inputs : List Nat} {shapes : List Shape}
    (hs : shapesAt is inputs = some shapes) :
    (∀ r ∈ inputs, StandardAt is r) ↔ ∀ s ∈ shapes, s.isStandard = some true := by
  rw [shapesAt_eq_some] at hs
  induction hs with
  | nil => exact ⟨fun _ _ h => (nomatch h), fun _ _ h => (nomatch h)⟩
  | cons hr _ ih =>
    obtain ⟨i, hi, rfl⟩ := hr
    rw [List.forall_mem_cons, List.forall_mem_cons, ih]
    refine and_congr_left fun _ => ⟨fun ⟨j, hj, hstd⟩ => ?_, fun hstd => ⟨i, hi, hstd⟩⟩
    rw [hi] at hj
    cases hj
    exact hstd

structure Inserting (needs : Operator → Bool) (p : Program) (done : List Instruction)
    (positions : List (Option Nat)) (q : Program) : Prop where
  progress : Progress [.contiguous] p done positions q
  total : ∀ k, k < positions.length → ∃ n, positions[k]? = some (some n)
  laid : Laid q.instructions
  consistent : Consistent q.instructions ↔ Steady needs p.instructions done
  rows : ∀ i ∈ done, (needs i.op || isReshape i.op) = true → ∀ r ∈ i.inputs, ∀ j,
    p.instructions[r]? = some j → ∃ axes, Axis.rowMajor j.shape.lens = some axes

variable {needs : Operator → Bool} {done rest : List Instruction}
variable {positions : List (Option Nat)} {i : Instruction}

theorem exists_renumbered (hlen : positions.length = done.length)
    (htotal : ∀ k, k < positions.length → ∃ n, positions[k]? = some (some n)) {inputs : List Nat}
    (h : ∀ r ∈ inputs, r < done.length) : ∃ inputs', Renumbered positions inputs inputs' := by
  induction inputs with
  | nil => exact ⟨[], .nil⟩
  | cons r rs ih =>
    obtain ⟨n, hn⟩ := htotal r (by rw [hlen]; exact h r List.mem_cons_self)
    obtain ⟨inputs', h'⟩ := ih fun r hr => h r (List.mem_cons_of_mem _ hr)
    exact ⟨n :: inputs', .cons hn h'⟩

theorem total_concat (h : ∀ k, k < positions.length → ∃ n, positions[k]? = some (some n))
    (n : Nat) : ∀ k, k < (positions ++ [some n]).length →
      ∃ n', (positions ++ [some n])[k]? = some (some n') := by
  intro k hk
  rw [List.length_append, List.length_singleton] at hk
  rcases Nat.lt_or_ge k positions.length with hlt | hge
  · obtain ⟨n', hn'⟩ := h k hlt
    exact ⟨n', getElem?_append_of_some hn' _⟩
  · have hk' : k = positions.length := by omega
    exact ⟨n, by rw [hk', List.getElem?_concat_length]⟩

section Done

variable {copies : List Operator} (h : Progress copies p p.instructions positions q)
variable (htotal : ∀ k, k < positions.length → ∃ n, positions[k]? = some (some n))

include h htotal

/-- A pass that keeps every instruction ends with what stands for the last one. -/
theorem Progress.exists_last (hne : p.instructions ≠ []) :
    ∃ n, positions.getLast? = some (some n) ∧ n + 1 = q.size := by
  have hpos : 0 < p.instructions.length := List.length_pos_iff.mpr hne
  have hlen := h.rebuilt.length
  obtain ⟨n, hn⟩ := htotal (positions.length - 1) (by omega)
  rw [← List.getLast?_eq_getElem?] at hn
  exact ⟨n, hn, h.last n hn⟩

theorem Progress.refines : Refines copies p q :=
  h.rebuilt.refines h.parameters h.target fun hne => h.exists_last htotal hne

end Done

def insertStep (needs : Operator → Bool) (_ : Nat) (i : Instruction) :
    Action Program (Option Nat) := do
  if needs i.op || isReshape i.op then do
    let inputs ← contiguousInputs i.inputs
    return some (← push { i with inputs := inputs })
  else return some (← push i)

theorem insertContiguous_eq (needs : Operator → Bool) :
    insertContiguous needs = rebuild (insertStep needs) := rfl

section Step

variable {inputs : List Nat} {shapes : List Shape}

/-- An instruction that is not selected reads what stands for its inputs. -/
theorem Inserting.push (h : Inserting needs p done positions q)
    (hr : Renumbered positions i.inputs inputs) (hfitted : Fitted done i)
    (hsel : (needs i.op || isReshape i.op) = false) :
    Inserting needs p (done ++ [i]) (positions ++ [some q.size])
      { q with instructions := q.instructions ++ [{ i with inputs := inputs }] } := by
  rw [Bool.or_eq_false_iff] at hsel
  refine ⟨h.progress.push hr, total_concat h.total _, h.laid.concat fun hop => ?_, ?_, ?_⟩
  · rw [hsel.2] at hop
    cases hop
  · rw [steady_concat, consistent_concat, h.consistent]
    refine and_congr_right fun _ =>
      ⟨fun _ hneeds => ?_, fun _ => h.progress.rebuilt.fitted hr hfitted⟩
    rw [hsel.1] at hneeds
    cases hneeds
  · rw [List.forall_mem_append, List.forall_mem_singleton, hsel.1, hsel.2]
    exact ⟨h.rows, fun hfalse => (nomatch hfalse)⟩

/-- A selected instruction keeps its recorded shape on row-major inputs, which then is the
inferred one exactly if its layout does not follow an input that was copied. -/
theorem fitted_settled_iff {is new : List Instruction} {inputs' : List Nat} {shapes' : List Shape}
    (hsel : (needs i.op || isReshape i.op) = true) (hs : shapesAt is i.inputs = some shapes)
    (hinfers : Operator.Infers i.op shapes i.shape) (hs' : shapesAt new inputs' = some shapes')
    (hsettled : List.Forall₂ Shape.Settled shapes shapes') :
    Fitted new { i with inputs := inputs' } ↔
      (needs i.op = true → i.op.forwardsLayout = true → ∀ r ∈ i.inputs, StandardAt is r) := by
  have hiff : Fitted new { i with inputs := inputs' } ↔ Operator.Infers i.op shapes' i.shape := by
    constructor
    · rintro ⟨shapes'', hs'', hinfer''⟩
      rw [hs'] at hs''
      cases hs''
      exact Operator.infers_of_infer hinfer''
    · exact fun hinfers => ⟨shapes', hs', hinfers.infer_eq⟩
  rw [hiff, Operator.infers_settled_iff hinfers hsettled, forall_standardAt_iff hs]
  refine ⟨fun hall _ => hall, fun hall hforward => hall ?_ hforward⟩
  rw [Bool.or_eq_true] at hsel
  refine hsel.resolve_right fun hreshape => ?_
  rw [forwardsLayout_of_isReshape hreshape] at hforward
  cases hforward

/-- A selected instruction reads row-major inputs, copied where they were not. -/
theorem Inserting.push_copied {inputs' : List Nat} {shapes' : List Shape} {q' : Program}
    (h : Inserting needs p done positions q) (hr : Renumbered positions i.inputs inputs)
    (hsel : (needs i.op || isReshape i.op) = true)
    (hs : shapesAt p.instructions i.inputs = some shapes)
    (hinfers : Operator.Infers i.op shapes i.shape) (hcopied : Copied q q' inputs inputs')
    (hs' : shapesAt q'.instructions inputs' = some shapes')
    (hsettled : List.Forall₂ Shape.Settled shapes shapes') :
    Inserting needs p (done ++ [i]) (positions ++ [some q'.size])
      { q' with instructions := q'.instructions ++ [{ i with inputs := inputs' }] } where
  progress := (hcopied.rebuilt _ _ h.progress.rebuilt).progress
    (hcopied.parameters.trans h.progress.parameters) (hcopied.target.trans h.progress.target) hr
    hcopied.alike
  total := total_concat h.total _
  laid := (hcopied.laid h.laid).concat fun _ => (forall_standardAt_iff hs').mpr fun s' hmem => by
    obtain ⟨s, -, hsettles⟩ := exists_of_mem_right hsettled hmem
    exact hsettles.isStandard
  consistent := by
    rw [steady_concat, consistent_concat, hcopied.consistent, h.consistent]
    exact and_congr_right fun _ => fitted_settled_iff hsel hs hinfers hs' hsettled
  rows := by
    rw [List.forall_mem_append, List.forall_mem_singleton]
    refine ⟨h.rows, fun _ r hr' j hj => ?_⟩
    obtain ⟨s', -, hsettles⟩ := exists_of_mem_left hsettled (shape_mem_of_shapesAt hs hr' hj)
    exact hsettles.rowMajor

end Step

/-- One instruction of the pass. -/
theorem inserting_step (hc : Consistent p.instructions)
    (hfit : fits → HasRowMajorInputs needs p.instructions)
    (hsplit : p.instructions = done ++ i :: rest) (h : Inserting needs p done positions q) :
    (stepOn (insertStep needs) positions i q).Ends fits
      fun now q' => Inserting needs p (done ++ [i]) (positions ++ [now]) q' := by
  obtain ⟨shapes, hshapes, hinfer⟩ := Fitted.of_split hc hsplit
  have hfitted : Fitted done i := ⟨shapes, hshapes, hinfer⟩
  have hwhole : shapesAt p.instructions i.inputs = some shapes := by
    rw [hsplit]
    exact shapesAt_append hshapes _
  obtain ⟨inputs, hr⟩ := exists_renumbered h.progress.rebuilt.length h.total hfitted.inputs_lt
  rw [stepOn_of_renumbered hr]
  unfold insertStep
  dsimp only
  by_cases hsel : (needs i.op || isReshape i.op) = true
  · rw [if_pos hsel]
    refine Action.ends_bind (contiguousInputs_ends h.progress.target
      (h.progress.rebuilt.shapesAt hr hshapes) fun hf s hs => ?_) ?_
    · obtain ⟨r, hr', j, hj, rfl⟩ := exists_of_mem_shapesAt hwhole hs
      exact hfit hf i (mem_of_split hsplit) hsel r hr' j hj
    · rintro inputs' q' ⟨hcopied, shapes', hshapes', hsettled⟩
      exact h.push_copied hr hsel hwhole (Operator.infers_of_infer hinfer) hcopied hshapes' hsettled
  · rw [if_neg hsel]
    exact h.push hr hfitted (Bool.eq_false_iff.mpr hsel)

/-- Inserting copies gives a program with the same output, in which every reshape reads
row-major storage.  Its shapes are the inferred ones exactly if no selected operator whose
layout follows its input had to be given a copy.  It only goes through where the sizes of
row-major layouts are words. -/
theorem insertContiguous_ends (hc : Consistent p.instructions) (ht : p.target = none)
    (hfit : fits → HasRowMajorInputs needs p.instructions) :
    (insertContiguous needs p).Ends fits fun _ q => Refines [.contiguous] p q ∧ Laid q.instructions ∧
      (Consistent q.instructions ↔ Steady needs p.instructions p.instructions) ∧
      HasRowMajorInputs needs p.instructions := by
  rw [insertContiguous_eq, rebuild_apply]
  refine Turn.Ends.mono (rebuildFrom_ends (I := Inserting needs p)
    (fun done i rest positions q hsplit h => inserting_step hc hfit hsplit h)
    (List.nil_append _).symm ?_) ?_
  · exact ⟨progress_nil ht, fun _ hk => absurd hk (Nat.not_lt_zero _), List.forall_mem_nil _,
      iff_of_true consistent_nil (List.forall_mem_nil _), List.forall_mem_nil _⟩
  · rintro _ q ⟨positions, h⟩
    exact ⟨h.progress.refines h.total, h.laid, h.consistent, h.rows⟩

/-! ## Built programs -/

/-- Whatever operators are selected, the pass goes through where sizes are words.  The output
keeps its recorded shape and its meaning, and every recorded shape is again the inferred one
exactly if no selected transpose or transfer had an input in another layout. -/
theorem insertContiguous_preserves_output (hb : Built p)
    (hfit : HasRowMajorInputs needs p.instructions) :
    ∃ q, (Pass.insertContiguous needs).apply p = .value () q ∧
      q.last?.map Instruction.shape = p.last?.map Instruction.shape ∧
      (∀ env, Supplies env p → q.meaning env = p.meaning env ∧
        (p.instructions ≠ [] → (p.meaning env).isSome = true)) ∧
      (Consistent q.instructions ↔ Steady needs p.instructions p.instructions) := by
  obtain ⟨hwell, htarget, -, -⟩ := hb.unbound
  have hends : Turn.Ends True _ (insertContiguous needs p) :=
    insertContiguous_ends hwell.consistent htarget fun _ => hfit
  obtain ⟨_, q, hq, hrefines, -, hiff, -⟩ := hends.exists_value_of_fits trivial
  refine ⟨q, hq, hrefines.shape, fun env henv => ?_, hiff⟩
  by_cases hne : p.instructions = []
  · have hempty : q.instructions = [] := by
      refine List.eq_nil_iff_forall_not_mem.mpr fun j hj => ?_
      obtain ⟨i, hi, -⟩ := hrefines.lens j hj
      rw [hne] at hi
      cases hi
    refine ⟨?_, fun h => absurd hne h⟩
    rw [meaning, meaning, hempty, hne]
  · obtain ⟨v, -, hv, -, -⟩ := hwell.exists_meaning henv hne
    rw [hv]
    exact ⟨hrefines.meaning env v hv, fun _ => rfl⟩

def matrix : Shape := ⟨.float, [⟨2, 3⟩, ⟨3, 1⟩]⟩

/-- A matrix transposed twice, and then made row-major, which it is. -/
def twiceTransposed : Program where
  instructions :=
    [{ op := .parameter "x" matrix, inputs := [], shape := matrix },
     { op := .transpose [1, 0], inputs := [0], shape := ⟨.float, [⟨3, 1⟩, ⟨2, 3⟩]⟩ },
     { op := .transpose [1, 0], inputs := [1], shape := matrix },
     { op := .contiguous, inputs := [2], shape := matrix }]
  parameters := [("x", matrix)]

theorem built_twiceTransposed : Built twiceTransposed := by
  have hx : addParameter "x" matrix {} = .value 0
      { instructions := twiceTransposed.instructions.take 1, parameters := [("x", matrix)] } := rfl
  have hfirst : addInstruction (.transpose [1, 0]) [0]
      { instructions := twiceTransposed.instructions.take 1, parameters := [("x", matrix)] } =
        .value 1 { instructions := twiceTransposed.instructions.take 2,
                   parameters := [("x", matrix)] } := rfl
  have hsecond : addInstruction (.transpose [1, 0]) [1]
      { instructions := twiceTransposed.instructions.take 2, parameters := [("x", matrix)] } =
        .value 2 { instructions := twiceTransposed.instructions.take 3,
                   parameters := [("x", matrix)] } := rfl
  have hcopy : addInstruction .contiguous [2]
      { instructions := twiceTransposed.instructions.take 3, parameters := [("x", matrix)] } =
        .value 3 twiceTransposed := rfl
  have hnone : ∀ permutation l, Operator.transpose permutation = .literal l → l.Made :=
    fun _ _ h => nomatch h
  have hplain : ∀ l, Operator.contiguous = .literal l → l.Made := fun _ h => nomatch h
  exact .instruction (.instruction (.instruction (.parameter .empty hx) (hnone [1, 0]) hfirst)
    (hnone [1, 0]) hsecond) hplain hcopy

theorem insertContiguous_twiceTransposed :
    (Built twiceTransposed ∧ HasRowMajorInputs (fun _ => true) twiceTransposed.instructions) ∧
    ∃ q, (Pass.insertContiguous fun _ => true).apply twiceTransposed = .value () q ∧
      q.last?.map Instruction.shape = some matrix ∧
      (∀ env, Supplies env twiceTransposed → q.meaning env = twiceTransposed.meaning env ∧
        (twiceTransposed.instructions ≠ [] → (twiceTransposed.meaning env).isSome = true)) ∧
      (Consistent q.instructions ↔
        Steady (fun _ => true) twiceTransposed.instructions twiceTransposed.instructions) := by
  have hfit : HasRowMajorInputs (fun _ => true) twiceTransposed.instructions := by
    have hall : ∀ j ∈ twiceTransposed.instructions,
        (Axis.rowMajor j.shape.lens).isSome = true := by decide
    exact fun _ _ _ _ _ j hj => Option.isSome_iff_exists.mp (hall j (List.mem_of_getElem? hj))
  exact ⟨⟨built_twiceTransposed, hfit⟩,
    insertContiguous_preserves_output built_twiceTransposed hfit⟩

/-- With every operator selected, the second transpose of `twiceTransposed` reads a copy, whose
transpose is laid out otherwise than was recorded. -/
theorem insertContiguous_not_consistent : Built twiceTransposed ∧
    ∃ q, (Pass.insertContiguous fun _ => true).apply twiceTransposed = .value () q ∧
      ¬Consistent q.instructions := by
  refine ⟨built_twiceTransposed, _, rfl, fun h => ?_⟩
  obtain ⟨shapes, hshapes, hinfer⟩ :=
    h 3 { op := .transpose [1, 0], inputs := [2], shape := matrix } rfl
  have hcopied : shapes = [⟨.float, [⟨3, 2⟩, ⟨2, 1⟩]⟩] := (Option.some.inj hshapes).symm
  have hrelaid : (Operator.transpose [1, 0]).infer [⟨.float, [⟨3, 2⟩, ⟨2, 1⟩]⟩] =
      .value ⟨.float, [⟨2, 1⟩, ⟨3, 2⟩]⟩ := rfl
  rw [hcopied, hrelaid] at hinfer
  cases hinfer

end Program
end TensorGraph
