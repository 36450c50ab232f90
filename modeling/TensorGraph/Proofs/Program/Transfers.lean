/-
Inserting transfers.

Every literal and parameter is followed by its transfer to the device, which stands for it
from then on.  `insertTransfers_ends` says that nothing else changes, and that what starts on
the host is then read by transfers only.  What else is on the host was brought there by the
program itself (`Fetched`).
-/
import TensorGraph.Proofs.Program.Contiguous

namespace TensorGraph
namespace Program

variable {p q : Program} {fits : Prop}

/-! ## Values on the host -/

/-- Whether what starts on the host is read by transfers to the device only. -/
def Fed (is : List Instruction) : Prop :=
  ∀ i ∈ is, ∀ r ∈ i.inputs, ∃ j, is[r]? = some j ∧
    (startsOnHost j.op = true → i.op = .hostToDevice)

theorem Fed.concat {is : List Instruction} {i : Instruction} (h : Fed is)
    (hi : ∀ r ∈ i.inputs, ∃ j, is[r]? = some j ∧
      (startsOnHost j.op = true → i.op = .hostToDevice)) : Fed (is ++ [i]) := by
  intro i' hi' r hr
  rcases List.mem_append.mp hi' with hi' | hi'
  · obtain ⟨j, hj, hop⟩ := h i' hi' r hr
    exact ⟨j, getElem?_append_of_some hj _, hop⟩
  · rw [List.mem_singleton.mp hi'] at hr ⊢
    obtain ⟨j, hj, hop⟩ := hi r hr
    exact ⟨j, getElem?_append_of_some hj _, hop⟩

/-- Whether an instruction brings its value back to the host, or views one that was. -/
inductive Fetched (is : List Instruction) : Nat → Prop
  | transfer {r : Nat} {i : Instruction} :
      is[r]? = some i → i.op = .deviceToHost → Fetched is r
  | view {r s : Nat} {i : Instruction} :
      is[r]? = some i → i.op.isView = true → s ∈ i.inputs → Fetched is s → Fetched is r

/-- Whether nothing is computed from values that were brought back to the host. -/
def StaysOnDevice (is : List Instruction) : Prop :=
  ∀ i ∈ is, i.op.isCompute = true → ∀ r ∈ i.inputs, ¬Fetched is r

variable {is : List Instruction} {k r : Nat} {i : Instruction}

theorem fetched_iff (hi : is[r]? = some i) :
    Fetched is r ↔ i.op = .deviceToHost ∨ i.op.isView = true ∧ ∃ s ∈ i.inputs, Fetched is s := by
  constructor
  · intro h
    cases h with
    | transfer hi' hop =>
      rw [hi] at hi'
      cases hi'
      exact Or.inl hop
    | view hi' hview hs hfetched =>
      rw [hi] at hi'
      cases hi'
      exact Or.inr ⟨hview, _, hs, hfetched⟩
  · rintro (hop | ⟨hview, s, hs, hfetched⟩)
    · exact .transfer hi hop
    · exact .view hi hview hs hfetched

theorem fetched_iff_of_isView {s : Nat} (hi : is[r]? = some i) (hview : i.op.isView = true)
    (hin : i.inputs = [s]) : Fetched is r ↔ Fetched is s := by
  rw [fetched_iff hi, hin]
  constructor
  · rintro (hop | ⟨-, t, ht, hfetched⟩)
    · rw [hop] at hview
      cases hview
    · rwa [List.mem_singleton.mp ht] at hfetched
  · exact fun hfetched => Or.inr ⟨hview, s, List.mem_cons_self, hfetched⟩

theorem not_fetched_of_isCompute (hi : is[r]? = some i) (hc : i.op.isCompute = true) :
    ¬Fetched is r := by
  rw [fetched_iff hi]
  revert hc
  cases i.op <;> simp [Operator.isCompute, Operator.isView]

theorem not_fetched_of_hostToDevice (hi : is[r]? = some i) (hop : i.op = .hostToDevice) :
    ¬Fetched is r := by
  rw [fetched_iff hi, hop]
  simp [Operator.isView]

/-- If values are brought back at the end only, none of them is viewed. -/
theorem succ_eq_of_fetched (hc : Consistent is)
    (hlast : ∀ k i, is[k]? = some i → i.op = .deviceToHost → k + 1 = is.length)
    (h : Fetched is r) : r + 1 = is.length := by
  induction h with
  | transfer hi hop => exact hlast _ _ hi hop
  | view hi _ hs _ ih =>
    have hlt := hc.inputs_lt hi _ hs
    have hlen := (List.getElem?_eq_some_iff.mp hi).1
    omega

theorem staysOnDevice_of_last (hc : Consistent is)
    (hlast : ∀ k i, is[k]? = some i → i.op = .deviceToHost → k + 1 = is.length) :
    StaysOnDevice is := by
  intro i hi _ r hr hfetched
  obtain ⟨k, hk⟩ := List.mem_iff_getElem?.mp hi
  have hlt := hc.inputs_lt hk r hr
  have hlen := (List.getElem?_eq_some_iff.mp hk).1
  have := succ_eq_of_fetched hc hlast hfetched
  omega

/-! ## The pass -/

structure Moving (p : Program) (done : List Instruction) (positions : List (Option Nat))
    (q : Program) : Prop where
  progress : Progress [.hostToDevice] p done positions q
  total : ∀ k, k < positions.length → ∃ n, positions[k]? = some (some n)
  consistent : Consistent q.instructions
  laid : Laid p.instructions → Laid q.instructions
  fed : Fed q.instructions
  onDevice : ∀ k n : Nat, positions[k]? = some (some n) →
    ∃ j, q.instructions[n]? = some j ∧ startsOnHost j.op = false

def moveStep (_ : Nat) (i : Instruction) : Action Program (Option Nat) := do
  let host := startsOnHost i.op
  let r ← push i
  if host then return some (← addInstruction .hostToDevice [r])
  else return some r

/-- In an open program the step appends the instruction and, if its value starts on the host, the
transfer that stands for it from then on. -/
theorem moveStep_apply (ht : q.target = none) (k : Nat) (i : Instruction) :
    moveStep k i q =
      if startsOnHost i.op = true then
        .value (some (q.size + 1)) { q with instructions := q.instructions ++ [i] ++
          [{ op := .hostToDevice, inputs := [q.size], shape := i.shape }] }
      else .value (some q.size) { q with instructions := q.instructions ++ [i] } := by
  let q₁ : Program := { q with instructions := q.instructions ++ [i] }
  have hadd : addInstruction .hostToDevice [q.size] q₁ =
      .value q₁.size { q₁ with instructions := q₁.instructions ++
        [{ op := .hostToDevice, inputs := [q.size], shape := i.shape }] } :=
    addInstruction_apply (show q₁.target = none from ht) rfl
      (shapesAt_eq_some.mpr (.cons ⟨i, List.getElem?_concat_length, rfl⟩ .nil))
  have hsize : q₁.size = q.size + 1 := List.length_append
  unfold moveStep
  rw [Action.bind_of_value (push_apply i q)]
  split
  · rw [Action.bind_of_value hadd, hsize]
    rfl
  · rfl

variable {done rest : List Instruction} {positions : List (Option Nat)}

theorem Rebuilt.standardAt {copies : List Operator} {new : List Instruction}
    (h : Rebuilt copies done positions new)
    {inputs inputs' : List Nat} (hr : Renumbered positions inputs inputs')
    (hs : ∀ r ∈ inputs, StandardAt (done ++ rest) r) : ∀ r ∈ inputs', StandardAt new r := by
  induction hr with
  | nil => exact fun _ h => nomatch h
  | @cons r n _ _ hr _ ih =>
    rw [List.forall_mem_cons] at hs ⊢
    refine ⟨?_, ih hs.2⟩
    obtain ⟨i, j, hi, hj, hshape⟩ := h.stands r n hr
    obtain ⟨i', hi', hstd⟩ := hs.1
    rw [getElem?_append_of_some hi] at hi'
    cases hi'
    exact ⟨j, hj, hshape ▸ hstd⟩

section Step

variable {inputs : List Nat}

theorem Moving.laid_push (h : Moving p done positions q)
    (hsplit : p.instructions = done ++ i :: rest) (hr : Renumbered positions i.inputs inputs)
    (hl : Laid p.instructions) : Laid (q.instructions ++ [{ i with inputs := inputs }]) := by
  refine (h.laid hl).concat fun hop => ?_
  have hstandard : ∀ r ∈ i.inputs, StandardAt (done ++ i :: rest) r := by
    rw [← hsplit]
    exact hl i (mem_of_split hsplit) hop
  exact h.progress.rebuilt.standardAt hr hstandard

theorem Moving.fed_push (h : Moving p done positions q)
    (hr : Renumbered positions i.inputs inputs) :
    Fed (q.instructions ++ [{ i with inputs := inputs }]) := by
  refine h.fed.concat fun r hr' => ?_
  obtain ⟨k, -, hk⟩ := exists_of_mem_right hr hr'
  obtain ⟨j, hj, hjop⟩ := h.onDevice k r hk
  refine ⟨j, hj, fun htrue => ?_⟩
  rw [hjop] at htrue
  cases htrue

theorem Moving.onDevice_concat {is : List Instruction} {j : Instruction} {m : Nat}
    (h : Moving p done positions q) (hpre : q.instructions <+: is) (hj : is[m]? = some j)
    (hop : startsOnHost j.op = false) (k n : Nat)
    (hk : (positions ++ [some m])[k]? = some (some n)) :
    ∃ j, is[n]? = some j ∧ startsOnHost j.op = false := by
  obtain ⟨js, rfl⟩ := hpre
  rcases getElem?_concat_eq hk with hk | ⟨-, hn⟩
  · obtain ⟨j, hj, hop⟩ := h.onDevice k n hk
    exact ⟨j, getElem?_append_of_some hj js, hop⟩
  · cases hn
    exact ⟨j, hj, hop⟩

/-- A value that is not on the host stands for itself. -/
theorem Moving.push (hc : Consistent p.instructions)
    (hsplit : p.instructions = done ++ i :: rest) (h : Moving p done positions q)
    (hr : Renumbered positions i.inputs inputs) (hhost : startsOnHost i.op = false) :
    Moving p (done ++ [i]) (positions ++ [some q.size])
      { q with instructions := q.instructions ++ [{ i with inputs := inputs }] } where
  progress := h.progress.push hr
  total := total_concat h.total _
  consistent := consistent_concat.mpr
    ⟨h.consistent, h.progress.rebuilt.fitted hr (Fitted.of_split hc hsplit)⟩
  laid := h.laid_push hsplit hr
  fed := h.fed_push hr
  onDevice := h.onDevice_concat (List.prefix_append _ _) List.getElem?_concat_length hhost

/-- A value on the host is replaced by its transfer. -/
theorem Moving.push_copy (hc : Consistent p.instructions)
    (hsplit : p.instructions = done ++ i :: rest) (h : Moving p done positions q)
    (hr : Renumbered positions i.inputs inputs) :
    Moving p (done ++ [i]) (positions ++ [some (q.size + 1)])
      { q with instructions := q.instructions ++ [{ i with inputs := inputs }] ++
        [{ op := .hostToDevice, inputs := [q.size], shape := i.shape }] } := by
  let pushed : Instruction := { i with inputs := inputs }
  let q₁ : Program := { q with instructions := q.instructions ++ [pushed] }
  let copy : Instruction := { op := .hostToDevice, inputs := [q.size], shape := i.shape }
  have hprogress : Progress [.hostToDevice] p (done ++ [i]) (positions ++ [some q.size]) q₁ :=
    h.progress.push hr
  have hget : q₁.instructions[q.size]? = some pushed := List.getElem?_concat_length
  have hlast : (q₁.instructions ++ [copy])[q₁.size]? = some copy := List.getElem?_concat_length
  have hsize : q₁.size = q.size + 1 := List.length_append
  have hcopied := hprogress.rebuilt.copy (c := copy) hget List.mem_cons_self rfl rfl
    (Shape.Relaid.refl _) rfl
  rw [← hsize]
  have hcons : Consistent q₁.instructions := consistent_concat.mpr
    ⟨h.consistent, h.progress.rebuilt.fitted hr (Fitted.of_split hc hsplit)⟩
  refine ⟨⟨hcopied.redirect (alike_copy hget rfl rfl (Shape.Relaid.refl _)) fun j j' hj hj' => ?_,
    hprogress.parameters, hprogress.target, fun n hn => ?_⟩, total_concat h.total _,
    consistent_concat.mpr ⟨hcons, [i.shape],
      shapesAt_eq_some.mpr (.cons ⟨pushed, hget, rfl⟩ .nil), rfl⟩,
    fun hl => (h.laid_push hsplit hr hl).concat fun hop => (nomatch hop),
    (h.fed_push hr).concat fun r hr' => ⟨pushed, ?_, fun _ => rfl⟩,
    h.onDevice_concat ((List.prefix_append _ _).trans (List.prefix_append _ _)) hlast rfl⟩
  · rw [getElem?_append_of_some hget] at hj
    rw [hlast] at hj'
    cases hj
    cases hj'
    rfl
  · rw [List.getLast?_concat] at hn
    cases hn
    have hsize' : (q₁.instructions ++ [copy]).length = q₁.instructions.length + 1 :=
      List.length_append
    exact hsize'.symm
  · rw [List.mem_singleton.mp hr']
    exact hget

end Step

theorem moving_step (hc : Consistent p.instructions) (hsplit : p.instructions = done ++ i :: rest)
    (h : Moving p done positions q) :
    (stepOn moveStep positions i q).Ends fits
      fun now q' => Moving p (done ++ [i]) (positions ++ [now]) q' := by
  have hfitted := Fitted.of_split hc hsplit
  obtain ⟨inputs, hr⟩ := exists_renumbered h.progress.rebuilt.length h.total hfitted.inputs_lt
  rw [stepOn_of_renumbered hr, moveStep_apply h.progress.target]
  by_cases hhost : startsOnHost i.op = true
  · rw [if_pos hhost]
    exact h.push_copy hc hsplit hr
  · rw [if_neg hhost]
    exact h.push hc hsplit hr (Bool.eq_false_iff.mpr hhost)

theorem Moving.step (hc : Consistent p.instructions) (hsplit : p.instructions = done ++ i :: rest)
    (h : Moving p done positions q) {now : Option Nat} {q' : Program}
    (hq : stepOn moveStep positions i q = .value now q') :
    Moving p (done ++ [i]) (positions ++ [now]) q' := by
  have hends : Turn.Ends False _ (stepOn moveStep positions i q) := moving_step hc hsplit h
  exact hends.of_value hq

theorem moving_nil (ht : p.target = none) : Moving p [] [] { p with instructions := [] } where
  progress := progress_nil ht
  total _ hk := absurd hk (Nat.not_lt_zero _)
  consistent := consistent_nil
  laid _ _ hi := nomatch hi
  fed := List.forall_mem_nil _
  onDevice _ _ hk := by cases hk

structure Moved (p q : Program) : Prop where
  refines : Refines [.hostToDevice] p q
  consistent : Consistent q.instructions
  laid : Laid p.instructions → Laid q.instructions
  fed : Fed q.instructions
  last : ∀ j, q.last? = some j → startsOnHost j.op = false
  unfetched : (∀ i ∈ p.instructions, i.op.isTransfer = false) →
    ∀ j ∈ q.instructions, j.op ≠ .deviceToHost

theorem Moving.startsOnHost_last {j : Instruction} (h : Moving p p.instructions positions q)
    (hj : q.last? = some j) : startsOnHost j.op = false := by
  have hne : p.instructions ≠ [] := by
    intro hnil
    obtain ⟨i, hi, -⟩ := h.progress.rebuilt.lens j (List.mem_of_getLast? hj)
    rw [hnil] at hi
    cases hi
  obtain ⟨n, hn, hsize⟩ := h.progress.exists_last h.total hne
  rw [List.getLast?_eq_getElem?] at hn
  obtain ⟨j', hj', hop⟩ := h.onDevice _ n hn
  have hsize' : q.instructions.length = n + 1 := hsize.symm
  rw [last?, List.getLast?_eq_getElem?, hsize', Nat.add_sub_cancel, hj'] at hj
  cases hj
  exact hop

theorem Moving.moved (h : Moving p p.instructions positions q) : Moved p q where
  refines := h.progress.refines h.total
  consistent := h.consistent
  laid := h.laid
  fed := h.fed
  last _ hj := h.startsOnHost_last hj
  unfetched hfree j hj heq := by
    rcases (h.progress.refines h.total).origin j hj with ⟨i, hi, hop, -⟩ | ⟨hop, -⟩
    · have htransfer := hfree i hi
      rw [← hop, heq] at htransfer
      cases htransfer
    · rw [List.mem_singleton.mp hop] at heq
      cases heq

theorem rebuild_moveStep_ends (hc : Consistent p.instructions) (ht : p.target = none) :
    (rebuild moveStep p).Ends fits fun _ q => Moved p q := by
  have hends : (rebuild moveStep p).Ends fits fun _ q =>
      ∃ positions, Moving p p.instructions positions q := by
    rw [rebuild_apply]
    exact rebuildFrom_ends (I := Moving p)
      (fun done i rest positions q hsplit h => moving_step hc hsplit h) (List.nil_append _).symm
      (moving_nil ht)
  exact hends.mono fun _ q ⟨_, h⟩ => h.moved

/-- The values that a program moved to the device, its output copied to the host behind them. -/
theorem Moved.copy_output (h : Moved p q) {output : Instruction} (hlast : q.last? = some output) :
    let copy : Instruction :=
      { op := .deviceToHost, inputs := [q.size - 1], shape := output.shape }
    addInstruction .deviceToHost [q.size - 1] q =
        .value q.size { q with instructions := q.instructions ++ [copy] } ∧
      Consistent (q.instructions ++ [copy]) ∧ Fed (q.instructions ++ [copy]) := by
  have hget : q.instructions[q.size - 1]? = some output := by
    rw [last?, List.getLast?_eq_getElem?] at hlast
    exact hlast
  refine ⟨addInstruction_apply h.refines.target rfl
      (shapesAt_eq_some.mpr (.cons ⟨output, hget, rfl⟩ .nil)),
    consistent_concat.mpr ⟨h.consistent, [output.shape],
      shapesAt_eq_some.mpr (.cons ⟨output, hget, rfl⟩ .nil), rfl⟩,
    h.fed.concat fun r hr => ⟨output, ?_, fun htrue => ?_⟩⟩
  · rw [List.mem_singleton.mp hr]
    exact hget
  · rw [h.last output hlast] at htrue
    cases htrue

/-- Inserting transfers keeps programs consistent, and feeds the device.  In a program that had
none, only the output is brought back, if that was asked for. -/
theorem insertTransfers_ends (offload : Bool) (hc : Consistent p.instructions)
    (ht : p.target = none) :
    (insertTransfers offload p).Ends fits fun _ q =>
      Refines [.hostToDevice, .deviceToHost] p q ∧ Consistent q.instructions ∧
      (Laid p.instructions → Laid q.instructions) ∧ Fed q.instructions ∧
      (∀ j, q.last? = some j → startsOnHost j.op = false ∧ (offload = true → j.op = .deviceToHost)) ∧
      ((∀ i ∈ p.instructions, i.op.isTransfer = false) → ∀ k j, q.instructions[k]? = some j →
        j.op = .deviceToHost → offload = true ∧ k + 1 = q.instructions.length) := by
  refine Action.ends_bind (rebuild_moveStep_ends hc ht) ?_
  rintro _ q h
  have hsub : ∀ op ∈ [Operator.hostToDevice], op ∈ [Operator.hostToDevice, .deviceToHost] :=
    fun _ hop => List.mem_append_left [Operator.deviceToHost] hop
  rw [Action.bind_of_value Action.get_apply]
  cases offload with
  | false =>
    exact ⟨h.refines.mono hsub, h.consistent, h.laid, h.fed,
      fun j hj => ⟨h.last j hj, fun hfalse => absurd hfalse Bool.false_ne_true⟩,
      fun hfree k j hj hop => absurd hop (h.unfetched hfree j (List.mem_of_getElem? hj))⟩
  | true =>
    by_cases hempty : q.instructions = []
    · have houtput : q.output? = none := by rw [output?, hempty]; rfl
      rw [houtput]
      refine ⟨h.refines.mono hsub, h.consistent, h.laid, h.fed, fun j hj => ?_,
        fun hfree k j hj hop => absurd hop (h.unfetched hfree j (List.mem_of_getElem? hj))⟩
      rw [last?, hempty] at hj
      cases hj
    · have houtput : q.output? = some (q.size - 1) := by
        rw [output?, List.isEmpty_eq_false_iff.mpr hempty]
        rfl
      obtain ⟨output, hlast⟩ : ∃ output, q.last? = some output :=
        ⟨_, List.getLast?_eq_some_getLast hempty⟩
      obtain ⟨hadd, hconsistent, hfed⟩ := h.copy_output hlast
      rw [houtput]
      let copy : Instruction :=
        { op := .deviceToHost, inputs := [q.size - 1], shape := output.shape }
      refine Action.ends_bind (P := fun _ q' => q' = { q with
        instructions := q.instructions ++ [copy] }) (by rw [hadd]; exact rfl) ?_
      rintro _ _ rfl
      refine ⟨h.refines.trans (refines_append_copy (c := copy) h.refines.target hlast rfl rfl
          rfl rfl),
        hconsistent, fun hl => (h.laid hl).concat fun hop => absurd hop Bool.false_ne_true, hfed,
        fun j hj => ?_, fun hfree k j hj hop => ⟨rfl, ?_⟩⟩
      · rw [last?, List.getLast?_concat] at hj
        cases hj
        exact ⟨rfl, fun _ => rfl⟩
      · rcases getElem?_concat_eq hj with hj | ⟨rfl, -⟩
        · exact absurd hop (h.unfetched hfree j (List.mem_of_getElem? hj))
        · have hsize : (q.instructions ++ [copy]).length = q.instructions.length + 1 :=
            List.length_append
          exact hsize.symm

/-- After the instructions of a program were moved, its output is brought back if that was asked
for. -/
theorem insertTransfers_eq_value {offload : Bool} {u : Unit}
    (h : insertTransfers offload p = .value u q) :
    ∃ r, rebuild moveStep p = .value () r ∧
      (q = r ∧ (offload = true → r.instructions = []) ∨
        offload = true ∧ r.instructions ≠ [] ∧ ∃ s, q = { r with instructions := r.instructions ++
          [{ op := .deviceToHost, inputs := [r.size - 1], shape := s }] }) := by
  obtain ⟨_, r, hr, hback⟩ := Action.bind_eq_value.mp (show (rebuild moveStep >>= _) p = _ from h)
  refine ⟨r, hr, ?_⟩
  rw [Action.bind_of_value Action.get_apply] at hback
  cases offload with
  | false =>
    cases hback
    exact Or.inl ⟨rfl, fun hfalse => absurd hfalse Bool.false_ne_true⟩
  | true =>
    by_cases hempty : r.instructions = []
    · rw [output?, hempty] at hback
      cases hback
      exact Or.inl ⟨rfl, fun _ => hempty⟩
    · rw [output?, List.isEmpty_eq_false_iff.mpr hempty] at hback
      obtain ⟨_, r', hadd, hdone⟩ := Action.bind_eq_value.mp
        (show (addInstruction .deviceToHost [r.size - 1] >>= _) r = _ from hback)
      cases hdone
      rcases addInstruction_cases .deviceToHost [r.size - 1] r with hadd' | ⟨e, hadd'⟩ |
        ⟨s, -, -, -, hadd'⟩ <;> rw [hadd] at hadd' <;> cases hadd'
      exact Or.inr ⟨rfl, hempty, s, rfl⟩

end Program
end TensorGraph
