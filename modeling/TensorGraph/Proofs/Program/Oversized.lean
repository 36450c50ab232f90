/-
Appending an instruction, exactly.

On an open program whose shapes have counts, `addInstruction` appends one instruction, or is
refused and leaves the program as it was, for a fault of shapes or for an input that does not
exist.  The one other way to end is to halt, on operands that go together and whose output
has a size that is no word: `Oversized` says which those are.
-/
import TensorGraph.Proofs.Oversized
import TensorGraph.Proofs.Program.Ready

namespace TensorGraph
namespace Program

variable {p q : Program} {op : Operator} {inputs : List Nat}

/-- Inputs that do not all exist are refused for the first that does not. -/
theorem mapM_get_of_missing (h : shapesAt p.instructions inputs = none) (q : Program) :
    ∃ r ∈ inputs, p.size ≤ r ∧
      (inputs.mapM fun r => (do return (← p.get r).shape : Action Program Shape)) q =
        .refused (.noInstruction r p.size) q := by
  induction inputs with
  | nil => cases h
  | cons r rs ih =>
    rw [List.mapM_cons]
    by_cases hr : r < p.size
    · have hi : p.instructions[r]? = some p.instructions[r] := List.getElem?_eq_getElem hr
      have hrest : shapesAt p.instructions rs = none := by
        rw [shapesAt, List.mapM_cons, hi, Option.map_some] at h
        cases hrs : shapesAt p.instructions rs with
        | none => rfl
        | some shapes =>
          rw [shapesAt] at hrs
          rw [hrs] at h
          cases h
      obtain ⟨s, hs, hsize, hrefused⟩ := ih hrest
      refine ⟨s, List.mem_cons_of_mem r hs, hsize, ?_⟩
      rw [get_of_lt hr]
      show ((rs.mapM _ : Action Program (List Shape)) >>= _) q = _
      exact Action.bind_of_refused hrefused
    · refine ⟨r, List.mem_cons_self, by omega, ?_⟩
      rw [get_of_size_le (by omega)]
      rfl

theorem requireOpen_of_open (ht : p.target = none) (name : String) :
    requireOpen name p = .value () p := by
  unfold requireOpen
  rw [Action.bind_of_value Action.get_apply, ht]
  rfl

theorem addInstruction_of_missing (ht : p.target = none) (hop : op.isParameter = false)
    (h : shapesAt p.instructions inputs = none) :
    ∃ r ∈ inputs, p.size ≤ r ∧
      addInstruction op inputs p = .refused (.noInstruction r p.size) p := by
  obtain ⟨r, hr, hsize, hrefused⟩ := mapM_get_of_missing h p
  refine ⟨r, hr, hsize, ?_⟩
  unfold addInstruction
  cases op with
  | parameter => cases hop
  | _ =>
    dsimp only
    rw [Action.bind_of_value (requireOpen_of_open ht _), Action.bind_of_value Action.get_apply]
    exact Action.bind_of_refused hrefused

/-- An instruction is appended, or refused with the program as it was, unless its operands go
together and the output is oversized. -/
theorem addInstruction_exact (ht : p.target = none)
    (hcount : ∀ i ∈ p.instructions, i.shape.elements.isSome = true)
    (hop : op.isParameter = false) (inputs : List Nat) :
    (addInstruction op inputs p = .halted ↔
      ∃ shapes, shapesAt p.instructions inputs = some shapes ∧ Operator.Oversized op shapes) ∧
    (addInstruction op inputs p ≠ .halted →
      (∃ s, addInstruction op inputs p = .value p.size
        { p with instructions := p.instructions ++ [{ op := op, inputs := inputs, shape := s }] }) ∨
      (∃ why, addInstruction op inputs p = .refused (.shape op.name why) p) ∨
      ∃ r ∈ inputs, p.size ≤ r ∧
        addInstruction op inputs p = .refused (.noInstruction r p.size) p) := by
  cases hs : shapesAt p.instructions inputs with
  | none =>
    obtain ⟨r, hr, hsize, hrefused⟩ := addInstruction_of_missing ht hop hs
    refine ⟨⟨fun h => ?_, fun h => ?_⟩, fun _ => Or.inr (Or.inr ⟨r, hr, hsize, hrefused⟩)⟩
    · rw [hrefused] at h
      cases h
    · obtain ⟨shapes, hshapes, -⟩ := h
      cases hshapes
  | some shapes =>
    have hcounts : ∀ s ∈ shapes, s.elements.isSome = true := forall_of_shapesAt hs hcount
    have hover : op.infer shapes = .halted ↔ op.Oversized shapes :=
      Operator.infer_eq_halted hcounts
    rw [addInstruction_apply ht hop hs]
    cases hinfer : op.infer shapes with
    | value s =>
      refine ⟨⟨(fun h => nomatch h), fun h => ?_⟩, fun _ => Or.inl ⟨s, rfl⟩⟩
      obtain ⟨shapes', hshapes, hlarge⟩ := h
      cases hshapes
      have hhalted := hover.mpr hlarge
      rw [hinfer] at hhalted
      cases hhalted
    | refused e =>
      obtain ⟨why, rfl⟩ := Operator.infer_refused hinfer
      refine ⟨⟨(fun h => nomatch h), fun h => ?_⟩, fun _ => Or.inr (Or.inl ⟨why, rfl⟩)⟩
      obtain ⟨shapes', hshapes, hlarge⟩ := h
      cases hshapes
      have hhalted := hover.mpr hlarge
      rw [hinfer] at hhalted
      cases hhalted
    | halted =>
      exact ⟨⟨fun _ => ⟨shapes, rfl, hover.mp hinfer⟩, fun _ => rfl⟩, fun h => absurd rfl h⟩

def fourInARow : Program where
  instructions :=
    [{ op := .parameter "x" ⟨.float, [⟨4, 1⟩]⟩, inputs := [], shape := ⟨.float, [⟨4, 1⟩]⟩ }]
  parameters := [("x", ⟨.float, [⟨4, 1⟩]⟩)]

/-- Four elements do not make a matrix of three rows and three columns. -/
theorem addInstruction_fourInARow :
    (fourInARow.target = none ∧ (∀ i ∈ fourInARow.instructions, i.shape.elements.isSome = true) ∧
      (Operator.reshape [3, 3]).isParameter = false) ∧
    (¬∃ shapes, shapesAt fourInARow.instructions [0] = some shapes ∧
      Operator.Oversized (.reshape [3, 3]) shapes) ∧
    ∃ why, addInstruction (.reshape [3, 3]) [0] fourInARow =
      .refused (.shape "reshape" why) fourInARow := by
  have hcount : ∀ i ∈ fourInARow.instructions, i.shape.elements.isSome = true := by decide
  have hhalted : addInstruction (.reshape [3, 3]) [0] fourInARow = .halted ↔ _ :=
    (addInstruction_exact rfl hcount rfl [0]).1
  have hrefused : addInstruction (.reshape [3, 3]) [0] fourInARow =
      .refused (.shape "reshape" (.reshapeCount 4 [3, 3])) fourInARow := rfl
  refine ⟨⟨rfl, hcount, rfl⟩, fun h => ?_, _, hrefused⟩
  rw [← hhalted, hrefused] at h
  cases h

/-- Nor do they make one of `2 ^ 32` rows and columns, but there the product leaves the range
before it is compared. -/
theorem addInstruction_halts : ¬∀ (p : Program) (op : Operator) (inputs : List Nat),
    p.target = none →
    (∀ i ∈ p.instructions, i.shape.elements.isSome = true ∧ i.shape.storageBytes.isSome = true) →
    op.isParameter = false → addInstruction op inputs p ≠ .halted := by
  intro h
  exact h fourInARow (.reshape [4294967296, 4294967296]) [0] rfl (by decide) rfl rfl

end Program
end TensorGraph
