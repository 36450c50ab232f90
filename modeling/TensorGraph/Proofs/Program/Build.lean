/-
How programs grow.

Each of the calls that extend a program either appends one instruction that is fitted to
those before it, or leaves the program as it was.  `WellFormed` is what they preserve, and
`Built` are the programs that they make from nothing, with literals as their constructors
make them.
-/
import TensorGraph.Proofs.Program.Consistent

namespace TensorGraph

/-! ## Literals -/

namespace Literal

inductive Made : Literal → Prop
  | ofElements {key : Nat} {shape : Shape} {dtype : Dtype} {elements : List Nat} {l : Literal} :
      Literal.ofElements key shape dtype elements = .value l → Made l
  | ofBytes {key : Nat} {shape : Shape} {bytes : Bytes} {l : Literal} :
      Literal.ofBytes key shape bytes = .value l → Made l
  | generate {key : Nat} {shape : Shape} {seed : UInt64} {l : Literal} :
      Literal.generate key shape seed = some l → Made l

theorem ofElements_eq_value {key : Nat} {shape : Shape} {dtype : Dtype} {elements : List Nat}
    {l : Literal} (h : ofElements key shape dtype elements = .value l) :
    shape.isStandard = some true ∧ elements.length = shape.lens.prod ∧
      l = ⟨shape, .ofBytes key (Bytes.ofWords shape.dtype.size elements)⟩ := by
  unfold ofElements at h
  obtain ⟨_, _, h⟩ := Outcome.bind_eq_value.mp h
  obtain ⟨standard, hstandard, h⟩ := Outcome.bind_eq_value.mp h
  obtain ⟨_, hs, h⟩ := Outcome.bind_eq_value.mp h
  obtain ⟨count, hcount, h⟩ := Outcome.bind_eq_value.mp h
  obtain ⟨_, hlength, h⟩ := Outcome.bind_eq_value.mp h
  obtain ⟨b, hb, h⟩ := Outcome.bind_eq_value.mp h
  cases h
  obtain rfl := Outcome.require_eq_value.mp hs
  have hcount' := Shape.elements_eq_some (Outcome.ofOption_eq_value.mp hcount)
  obtain ⟨-, rfl⟩ := HostBuffer.ofElements_eq_some.mp (Outcome.ofOption_eq_value.mp hb)
  exact ⟨Outcome.ofOption_eq_value.mp hstandard,
    (Outcome.require_eq_value.mp hlength).trans hcount', rfl⟩

theorem generate_eq_some {key : Nat} {shape : Shape} {seed : UInt64} {l : Literal}
    (h : generate key shape seed = some l) :
    ∃ standard, shape.asStandard = some standard ∧
      l = ⟨standard, .ofBytes key (Bytes.ofWords standard.dtype.size
        (Random.elements standard.dtype seed standard.lens.prod))⟩ := by
  unfold generate at h
  obtain ⟨standard, hstandard, h⟩ := Option.bind_eq_some_iff.mp h
  obtain ⟨count, hcount, h⟩ := Option.bind_eq_some_iff.mp h
  obtain ⟨b, hb, h⟩ := Option.bind_eq_some_iff.mp h
  cases h
  obtain rfl := Shape.elements_eq_some hcount
  obtain ⟨-, rfl⟩ := HostBuffer.zeroed_eq_some.mp hb
  exact ⟨standard, hstandard, rfl⟩

/-- A literal that is made has its bytes in a buffer of its own. -/
theorem Made.address {l : Literal} (h : l.Made) : l.buffer.address = bufferAlignment := by
  cases h with
  | ofElements h =>
    obtain ⟨-, -, rfl⟩ := ofElements_eq_value h
    rfl
  | ofBytes h =>
    unfold Literal.ofBytes at h
    obtain ⟨_, _, h⟩ := Outcome.bind_eq_value.mp h
    obtain ⟨_, _, h⟩ := Outcome.bind_eq_value.mp h
    cases h
    rfl
  | generate h =>
    obtain ⟨_, -, rfl⟩ := generate_eq_some h
    rfl

/-- A literal that is made holds every byte that its strides span. -/
theorem Made.storage {l : Literal} (h : l.Made) (hp : l.shape.Populated) :
    l.shape.space * l.shape.dtype.size ≤ l.bytes.size := by
  cases h with
  | ofElements h =>
    obtain ⟨hstandard, hlength, rfl⟩ := ofElements_eq_value h
    show _ ≤ (Bytes.ofWords _ _).size
    rw [Bytes.size_ofWords, Shape.space_of_isStandard hstandard hp, hlength]
  | ofBytes h =>
    unfold Literal.ofBytes at h
    obtain ⟨bytes, hbytes, h⟩ := Outcome.bind_eq_value.mp h
    obtain ⟨_, hsize, h⟩ := Outcome.bind_eq_value.mp h
    cases h
    have hsize' := Outcome.require_eq_value.mp hsize
    have hb := (Shape.storageBytes_eq_some hp).mp (Outcome.ofOption_eq_value.mp hbytes)
    exact Nat.le_of_eq (hb.1.symm.trans hsize'.symm)
  | generate h =>
    obtain ⟨standard, hstandard, rfl⟩ := generate_eq_some h
    have hlens := (Shape.asStandard_eq_some hstandard).1
    have hp' : ∀ n ∈ standard.lens, 0 < n := hp
    rw [hlens] at hp'
    show _ ≤ (Bytes.ofWords _ _).size
    rw [Bytes.size_ofWords, Random.length_elements, hlens, Shape.space_of_standard hstandard hp']

end Literal

namespace Program

/-! ## The calls -/

variable {p q : Program}

/-- The shapes recorded at positions, as a program looks them up. -/
theorem mapM_get_cases (p : Program) (inputs : List Nat) (q : Program) :
    (∃ shapes, shapesAt p.instructions inputs = some shapes ∧
      (inputs.mapM fun r => (do return (← p.get r).shape : Action Program Shape)) q =
        .value shapes q) ∨
    (shapesAt p.instructions inputs = none ∧ ∃ e,
      (inputs.mapM fun r => (do return (← p.get r).shape : Action Program Shape)) q =
        .refused e q) := by
  induction inputs with
  | nil => exact Or.inl ⟨[], rfl, rfl⟩
  | cons r rs ih =>
    rw [List.mapM_cons]
    rcases Nat.lt_or_ge r p.size with hr | hr
    · have hget := get_of_lt hr
      have hi : p.instructions[r]? = some p.instructions[r] := List.getElem?_eq_getElem hr
      rcases ih with ⟨shapes, hs, h⟩ | ⟨hs, e, h⟩
      · refine Or.inl ⟨p.instructions[r].shape :: shapes, ?_, ?_⟩
        · rw [shapesAt, List.mapM_cons, hi, Option.map_some]
          show (shapesAt p.instructions rs >>= _) = _
          rw [hs]
          rfl
        · rw [hget]
          show ((rs.mapM _ : Action Program (List Shape)) >>= _) q = _
          exact Action.bind_of_value h
      · refine Or.inr ⟨?_, e, ?_⟩
        · rw [shapesAt, List.mapM_cons, hi, Option.map_some]
          show (shapesAt p.instructions rs >>= _) = _
          rw [hs]
          rfl
        · rw [hget]
          show ((rs.mapM _ : Action Program (List Shape)) >>= _) q = _
          exact Action.bind_of_refused h
    · refine Or.inr ⟨?_, .noInstruction r p.size, ?_⟩
      · rw [shapesAt, List.mapM_cons, List.getElem?_eq_none hr]
        rfl
      · rw [get_of_size_le hr]
        rfl

theorem addInstruction_apply {op : Operator} {inputs : List Nat} {shapes : List Shape}
    (ht : p.target = none) (hp : op.isParameter = false)
    (hs : shapesAt p.instructions inputs = some shapes) :
    addInstruction op inputs p =
      (Action.ofOutcome (op.infer shapes) >>= fun s =>
        push { op := op, inputs := inputs, shape := s }) p := by
  have hopen : requireOpen op.name p = .value () p := by
    unfold requireOpen
    rw [Action.bind_of_value Action.get_apply, ht]
    rfl
  have hshapes : (inputs.mapM fun r => (do return (← p.get r).shape : Action Program Shape)) p =
      .value shapes p := by
    rcases mapM_get_cases p inputs p with ⟨shapes', hs', h⟩ | ⟨hs', -⟩
    · rw [hs] at hs'
      cases hs'
      exact h
    · rw [hs] at hs'
      cases hs'
  unfold addInstruction
  cases op with
  | parameter => cases hp
  | _ =>
    dsimp only
    rw [Action.bind_of_value hopen, Action.bind_of_value Action.get_apply,
      Action.bind_of_value hshapes]
    rfl

theorem addInstruction_cases (op : Operator) (inputs : List Nat) (p : Program) :
    addInstruction op inputs p = .halted ∨ (∃ e, addInstruction op inputs p = .refused e p) ∨
    ∃ s, p.target = none ∧ op.isParameter = false ∧
      Fitted p.instructions { op := op, inputs := inputs, shape := s } ∧
      addInstruction op inputs p = .value p.size
        { p with instructions := p.instructions ++ [{ op := op, inputs := inputs, shape := s }] } := by
  by_cases hp : op.isParameter = true
  · cases op with
    | parameter name s => exact Or.inr (Or.inl ⟨_, rfl⟩)
    | _ => cases hp
  rw [Bool.not_eq_true] at hp
  rcases Option.eq_none_or_eq_some p.target with ht | ⟨t, ht⟩
  rotate_left
  · refine Or.inr (Or.inl ⟨.lowering op.name t.name .closed, ?_⟩)
    have hclosed : requireOpen op.name p = .refused (.lowering op.name t.name .closed) p := by
      unfold requireOpen
      rw [Action.bind_of_value Action.get_apply, ht]
      rfl
    unfold addInstruction
    cases op with
    | parameter => cases hp
    | _ => exact Action.bind_of_refused hclosed
  · rcases mapM_get_cases p inputs p with ⟨shapes, hs, -⟩ | ⟨hs, e, h⟩
    · rw [addInstruction_apply ht hp hs]
      cases hinfer : op.infer shapes with
      | value s => exact Or.inr (Or.inr ⟨s, ht, hp, ⟨shapes, hs, hinfer⟩, rfl⟩)
      | refused e => exact Or.inr (Or.inl ⟨e, rfl⟩)
      | halted => exact Or.inl rfl
    · refine Or.inr (Or.inl ⟨e, ?_⟩)
      have hopen : requireOpen op.name p = .value () p := by
        unfold requireOpen
        rw [Action.bind_of_value Action.get_apply, ht]
        rfl
      unfold addInstruction
      cases op with
      | parameter => cases hp
      | _ =>
        dsimp only
        rw [Action.bind_of_value hopen, Action.bind_of_value Action.get_apply]
        exact Action.bind_of_refused h

theorem addParameter_cases (name : String) (s : Shape) (p : Program) :
    (∃ e, addParameter name s p = .refused e p) ∨
    (p.target = none ∧ name ∉ p.parameters.map Prod.fst ∧
      addParameter name s p = .value p.size
        { p with
          parameters := insertParameter name s p.parameters
          instructions := p.instructions ++ [{ op := .parameter name s, inputs := [], shape := s }] }) := by
  unfold addParameter
  rcases Option.eq_none_or_eq_some p.target with ht | ⟨t, ht⟩
  rotate_left
  · refine Or.inl ⟨.lowering "@param" t.name .closed, Action.bind_of_refused ?_⟩
    unfold requireOpen
    rw [Action.bind_of_value Action.get_apply, ht]
    rfl
  · have hopen : requireOpen "@param" p = .value () p := by
      unfold requireOpen
      rw [Action.bind_of_value Action.get_apply, ht]
      rfl
    rw [Action.bind_of_value hopen, Action.bind_of_value Action.get_apply]
    by_cases hany : (p.parameters.any fun q => decide (q.1 = name)) = true
    · rw [if_pos hany]
      exact Or.inl ⟨_, rfl⟩
    · rw [if_neg hany]
      refine Or.inr ⟨ht, fun hmem => hany ?_, rfl⟩
      obtain ⟨q, hq, rfl⟩ := List.mem_map.mp hmem
      exact List.any_eq_true.mpr ⟨q, hq, by simp⟩

/-! ## What the calls preserve -/

theorem perm_insertParameter (name : String) (s : Shape) (parameters : List (String × Shape)) :
    (insertParameter name s parameters).Perm (parameters ++ [(name, s)]) := by
  induction parameters with
  | nil => exact .refl _
  | cons entry rest ih =>
    obtain ⟨n, s'⟩ := entry
    unfold insertParameter
    split
    · exact (List.perm_append_singleton (name, s) ((n, s') :: rest)).symm
    · exact ih.cons (n, s')

/-- Every shape is the inferred one, and the parameters are those that the instructions
declare, each name once. -/
structure WellFormed (p : Program) : Prop where
  consistent : Consistent p.instructions
  parameters : p.parameters.Perm (declared p.instructions)
  names : (p.parameters.map Prod.fst).Nodup

theorem wellFormed_empty : WellFormed {} where
  consistent := consistent_nil
  parameters := .refl _
  names := .nil

theorem WellFormed.addParameter (h : WellFormed p) {name : String} (s : Shape)
    (hn : name ∉ p.parameters.map Prod.fst) :
    WellFormed { p with
      parameters := insertParameter name s p.parameters
      instructions := p.instructions ++ [{ op := .parameter name s, inputs := [], shape := s }] } where
  consistent := consistent_concat.mpr ⟨h.consistent, [], rfl, rfl⟩
  parameters := by
    refine (perm_insertParameter name s p.parameters).trans ?_
    rw [declared_append]
    exact h.parameters.append_right _
  names := by
    refine ((perm_insertParameter name s p.parameters).map Prod.fst).nodup_iff.mpr ?_
    rw [List.map_append]
    refine h.names.append (List.nodup_singleton name) fun n hmem hname => hn ?_
    rw [List.mem_singleton.mp hname] at hmem
    exact hmem

theorem WellFormed.concat (h : WellFormed p) {i : Instruction} (hi : i.isParameter = false)
    (hf : Fitted p.instructions i) :
    WellFormed { p with instructions := p.instructions ++ [i] } where
  consistent := consistent_concat.mpr ⟨h.consistent, hf⟩
  parameters := by
    rw [declared_append, declared_singleton_of_not_isParameter hi, List.append_nil]
    exact h.parameters
  names := h.names

/-- The programs that the calls make, of literals that were made. -/
inductive Built : Program → Prop
  | empty : Built {}
  | parameter {p q : Program} {name : String} {s : Shape} {r : Nat} :
      Built p → addParameter name s p = .value r q → Built q
  | instruction {p q : Program} {op : Operator} {inputs : List Nat} {r : Nat} :
      Built p → (∀ l, op = .literal l → l.Made) →
      addInstruction op inputs p = .value r q → Built q
  | literal {p q : Program} {l : Literal} {w w' : World} {r : Nat} :
      Built p → l.Made → p.addLiteral l w = .value (q, r) w' → Built q

theorem addLiteral_of_open (ht : p.target = none) (l : Literal) (w : World) :
    p.addLiteral l w = .value
      ({ p with instructions := p.instructions ++
        [{ op := .literal l, inputs := [], shape := l.shape }] }, p.size) w := by
  unfold addLiteral
  rw [ht]
  rfl

structure Unbound (p : Program) : Prop where
  wellFormed : WellFormed p
  target : p.target = none
  kernels : ∀ i ∈ p.instructions, i.kernel = none
  literals : ∀ i ∈ p.instructions, ∀ l, i.op = .literal l → l.Made

theorem unbound_empty : Unbound {} :=
  ⟨wellFormed_empty, rfl, fun _ h => (nomatch h), fun _ h => (nomatch h)⟩

theorem Unbound.addParameter (h : Unbound p) {name : String} (s : Shape)
    (hn : name ∉ p.parameters.map Prod.fst) :
    Unbound { p with
      parameters := insertParameter name s p.parameters
      instructions := p.instructions ++ [{ op := .parameter name s, inputs := [], shape := s }] } where
  wellFormed := h.wellFormed.addParameter s hn
  target := h.target
  kernels := by
    rw [List.forall_mem_append, List.forall_mem_singleton]
    exact ⟨h.kernels, rfl⟩
  literals := by
    rw [List.forall_mem_append, List.forall_mem_singleton]
    exact ⟨h.literals, fun _ hl => nomatch hl⟩

theorem Unbound.concat (h : Unbound p) {i : Instruction} (hi : i.isParameter = false)
    (hf : Fitted p.instructions i) (hk : i.kernel = none)
    (hl : ∀ l, i.op = .literal l → l.Made) :
    Unbound { p with instructions := p.instructions ++ [i] } where
  wellFormed := h.wellFormed.concat hi hf
  target := h.target
  kernels := by
    rw [List.forall_mem_append, List.forall_mem_singleton]
    exact ⟨h.kernels, hk⟩
  literals := by
    rw [List.forall_mem_append, List.forall_mem_singleton]
    exact ⟨h.literals, hl⟩

theorem Built.unbound (h : Built p) : Unbound p := by
  induction h with
  | empty => exact unbound_empty
  | @parameter p q name s r _ hadd ih =>
    rcases addParameter_cases name s p with ⟨e, hrefused⟩ | ⟨-, hn, hvalue⟩
    · rw [hrefused] at hadd
      cases hadd
    · rw [hvalue] at hadd
      cases hadd
      exact ih.addParameter s hn
  | @instruction p q op inputs r _ hl hadd ih =>
    rcases addInstruction_cases op inputs p with hhalt | ⟨e, hrefused⟩ | ⟨s, -, hp, hf, hvalue⟩
    · rw [hhalt] at hadd
      cases hadd
    · rw [hrefused] at hadd
      cases hadd
    · rw [hvalue] at hadd
      cases hadd
      exact ih.concat hp hf rfl hl
  | @literal p q l w w' r _ hl hadd ih =>
    rw [addLiteral_of_open ih.target] at hadd
    cases hadd
    refine ih.concat rfl ⟨[], rfl, rfl⟩ rfl fun l' heq => ?_
    cases heq
    exact hl

end Program
end TensorGraph
