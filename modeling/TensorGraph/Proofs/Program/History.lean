/-
Programs through their whole life.

A history is any sequence of the calls that extend a program or compile it for the host or
a device, in whatever worlds, the refused ones included.  `Sound` is what each call
preserves, and `reached_sound` spells it out for every program that a history leads to.
-/
import TensorGraph.Proofs.Program.Compile
import Mathlib.Logic.Relation

namespace TensorGraph

namespace Target

def Stock (t : Target) : Prop := t = host ∨ ∃ id offload, t = device id offload

end Target

/-! ## Literals on a target -/

def Instruction.BoundLiteral (t : Target) (i : Instruction) : Prop :=
  ∃ l k, i = { op := .literal l, inputs := [], shape := l.shape, kernel := some k } ∧
    t.backend.Serves [] i k

namespace Program

variable {p q : Program} {t : Target} {w w' : World}

/-- What an instruction is served does not depend on instructions behind those it reads. -/
theorem serves_append {backend : Backend} {is : List Instruction} {i : Instruction}
    {k : BoundKernel} (hlt : ∀ r ∈ i.inputs, r < is.length) (js : List Instruction) :
    backend.Serves (is ++ js) i k ↔ backend.Serves is i k := by
  have hhead : (i.inputs.head?.bind fun r => (is ++ js)[r]?) =
      i.inputs.head?.bind fun r => is[r]? := by
    cases hin : i.inputs with
    | nil => rfl
    | cons r rest =>
      rw [List.head?_cons, Option.bind_some, Option.bind_some, List.getElem?_append_left]
      exact hlt r (by rw [hin]; exact List.mem_cons_self)
  unfold Backend.Serves
  rw [hhead]

theorem modify_concat (is : List Instruction) (i : Instruction)
    (f : Instruction → Instruction) : (is ++ [i]).modify is.length f = is ++ [f i] := by
  induction is with
  | nil => rfl
  | cons j is ih => exact congrArg (j :: ·) ih

/-- A constant that is added to a compiled program is bound at once. -/
theorem addLiteral_of_compiled (ht : p.target = some t) (hs : t.Stock) (l : Literal)
    (w : World) : ∃ k, Instruction.BoundLiteral t ⟨.literal l, [], l.shape, some k⟩ ∧
      p.addLiteral l w = .value ({ p with
        instructions := p.instructions ++ [⟨.literal l, [], l.shape, some k⟩] }, p.size) w := by
  let i : Instruction := { op := .literal l, inputs := [], shape := l.shape }
  have hget : ({ p with instructions := p.instructions ++ [i] } : Program).get p.size =
      .value i := get_of_getElem? List.getElem?_concat_length
  obtain ⟨k, hk, hbind⟩ : ∃ k, t.backend.Serves [] i k ∧
      t.bind { p with instructions := p.instructions ++ [i] } p.size w = .value k w := by
    rcases hs with rfl | ⟨id, offload, rfl⟩
    · refine ⟨.host (.literal l), ⟨rfl, rfl⟩, ?_⟩
      unfold Target.bind
      rw [Action.bind_lift_of_value hget]
      rfl
    · refine ⟨.literal l, rfl, ?_⟩
      unfold Target.bind
      rw [Action.bind_lift_of_value hget]
      rfl
  refine ⟨k, ⟨l, k, rfl, hk⟩, ?_⟩
  unfold addLiteral
  rw [ht]
  have hattempt : Action.attempt (t.bind { p with instructions := p.instructions ++ [i] } p.size) w =
      .value (.ok k) w := by
    unfold Action.attempt
    rw [hbind]
  refine (Action.bind_of_value hattempt).trans ?_
  have hset : ({ p with instructions := p.instructions ++ [i] } : Program).setKernel p.size k =
      { p with instructions := p.instructions ++ [{ i with kernel := some k }] } :=
    congrArg (fun is => { p with instructions := is }) (modify_concat p.instructions i _)
  rw [← ht]
  exact congrArg (fun q => Turn.value (q, p.size) w) hset

/-! ## Steps -/

inductive Step : Program → Program → Prop
  | addParameter {p q : Program} {name : String} {s : Shape} :
      (addParameter name s p).Leaves q → Step p q
  | addInstruction {p q : Program} {op : Operator} {inputs : List Nat} :
      (addInstruction op inputs p).Leaves q → Step p q
  | addLiteral {p q : Program} {l : Literal} {r : Nat} {w w' : World} :
      p.addLiteral l w = .value (q, r) w' → Step p q
  | addLiteralRefused {p : Program} {l : Literal} {e : Error} {w w' : World} :
      p.addLiteral l w = .refused e w' → Step p p
  | compile {p q : Program} {t : Target} {w w' : World} :
      t.Stock → p.compile t w = .value q w' → Step p q
  | compileRefused {p : Program} {t : Target} {e : Error} {w w' : World} :
      t.Stock → p.compile t w = .refused e w' → Step p p

def Reached (p : Program) : Prop := Relation.ReflTransGen Step {} p

structure Sound (p : Program) : Prop where
  wellFormed : WellFormed p
  unbound : p.target = none → ∀ i ∈ p.instructions, i.kernel = none
  bound : ∀ t, p.target = some t → t.Stock ∧ ∀ i ∈ p.instructions, i.isParameter = false →
    ∃ k, i.kernel = some k ∧ t.backend.Serves p.instructions i k

theorem sound_empty : Sound {} where
  wellFormed := wellFormed_empty
  unbound _ _ h := nomatch h
  bound _ h := nomatch h

/-- A program that is not compiled stays sound with one more instruction. -/
theorem Sound.extended (h : Sound p) (ht : p.target = none) {i : Instruction}
    (hq : WellFormed q) (hopen : q.target = none)
    (hinstructions : q.instructions = p.instructions ++ [i]) (hi : i.kernel = none) :
    Sound q where
  wellFormed := hq
  unbound _ := by
    rw [hinstructions, List.forall_mem_append, List.forall_mem_singleton]
    exact ⟨h.unbound ht, hi⟩
  bound t ht' := by
    rw [hopen] at ht'
    cases ht'

/-- A call that leaves an open program with one more instruction, or as it was. -/
theorem Sound.addParameter (h : Sound p) {name : String} {s : Shape}
    (hq : (addParameter name s p).Leaves q) : Sound q := by
  refine Turn.Always.of_leaves ?_ hq
  rcases addParameter_cases name s p with ⟨e, hrefused⟩ | ⟨ht, hn, hvalue⟩
  · rw [hrefused]
    exact h
  · rw [hvalue]
    exact h.extended ht (h.wellFormed.addParameter s hn) ht rfl rfl

theorem Sound.addInstruction (h : Sound p) {op : Operator} {inputs : List Nat}
    (hq : (addInstruction op inputs p).Leaves q) : Sound q := by
  refine Turn.Always.of_leaves ?_ hq
  rcases addInstruction_cases op inputs p with hhalt | ⟨e, hrefused⟩ | ⟨s, ht, hp, hf, hvalue⟩
  · rw [hhalt]
    exact trivial
  · rw [hrefused]
    exact h
  · rw [hvalue]
    exact h.extended ht (h.wellFormed.concat hp hf) ht rfl rfl

theorem Sound.concat_boundLiteral (h : Sound p) (ht : p.target = some t) {i : Instruction}
    (hi : i.BoundLiteral t) : Sound { p with instructions := p.instructions ++ [i] } := by
  obtain ⟨l, k, rfl, hk⟩ := hi
  obtain ⟨hstock, hserved⟩ := h.bound t ht
  refine ⟨h.wellFormed.concat rfl ⟨[], rfl, rfl⟩, fun hnone => ?_, fun t' ht' => ?_⟩
  · rw [show p.target = none from hnone] at ht
    cases ht
  · rw [show p.target = some t' from ht'] at ht
    cases ht
    refine ⟨hstock, ?_⟩
    rw [List.forall_mem_append, List.forall_mem_singleton]
    constructor
    · intro j hj hp
      obtain ⟨c, hc, hs⟩ := hserved j hj hp
      obtain ⟨r, hr⟩ := List.mem_iff_getElem?.mp hj
      refine ⟨c, hc, (serves_append (fun n hn => ?_) _).mpr hs⟩
      exact (h.wellFormed.consistent.inputs_lt hr n hn).trans (List.getElem?_eq_some_iff.mp hr).1
    · exact fun _ => ⟨k, rfl, (serves_append (fun n hn => absurd hn List.not_mem_nil) _).mpr hk⟩

theorem Sound.addLiteral (h : Sound p) {l : Literal} {r : Nat}
    (hq : p.addLiteral l w = .value (q, r) w') : Sound q := by
  rcases Option.eq_none_or_eq_some p.target with ht | ⟨t, ht⟩
  · rw [addLiteral_of_open ht] at hq
    cases hq
    exact h.extended ht (h.wellFormed.concat rfl ⟨[], rfl, rfl⟩) ht rfl rfl
  · obtain ⟨k, hi, hvalue⟩ := addLiteral_of_compiled ht (h.bound t ht).1 l w
    rw [hvalue] at hq
    cases hq
    exact h.concat_boundLiteral ht hi

theorem lowered_of_stock (hs : t.Stock) (hc : Consistent p.instructions) (ht : p.target = none)
    (h : Lowers t.passes p q) :
    ∃ copies, Lowered copies p q ∧ ∀ op ∈ copies, op.isCopy = true := by
  obtain rfl | ⟨id, offload, rfl⟩ := hs
  · exact ⟨_, lowered_host hc ht h, by decide⟩
  · exact ⟨_, (lowered_device hc ht h).1, by decide⟩

theorem Sound.compile (h : Sound p) (hs : t.Stock) (hq : p.compile t w = .value q w') :
    Sound q := by
  obtain ⟨ht, hqt, lowered, hpasses, hrebound⟩ := compile_eq_value hq
  obtain ⟨copies, hlow, -⟩ := lowered_of_stock hs h.wellFormed.consistent ht hpasses
  have hbare : q.instructions.map bare = lowered.instructions.map bare := hrebound.bare_eq
  refine ⟨⟨?_, ?_, ?_⟩, fun hnone => ?_, fun t' ht' => ?_⟩
  · rw [← consistent_map_bare, hbare, consistent_map_bare]
    exact hlow.consistent
  · rw [← declared_map_bare, hbare, declared_map_bare, hlow.refines.declared,
      show q.parameters = lowered.parameters from hrebound.parameters, hlow.refines.parameters]
    exact h.wellFormed.parameters
  · rw [show q.parameters = lowered.parameters from hrebound.parameters, hlow.refines.parameters]
    exact h.wellFormed.names
  · rw [hqt] at hnone
    cases hnone
  · rw [hqt] at ht'
    cases ht'
    refine ⟨hs, fun i hi hp => ?_⟩
    obtain ⟨k, hk⟩ := List.mem_iff_getElem?.mp hi
    have hlen : q.instructions.length = lowered.instructions.length := hrebound.length
    have hlt : k < lowered.instructions.length := hlen ▸ (List.getElem?_eq_some_iff.mp hk).1
    obtain ⟨kernel, hget, hin, -⟩ := hrebound.bound k _ (List.getElem?_eq_getElem hlt)
    rw [show q.instructions[k]? = some i from hk] at hget
    obtain rfl := Option.some.inj hget
    obtain ⟨c, rfl, hserves⟩ := hin (List.mem_range.mpr hlt) hp
    refine ⟨c, rfl, (serves_congr fun r => ?_).mp hserves⟩
    have hops := congrArg (fun is => (is[r]?).map Instruction.op) hbare
    simp only [List.getElem?_map, Option.map_map] at hops
    exact hops.symm

/-- Every call preserves the invariant. -/
theorem Sound.step (h : Sound p) (hstep : Step p q) : Sound q := by
  cases hstep with
  | addParameter hq => exact h.addParameter hq
  | addInstruction hq => exact h.addInstruction hq
  | addLiteral hq => exact h.addLiteral hq
  | addLiteralRefused => exact h
  | compile hs hq => exact h.compile hs hq
  | compileRefused => exact h

theorem Reached.sound (h : Reached p) : Sound p := by
  induction h with
  | refl => exact sound_empty
  | tail _ hstep ih => exact ih.step hstep

/-! ## After compiling -/

/-- What a program that was compiled for a target can become. -/
structure Grown (t : Target) (p q : Program) : Prop where
  target : q.target = some t
  parameters : q.parameters = p.parameters
  instructions : ∃ added, q.instructions = p.instructions ++ added ∧
    ∀ i ∈ added, i.BoundLiteral t

theorem grown_refl (ht : p.target = some t) : Grown t p p :=
  ⟨ht, rfl, [], (List.append_nil _).symm, fun _ h => nomatch h⟩

theorem Grown.trans {r : Program} (h : Grown t p q) (h' : Grown t q r) : Grown t p r := by
  obtain ⟨-, hparams, added, hq, hadded⟩ := h
  obtain ⟨htarget, hparams', added', hr, hadded'⟩ := h'
  refine ⟨htarget, hparams'.trans hparams, added ++ added', ?_, ?_⟩
  · rw [hr, hq, List.append_assoc]
  · rw [List.forall_mem_append]
    exact ⟨hadded, hadded'⟩

/-- A call on a compiled program adds a bound constant or nothing. -/
theorem Step.grown (h : Step p q) (hp : Sound p) (ht : p.target = some t) : Grown t p q := by
  have hopen : ¬p.target = none := by
    rw [ht]
    exact fun hnone => nomatch hnone
  cases h with
  | @addParameter _ name s hq =>
    refine Turn.Always.of_leaves ?_ hq
    rcases addParameter_cases name s p with ⟨e, hrefused⟩ | ⟨hnone, -⟩
    · rw [hrefused]
      exact grown_refl ht
    · exact absurd hnone hopen
  | @addInstruction _ op inputs hq =>
    refine Turn.Always.of_leaves ?_ hq
    rcases addInstruction_cases op inputs p with hhalt | ⟨e, hrefused⟩ | ⟨s, hnone, -⟩
    · rw [hhalt]
      exact trivial
    · rw [hrefused]
      exact grown_refl ht
    · exact absurd hnone hopen
  | @addLiteral _ l r w w' hq =>
    obtain ⟨k, hi, hvalue⟩ := addLiteral_of_compiled ht (hp.bound t ht).1 l w
    rw [hvalue] at hq
    cases hq
    exact ⟨ht, rfl, [_], rfl, fun j hj => by rwa [List.mem_singleton.mp hj]⟩
  | addLiteralRefused => exact grown_refl ht
  | compile hs hq => exact absurd (compile_eq_value hq).1 hopen
  | compileRefused => exact grown_refl ht

theorem grown_of_reflTransGen (h : Relation.ReflTransGen Step p q) (hp : Sound p)
    (ht : p.target = some t) : Sound q ∧ Grown t p q := by
  induction h with
  | refl => exact ⟨hp, grown_refl ht⟩
  | tail _ hstep ih => exact ⟨ih.1.step hstep, ih.2.trans (hstep.grown ih.1 ih.2.target)⟩

/-- At every point of a history each instruction reads earlier ones and has the shape that is
inferred from theirs, the parameters are those that the instructions declare, each name once,
and kernels are bound to all other instructions or to none.  From compiling on, only bound
constants are added. -/
theorem reached_sound (h : Reached p) :
    (∀ (k : Nat) (i : Instruction), p.instructions[k]? = some i → (∀ r ∈ i.inputs, r < k) ∧
      ∃ shapes, shapesAt p.instructions i.inputs = some shapes ∧
        i.op.infer shapes = .value i.shape) ∧
    ((p.parameters.map Prod.fst).Nodup ∧ p.parameters.Perm (declared p.instructions) ∧
      ∀ i ∈ p.instructions, ∀ name s, i.op = .parameter name s → i.shape = s) ∧
    (p.target = none → ∀ i ∈ p.instructions, i.kernel = none) ∧
    ∀ t, p.target = some t →
      (∀ i ∈ p.instructions, i.isParameter = false →
        ∃ k, i.kernel = some k ∧ t.backend.Serves p.instructions i k) ∧
      ∀ q, Relation.ReflTransGen Step p q → q.target = some t ∧ q.parameters = p.parameters ∧
        ∃ added, q.instructions = p.instructions ++ added ∧ ∀ i ∈ added, i.BoundLiteral t := by
  have hsound := h.sound
  obtain ⟨⟨hconsistent, hparameters, hnames⟩, hunbound, hbound⟩ := hsound
  refine ⟨fun k i hi => ⟨hconsistent.inputs_lt hi, ?_⟩, ⟨hnames, hparameters, ?_⟩, hunbound,
    fun t ht => ⟨(hbound t ht).2, fun q hq => ?_⟩⟩
  · obtain ⟨shapes, hshapes, hinfers⟩ := hconsistent.infers hi
    exact ⟨shapes, hshapes, hinfers.infer_eq⟩
  · intro i hi name s hop
    obtain ⟨k, hk⟩ := List.mem_iff_getElem?.mp hi
    obtain ⟨shapes, -, hinfers⟩ := hconsistent.infers hk
    rw [hop] at hinfers
    cases hinfers
    rfl
  · obtain ⟨-, htarget, hparams, hadded⟩ := grown_of_reflTransGen hq h.sound ht
    exact ⟨htarget, hparams, hadded⟩

/-- Building a program is a history. -/
theorem Built.reached (h : Built p) : Reached p := by
  induction h with
  | empty => exact .refl
  | parameter _ hadd ih => exact ih.tail (.addParameter (Or.inl ⟨_, hadd⟩))
  | instruction _ _ hadd ih => exact ih.tail (.addInstruction (Or.inl ⟨_, hadd⟩))
  | literal _ _ hadd ih => exact ih.tail (.addLiteral hadd)

theorem reached_sound_twiceTransposed : ∃ q, Reached q ∧ q.target = some .host ∧
    (∀ i ∈ q.instructions, i.isParameter = false →
      ∃ k, i.kernel = some k ∧ Target.host.backend.Serves q.instructions i k) ∧
    ∀ r, Relation.ReflTransGen Step q r → r.target = some .host ∧ r.parameters = q.parameters ∧
      ∃ added, r.instructions = q.instructions ++ added ∧ ∀ i ∈ added, i.BoundLiteral .host := by
  obtain ⟨q, w, hq⟩ : ∃ q w, twiceTransposed.compile .host {} = .value q w := ⟨_, _, rfl⟩
  have hreached : Reached q := built_twiceTransposed.reached.tail (.compile (Or.inl rfl) hq)
  have htarget := (compile_eq_value hq).2.1
  exact ⟨q, hreached, htarget, (reached_sound hreached).2.2.2 .host htarget⟩

end Program
end TensorGraph
