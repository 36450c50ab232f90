/-
Evaluation on the host does not go wrong.

A program that was compiled for the host can still be extended with constants, and then has all
that a compiled program is sure of (`Ready.extended`).  Its run is never refused: whatever the
kernels check was already checked when shapes were inferred.  `run_host_safe` says so of the
whole run and of each value on the way, which has the shape that is recorded for it.
-/
import TensorGraph.Proofs.Program.Host

namespace TensorGraph
namespace Program

variable {p q r : Program} {t : Target} {w w' : World} {params : Parameters} {views : List View}
variable {k : Nat} {i : Instruction}

/-! ## Constants added later -/

/-- The programs that a program becomes when constants without empty axes are added to it. -/
inductive Extended (q : Program) : Program → Prop
  | refl : Extended q q
  | literal {r r' : Program} {l : Literal} {position : Nat} {w w' : World} :
      Extended q r → l.Made → l.shape.Populated →
      r.addLiteral l w = .value (r', position) w' → Extended q r'

theorem Ready.concat (h : Ready t q) (hi : i.BoundLiteral t) (hp : i.shape.Populated)
    (hmade : ∀ l, i.op = .literal l → l.Made) :
    Ready t { q with instructions := q.instructions ++ [i] } := by
  obtain ⟨l, c, rfl, hserves⟩ := hi
  refine ⟨h.target, consistent_concat.mpr ⟨h.consistent, [], rfl, rfl⟩,
    h.laid.concat fun hr => (nomatch hr), ?_, ?_, ?_, ?_⟩
  · rw [List.forall_mem_append, List.forall_mem_singleton]
    exact ⟨h.populated, hp⟩
  · rw [List.forall_mem_append, List.forall_mem_singleton]
    exact ⟨h.literals, hmade⟩
  · intro name s hd
    rw [declared_append, List.mem_append] at hd
    exact hd.elim (h.parameters name s) fun hd => nomatch hd
  · rw [List.forall_mem_append, List.forall_mem_singleton]
    constructor
    · intro j hj hparam
      obtain ⟨m, hm⟩ := List.mem_iff_getElem?.mp hj
      obtain ⟨c', hc', hs⟩ := h.kernels j hj hparam
      refine ⟨c', hc', (serves_append (fun n hn => ?_) _).mpr hs⟩
      exact (h.consistent.inputs_lt hm n hn).trans (List.getElem?_eq_some_iff.mp hm).1
    · exact fun _ => ⟨c, rfl, (serves_append (fun n hn => absurd hn List.not_mem_nil) _).mpr hserves⟩

/-- What a compiled program is sure of stays when constants are added. -/
theorem Ready.extended (h : Ready t q) (hs : t.Stock) (hext : Extended q r) :
    Ready t r ∧ r.parameters = q.parameters ∧ ∃ added, r.instructions = q.instructions ++ added := by
  induction hext with
  | refl => exact ⟨h, rfl, [], (List.append_nil _).symm⟩
  | @literal r r' l position w w' _ hl hp hadd ih =>
    obtain ⟨hr, hparams, added, hadded⟩ := ih
    obtain ⟨c, hi, hvalue⟩ := addLiteral_of_compiled hr.target hs l w
    rw [hvalue] at hadd
    cases hadd
    refine ⟨hr.concat hi hp fun l' heq => ?_, hparams,
      added ++ [⟨.literal l, [], l.shape, some c⟩], ?_⟩
    · cases heq
      exact hl
    · rw [hadded, List.append_assoc]

/-! ## Values on the way -/

/-- A run of instructions begins with the run of the first of them. -/
theorem runFrom_append (params : Parameters) (last : List (Option Nat)) (output position : Nat)
    (values : Values) (is js : List Instruction) :
    runFrom params last output position values (is ++ js) =
      runFrom params last output position values is >>= fun values =>
        runFrom params last output (position + is.length) values js := by
  induction is generalizing position values with
  | nil => rfl
  | cons i is ih =>
    rw [List.cons_append, runFrom_cons, runFrom_cons, bind_assoc]
    refine congrArg _ (funext fun values => ?_)
    rw [ih, List.length_cons, Nat.add_assoc, Nat.add_comm 1]

/-- The value that a run computes for an instruction, when it gets there. -/
def valueAt (p : Program) (params : Parameters) (k : Nat) (i : Instruction) :
    Action World Argument := do
  let last ← lastUses p
  let values ← runFrom params last (p.size - 1) 0 (List.replicate p.size none)
    (p.instructions.take k)
  instructionValue params k i values

theorem Backs.valueAt_ends {fits : Prop} {Holds : Nat → World → List (Nat × Argument) → Prop}
    (hb : Backs params p.instructions fits Holds) (hc : Consistent p.instructions)
    (hi : p.instructions[k]? = some i) (h : Holds 0 w []) :
    (p.valueAt params k i w).Ends fits fun a w' => ∃ es, Holds (k + 1) w' ((k, a) :: es) := by
  obtain ⟨last, hlast, hlen, hl⟩ := exists_lastUses hc
  have hk : k < p.instructions.length := (List.getElem?_eq_some_iff.mp hi).1
  have ho : p.size - 1 + 1 = p.instructions.length := Nat.sub_add_cancel (Nat.zero_lt_of_lt hk)
  have htake : (p.instructions.take k).length = k := List.length_take_of_le (Nat.le_of_lt hk)
  have hstart : Holds ([] : List Instruction).length w (kept (List.replicate p.size none)) := by
    rw [kept_replicate]
    exact h
  unfold valueAt
  rw [Action.bind_lift_of_some hlast]
  refine Action.ends_bind (hb.runFrom_ends hl hlen hc ho (List.take_append_drop k _).symm
    (filled_zero _ _ _) hstart) ?_
  rw [List.nil_append, htake]
  rintro values w' ⟨hf', h'⟩
  exact (hb.instructionValue_ends hi h' (hf'.exists_input hl hc hi)).mono fun a w'' h'' => ⟨_, h''⟩

/-! ## Safety -/

/-- A program that was compiled for the host, and perhaps extended with constants, is evaluated
without a refusal, and all values on the way have the shapes that are recorded for them, unless a
size leaves the range of words. -/
theorem run_host_safe (hb : Built p) (hne : p.instructions ≠ [])
    (hp : ∀ i ∈ p.instructions, i.shape.Populated) (hcompile : p.compile .host w = .value q w')
    (hext : Extended q r) (hhost : HostParameters params)
    (hcheck : checkParameters params r.parameters = .value ()) (start : World) :
    ((r.run params start).Ends (Fits r.instructions) fun a _ =>
      r.last?.map Instruction.shape = some a.shape) ∧
    ∀ k i, r.instructions[k]? = some i →
      (r.valueAt params k i start).Ends (Fits r.instructions) fun a _ => a.shape = i.shape := by
  obtain ⟨hready, hparams, hshape, -⟩ := ready_of_compile hb hp (Or.inl rfl) hcompile
  obtain ⟨hr, hparams', added, hadded⟩ := hready.extended (Or.inl rfl) hext
  have hsupplies : Supplies (environment params) r := by
    refine supplies_of_checkParameters hhost hcheck fun name s hmem => ?_
    rw [hparams', hparams] at hmem
    exact hb.unbound.wellFormed.populated hp hmem
  obtain ⟨views, hviews, hrecorded⟩ := hr.consistent.exists_meanings
    fun name s hmem => hsupplies name s (hr.parameters name s hmem)
  have hbacks := backs_host hr hhost hcheck hviews hrecorded
  have hempty : HostHolds r.instructions views 0 start [] := fun _ _ h => nomatch h
  have hne' : r.instructions ≠ [] := by
    rw [hadded]
    refine List.append_ne_nil_of_left_ne_nil (fun hnil => hne ?_) added
    rw [last?, last?, hnil, List.getLast?_nil, Option.map_none, eq_comm, Option.map_eq_none_iff,
      List.getLast?_eq_none_iff] at hshape
    exact hshape
  have hcompiled : r.isCompiled = true := by
    rw [isCompiled, hr.target]
    rfl
  refine ⟨(hbacks.run_ends hr.consistent hne' hcompiled hcheck hempty).mono ?_,
    fun k i hi => (hbacks.valueAt_ends hr.consistent hi hempty).mono ?_⟩
  · intro a w'' h
    obtain ⟨i, v, hi, -, hstores⟩ := h _ _ List.mem_cons_self
    rw [last?, List.getLast?_eq_getElem?, show r.instructions.length = r.size from rfl, hi,
      hstores.shape]
    rfl
  · rintro a w'' ⟨es, h⟩
    obtain ⟨i', v, hi', -, hstores⟩ := h _ _ List.mem_cons_self
    rw [hi] at hi'
    cases hi'
    exact hstores.shape

def zeros : Literal := ⟨matrix, .ofBytes 0 (Bytes.ofWords 4 [0, 0, 0, 0, 0, 0])⟩

theorem made_zeros : zeros.Made :=
  @Literal.Made.ofElements 0 matrix .float [0, 0, 0, 0, 0, 0] zeros rfl

theorem populated_zeros : zeros.shape.Populated := by
  unfold Shape.Populated
  decide

/-- A constant that is added behind a compiled program becomes its output. -/
theorem run_host_safe_twiceTransposed : ∃ q w r, twiceTransposed.compile .host {} = .value q w ∧
    Extended q r ∧ r.size = 5 ∧
    (∃ a w', r.run [("x", oneToSix)] w = .value a w' ∧ a.shape = matrix) ∧
    ∀ k i, r.instructions[k]? = some i →
      ∃ a w', r.valueAt [("x", oneToSix)] k i w = .value a w' ∧ a.shape = i.shape := by
  obtain ⟨q, w, r, hq, hadd, hfits, hparams, hsize, hlast⟩ : ∃ q w r,
      twiceTransposed.compile .host {} = .value q w ∧ q.addLiteral zeros w = .value (r, 4) w ∧
      Fits r.instructions ∧ checkParameters [("x", oneToSix)] r.parameters = .value () ∧
      r.size = 5 ∧ r.last?.map Instruction.shape = some matrix :=
    ⟨_, _, _, rfl, rfl, fits_of_all rfl, rfl, rfl, rfl⟩
  have hext : Extended q r := .literal .refl made_zeros populated_zeros hadd
  obtain ⟨hrun, hvalues⟩ := run_host_safe built_twiceTransposed (List.cons_ne_nil _ _)
    populated_twiceTransposed hq hext hostParameters_oneToSix hparams w
  obtain ⟨a, w', hvalue, hshape⟩ := hrun.exists_value_of_fits hfits
  rw [hlast] at hshape
  exact ⟨q, w, r, hq, hext, hsize, ⟨a, w', hvalue, (Option.some.inj hshape).symm⟩,
    fun k i hi => (hvalues k i hi).exists_value_of_fits hfits⟩

end Program
end TensorGraph
