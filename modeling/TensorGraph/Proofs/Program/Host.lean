/-
Evaluation on the host.

Every value of a run stores the tensor that its instruction means.  `run_host_denotes` is
what comes of it: a program that was built and compiled for the host evaluates to the tensor
that the source program denotes.
-/
import TensorGraph.Proofs.Program.Evaluate
import TensorGraph.Proofs.Program.Ready

namespace TensorGraph
namespace Program

variable {p q : Program} {t : Target} {w w' : World} {params : Parameters} {views : List View}
variable {is : List Instruction}

/-- Every value stores what its instruction means. -/
def HostHolds (is : List Instruction) (views : List View) (_ : Nat) (_ : World)
    (es : List (Nat × Argument)) : Prop :=
  ∀ r a, (r, a) ∈ es → ∃ i v, is[r]? = some i ∧ views[r]? = some v ∧ a.Stores i.shape v

theorem deviceBuffer?_of_stores {a : Argument} {s : Shape} {v : View} (h : a.Stores s v) :
    a.deviceBuffer? = none := by
  obtain ⟨-, b, hb, -⟩ := h
  rw [Argument.deviceBuffer?, hb]
  rfl

theorem retain_of_stores {a : Argument} {s : Shape} {v : View} (h : a.Stores s v) :
    World.retain a = pure () := by
  unfold World.retain
  rw [deviceBuffer?_of_stores h]

theorem HostHolds.cons {es : List (Nat × Argument)} {k : Nat} {i : Instruction} {v : View}
    {a : Argument} (h : HostHolds is views k w es) (hi : is[k]? = some i)
    (hv : views[k]? = some v) (ha : a.Stores i.shape v) :
    HostHolds is views (k + 1) w' ((k, a) :: es) := by
  intro r b hmem
  rcases List.mem_cons.mp hmem with heq | hmem
  · cases heq
    exact ⟨i, v, hi, hv, ha⟩
  · exact h r b hmem

theorem HostHolds.stored {es : List (Nat × Argument)} {k : Nat} {inputs : List Nat}
    {args : List Argument} {shapes : List Shape} {us : List View}
    (h : HostHolds is views k w es) (hargs : List.Forall₂ (fun r a => (r, a) ∈ es) inputs args)
    (hshapes : shapesAt is inputs = some shapes)
    (hus : (inputs.mapM fun r => views[r]?) = some us) : Kernel.Stored args shapes us := by
  rw [shapesAt_eq_some] at hshapes
  rw [mapM_eq_some] at hus
  induction hargs generalizing shapes us with
  | nil =>
    obtain _ | _ := hshapes
    obtain _ | _ := hus
    exact .nil
  | cons hr _ ih =>
    obtain _ | ⟨⟨i, hi, rfl⟩, hshapes⟩ := hshapes
    obtain _ | ⟨hu, hus⟩ := hus
    obtain ⟨j, v, hj, hv, hstores⟩ := h _ _ hr
    rw [hi] at hj
    rw [hu] at hv
    cases hj
    cases hv
    exact .cons hstores (ih hshapes hus)

/-- The host kernels back the values of a run. -/
theorem backs_host (hq : Ready .host q) (hhost : HostParameters params)
    (hcheck : checkParameters params q.parameters = .value ())
    (hviews : meanings (environment params) q.instructions = some views)
    (hrecorded : Recorded q.instructions views) :
    Backs params q.instructions (Fits q.instructions) (HostHolds q.instructions views) where
  perm hp h r a hmem := h r a (hp.mem_iff.mpr hmem)
  note _ _ h := h
  release {k w r a es} h := by
    obtain ⟨i, v, -, -, hstores⟩ := h r a List.mem_cons_self
    rw [World.release_of_deviceBuffer?_eq_none (deviceBuffer?_of_stores hstores)]
    exact fun r' a' hmem => h r' a' (List.mem_cons_of_mem _ hmem)
  parameter {k w i name s es} hi hop h := by
    obtain ⟨shapes, inputs, v, -, hinfers, -, -, hv, hk, -⟩ := hq.instruction hviews hrecorded hi
    have hmem : i ∈ q.instructions := List.mem_of_getElem? hi
    have hshape : i.shape = s := by
      rw [hop] at hinfers
      cases hinfers
      rfl
    have hdeclared : (name, s) ∈ declared q.instructions := mem_declared.mpr ⟨i, hmem, hop⟩
    obtain ⟨a, v', ha, hv', hstores⟩ := exists_argument hhost hcheck (hq.parameters name s hdeclared)
      (hshape ▸ hq.populated i hmem)
    rw [Instruction.denote_of_parameter hop, hv'] at hv
    cases hv
    refine ⟨a, ha, ?_⟩
    rw [retain_of_stores hstores]
    show HostHolds _ _ (k + 1) w ((k, a) :: es)
    exact h.cons hi hk (hshape ▸ hstores)
  compute {k w i args es} hi hp h hargs := by
    obtain ⟨shapes, inputs, v, hshapes, hinfers, hinputs, -, hv, hk, hpop, hlaid⟩ :=
      hq.instruction hviews hrecorded hi
    have hmem : i ∈ q.instructions := List.mem_of_getElem? hi
    obtain ⟨c, hc, htransfer, rfl⟩ := hq.kernels i hmem hp
    refine ⟨_, hc, ?_⟩
    rw [Instruction.denote_of_not_isParameter hp] at hv
    have hfits : Fits q.instructions → ∀ s ∈ shapes, s.Addressable := fun hf =>
      forall_of_shapesAt hshapes fun j hj => (hf j hj).1
    refine Action.ends_bind (P := fun _ _ => True) trivial fun key w₁ _ => ?_
    refine Action.ends_bind (P := fun a _ => a.Stores i.shape v) (Action.ends_ofOutcome
      (Kernel.onHost_ends key hinfers hp htransfer (h.stored hargs hshapes hinputs) hpop
        (hq.populated i hmem) (hq.literals i hmem) hlaid
        (fun hf => ⟨(hf i hmem).1, (hf i hmem).2.2 shapes hshapes⟩)
        (fun hc hf => (hf i hmem).2.1 hc) hfits hv)) ?_
    intro a w₂ ha
    rw [retain_of_stores ha]
    show HostHolds _ _ (k + 1) w₂ ((k, a) :: es)
    exact h.cons hi hk ha

/-- A program that is ready for the host evaluates to what it denotes. -/
theorem Ready.run_host_ends {v : View} (hq : Ready .host q) (hhost : HostParameters params)
    (hcheck : checkParameters params q.parameters = .value ())
    (hsupplies : Supplies (environment params) q)
    (hv : q.meaning (environment params) = some v) (w : World) :
    (q.run params w).Ends (Fits q.instructions) fun a _ =>
      ∃ i ∈ q.instructions, q.last? = some i ∧ a.Stores i.shape v := by
  obtain ⟨views, hviews, hrecorded⟩ := hq.consistent.exists_meanings
    fun name s hmem => hsupplies name s (hq.parameters name s hmem)
  obtain ⟨views', hviews', hlast⟩ := meaning_eq_some.mp hv
  rw [hviews] at hviews'
  cases hviews'
  have hlen := length_meanings hviews
  have hne := ne_nil_of_meanings hviews hlast
  have hcompiled : q.isCompiled = true := by
    rw [isCompiled, hq.target]
    rfl
  have hbacks := backs_host hq hhost hcheck hviews hrecorded
  refine Turn.Ends.mono (hbacks.run_ends hq.consistent hne hcompiled hcheck
    (w := w) fun _ _ h => nomatch h) ?_
  intro a w' h
  obtain ⟨i, v', hi, hv', hstores⟩ := h (q.size - 1) a List.mem_cons_self
  rw [List.getLast?_eq_getElem?, hlen, show q.instructions.length = q.size from rfl, hv'] at hlast
  cases hlast
  refine ⟨i, List.mem_of_getElem? hi, ?_, hstores⟩
  rw [last?, List.getLast?_eq_getElem?]
  exact hi

/-- Compiling a built program for the host and evaluating it gives the tensor that the program
denotes, unless a size leaves the range of words.  Listing its elements takes memory for them. -/
theorem run_host_denotes (hb : Built p) (hne : p.instructions ≠ [])
    (hp : ∀ i ∈ p.instructions, i.shape.Populated) (hcompile : p.compile .host w = .value q w')
    (hhost : HostParameters params) (hcheck : checkParameters params p.parameters = .value ())
    (start : World) :
    ∃ v, p.meaning (environment params) = some v ∧
      (q.run params start).Ends (Fits q.instructions) fun a _ =>
        p.last?.map Instruction.shape = some a.shape ∧
          (a.elementsAs a.shape.dtype).Ends (Fits q.instructions ∧ a.shape.Listable)
            (· = v.elements) := by
  obtain ⟨hready, hparams, hshape, hdenotes⟩ := ready_of_compile hb hp (Or.inl rfl) hcompile
  have hsupplies : Supplies (environment params) p :=
    supplies_of_checkParameters hhost hcheck fun _ _ hmem => hb.unbound.wellFormed.populated hp hmem
  obtain ⟨v, -, hv, -, -⟩ := hb.unbound.wellFormed.exists_meaning hsupplies hne
  refine ⟨v, hv, ?_⟩
  rw [← hparams] at hcheck
  have hsupplies' : Supplies (environment params) q := fun name s hmem =>
    hsupplies name s (hparams ▸ hmem)
  refine Turn.Ends.mono (hready.run_host_ends hhost hcheck hsupplies' (hdenotes _ v hv) start) ?_
  rintro a w'' ⟨i, hi, hlast, hstores⟩
  rw [hstores.shape]
  refine ⟨?_, hstores.elementsAs_ends (fun hf => (hf.1 i hi).1) And.right⟩
  rw [← hshape, hlast]
  rfl

def oneToSix : Argument :=
  ⟨matrix, some (.host (.ofBytes 0 (Bytes.ofWords 4 [0x3f800000, 0x40000000, 0x40400000,
    0x40800000, 0x40a00000, 0x40c00000])))⟩

theorem hostParameters_oneToSix : HostParameters [("x", oneToSix)] := by
  intro name a ha
  rw [List.lookup_cons] at ha
  split at ha
  · cases ha
    exact ⟨_, rfl, rfl⟩
  · cases ha

theorem populated_twiceTransposed : ∀ i ∈ twiceTransposed.instructions, i.shape.Populated := by
  unfold Shape.Populated
  decide

theorem run_host_twiceTransposed : ∃ q w v a w', twiceTransposed.compile .host {} = .value q w ∧
    twiceTransposed.meaning (environment [("x", oneToSix)]) = some v ∧
      q.run [("x", oneToSix)] w = .value a w' ∧ a.elementsAs a.shape.dtype = .value v.elements := by
  obtain ⟨q, w, hq, hfits⟩ : ∃ q w, twiceTransposed.compile .host {} = .value q w ∧
      Fits q.instructions := ⟨_, _, rfl, fits_of_all rfl⟩
  obtain ⟨v, hv, hends⟩ := run_host_denotes built_twiceTransposed (List.cons_ne_nil _ _)
    populated_twiceTransposed hq hostParameters_oneToSix rfl w
  obtain ⟨a, w', hrun, hshape, helements⟩ := hends.exists_value_of_fits hfits
  have hlist : matrix.Listable := by decide
  obtain ⟨_, hvalue, rfl⟩ :=
    helements.eq_value_of_fits ⟨hfits, (Option.some.inj hshape : matrix = a.shape) ▸ hlist⟩
  exact ⟨q, w, v, a, w', hq, hv, hrun, hvalue⟩

end Program
end TensorGraph
