/-
Programs that can be evaluated.

`Ready` collects what compiling a built program for the host or a device makes sure of, and
`ready_of_compile` says that it does, and that the program that results has the parameters,
the recorded output shape and the meaning of the source.  `Fits` is when no size on the way
leaves the range of words.
-/
import TensorGraph.Proofs.Kernel.OnHost
import TensorGraph.Proofs.Program.History

namespace TensorGraph
namespace Program

variable {p q : Program} {t : Target} {w w' : World} {is : List Instruction}

/-- Whether every tensor can be addressed, memory holds those that are computed and every
convolution has room for its padding. -/
def Fits (is : List Instruction) : Prop :=
  ∀ i ∈ is, i.shape.Addressable ∧ (i.op.isCompute = true → i.shape.Holdable) ∧
    ∀ shapes, shapesAt is i.inputs = some shapes → i.op.Roomy shapes

/-- Whether memory holds the tensor of an instruction that takes no other room. -/
def fitsAlone (i : Instruction) : Bool :=
  i.shape.isAddressable i.shape.dtype.size && decide i.shape.Holdable && i.op.name != "convolution"

/-- Only convolutions need more room than their tensors take. -/
theorem fits_of_all (h : is.all fitsAlone = true) : Fits is := by
  intro i hi
  have hall := List.all_eq_true.mp h i hi
  rw [fitsAlone, Bool.and_eq_true, Bool.and_eq_true] at hall
  refine ⟨hall.1.1, fun _ => of_decide_eq_true hall.1.2, fun shapes _ => ?_⟩
  obtain ⟨op, inputs, s, kernel⟩ := i
  cases op with
  | convolution c => exact absurd hall.2 Bool.false_ne_true
  | _ => exact trivial

structure Ready (t : Target) (q : Program) : Prop where
  target : q.target = some t
  consistent : Consistent q.instructions
  laid : Laid q.instructions
  populated : ∀ i ∈ q.instructions, i.shape.Populated
  literals : ∀ i ∈ q.instructions, ∀ l, i.op = .literal l → l.Made
  parameters : ∀ name s, (name, s) ∈ declared q.instructions → (name, s) ∈ q.parameters
  kernels : ∀ i ∈ q.instructions, i.isParameter = false →
    ∃ k, i.kernel = some k ∧ t.backend.Serves q.instructions i k

theorem laid_map_bare : Laid (is.map bare) ↔ Laid is := readsRowMajor_map_bare

theorem meaning_congr (h : q.instructions.map bare = p.instructions.map bare)
    (env : String → Option View) : q.meaning env = p.meaning env := by
  have hmeans : meanings env q.instructions = meanings env p.instructions := by
    rw [← meanings_map_bare, h, meanings_map_bare]
  show (meanings env q.instructions >>= _) = meanings env p.instructions >>= _
  rw [hmeans]

theorem last?_congr (h : q.instructions.map bare = p.instructions.map bare) :
    q.last?.map Instruction.shape = p.last?.map Instruction.shape := by
  have hlast := congrArg (fun is => is.getLast?.map Instruction.shape) h
  simp only [List.getLast?_map, Option.map_map] at hlast
  exact hlast

/-- Compiling a built program for the host or a device. -/
theorem ready_of_compile (hb : Built p) (hp : ∀ i ∈ p.instructions, i.shape.Populated)
    (hs : t.Stock) (h : p.compile t w = .value q w') :
    Ready t q ∧ q.parameters = p.parameters ∧
      q.last?.map Instruction.shape = p.last?.map Instruction.shape ∧
      ∀ env v, p.meaning env = some v → q.meaning env = some v := by
  obtain ⟨hwell, hopen, -, hmade⟩ := hb.unbound
  have hsound := hb.reached.sound.compile hs h
  obtain ⟨-, htarget, lowered, hpasses, hrebound⟩ := compile_eq_value h
  obtain ⟨copies, hlow, hcopies⟩ := lowered_of_stock hs hwell.consistent hopen hpasses
  have hbare : q.instructions.map bare = lowered.instructions.map bare := hrebound.bare_eq
  have hparams : q.parameters = p.parameters :=
    Eq.trans (show q.parameters = lowered.parameters from hrebound.parameters)
      hlow.refines.parameters
  have horigin : ∀ i ∈ q.instructions, ∃ j ∈ lowered.instructions, bare i = bare j := by
    intro i hi
    have hmem : bare i ∈ lowered.instructions.map bare := hbare ▸ List.mem_map_of_mem hi
    obtain ⟨j, hj, heq⟩ := List.mem_map.mp hmem
    exact ⟨j, hj, heq.symm⟩
  refine ⟨⟨htarget, hsound.wellFormed.consistent, ?_, fun i hi => ?_, fun i hi l hl => ?_,
    fun name s hd => hsound.wellFormed.parameters.mem_iff.mpr hd, (hsound.bound t htarget).2⟩,
    hparams, ?_, fun env v hv => ?_⟩
  · rw [← laid_map_bare, hbare, laid_map_bare]
    exact hlow.laid
  · obtain ⟨j, hj, heq⟩ := horigin i hi
    obtain ⟨i', hi', hl⟩ := hlow.refines.lens j hj
    have hshape : (bare i).shape = (bare j).shape := congrArg Instruction.shape heq
    intro n hn
    exact hp i' hi' n (by rwa [← hl, ← show i.shape = j.shape from hshape])
  · obtain ⟨j, hj, heq⟩ := horigin i hi
    have hop : (bare i).op = (bare j).op := congrArg Instruction.op heq
    have hop' : j.op = .literal l := hop.symm.trans hl
    rcases hlow.refines.origin j hj with ⟨i', hi', heq', -⟩ | ⟨hmem, -⟩
    · exact hmade i' hi' l (heq'.symm.trans hop')
    · have hcopy := hcopies j.op hmem
      rw [hop'] at hcopy
      cases hcopy
  · exact (last?_congr hbare).trans hlow.refines.shape
  · rw [meaning_congr (p := lowered) hbare]
    exact hlow.refines.meaning env v hv

/-! ## Parameters -/

end Program

namespace Argument

/-- Whether the argument is a shape over a host buffer, as `make` puts it there. -/
def OnHost (a : Argument) : Prop :=
  ∃ b, a.storage = some (.host b) ∧ make a.shape (.host b) = .value a

theorem OnHost.stores {a : Argument} (h : a.OnHost) (hp : a.shape.Populated) :
    ∃ v, a.tensor? = some v ∧ a.Stores a.shape v := by
  obtain ⟨b, hb, hmake⟩ := h
  unfold make at hmake
  obtain ⟨n, hn, hmake⟩ := Outcome.bind_eq_value.mp hmake
  obtain ⟨_, hsize, hmake⟩ := Outcome.bind_eq_value.mp hmake
  obtain ⟨_, hplace, -⟩ := Outcome.bind_eq_value.mp hmake
  have hn' := ((Shape.storageBytes_eq_some hp).mp (Outcome.ofOption_eq_value.mp hn)).1
  have hle : n ≤ b.bytes.size := Outcome.require_eq_value.mp hsize
  obtain ⟨hzero, halign⟩ := Outcome.require_eq_value.mp hplace
  refine ⟨View.ofBytes a.shape a.shape.dtype.size b.bytes, ?_, rfl, b, hb, hzero, halign, ?_,
    .refl _⟩
  · unfold tensor?
    rw [hb]
  · rwa [← hn']

end Argument

namespace Program

variable {p q : Program} {t : Target} {params : Parameters} {views : List View} {k : Nat}
variable {i : Instruction}

def HostParameters (params : Parameters) : Prop :=
  ∀ name a, params.lookup name = some a → a.OnHost

theorem checkParameters_eq_value {declared : List (String × Shape)} {u : Unit}
    (h : checkParameters params declared = .value u) {name : String} {s : Shape}
    (hmem : (name, s) ∈ declared) :
    ∃ a, params.lookup name = some a ∧ a.shape = s ∧ a.isAbsent = false := by
  induction declared with
  | nil => cases hmem
  | cons entry rest ih =>
    obtain ⟨n, t⟩ := entry
    unfold checkParameters at h
    cases ha : params.lookup n with
    | none =>
      rw [ha] at h
      cases h
    | some a =>
      rw [ha] at h
      obtain ⟨_, hshape, h⟩ := Outcome.bind_eq_value.mp h
      obtain ⟨_, hpresent, h⟩ := Outcome.bind_eq_value.mp h
      rcases List.mem_cons.mp hmem with heq | hmem
      · cases heq
        exact ⟨a, ha, Outcome.require_eq_value.mp hshape, Outcome.require_eq_value.mp hpresent⟩
      · exact ih h hmem

/-- A declared parameter has an argument that stores the tensor of its environment. -/
theorem exists_argument (hhost : HostParameters params)
    (hcheck : checkParameters params p.parameters = .value ()) {name : String} {s : Shape}
    (hmem : (name, s) ∈ p.parameters) (hp : s.Populated) :
    ∃ a v, params.lookup name = some a ∧ environment params name = some v ∧ a.Stores s v := by
  obtain ⟨a, ha, rfl, -⟩ := checkParameters_eq_value hcheck hmem
  obtain ⟨v, hv, hstores⟩ := (hhost name a ha).stores hp
  refine ⟨a, v, ha, ?_, hstores⟩
  rw [environment, ha]
  exact hv

theorem lens_of_stores {a : Argument} {s : Shape} {v : View} (h : a.Stores s v) :
    v.lens = s.lens := by
  obtain ⟨-, b, -, -, -, -, hagrees⟩ := h
  exact hagrees.1.symm

theorem WellFormed.populated (h : WellFormed p) (hp : ∀ i ∈ p.instructions, i.shape.Populated)
    {name : String} {s : Shape} (hmem : (name, s) ∈ p.parameters) : s.Populated := by
  obtain ⟨i, hi, hop⟩ := mem_declared.mp (h.parameters.mem_iff.mp hmem)
  obtain ⟨k, hk⟩ := List.mem_iff_getElem?.mp hi
  obtain ⟨shapes, -, hinfers⟩ := h.consistent.infers hk
  exact hinfers.shape_of_parameter hop ▸ hp i hi

theorem supplies_of_checkParameters (hhost : HostParameters params)
    (hcheck : checkParameters params p.parameters = .value ())
    (hp : ∀ name s, (name, s) ∈ p.parameters → s.Populated) :
    Supplies (environment params) p := by
  intro name s hmem
  obtain ⟨a, v, -, hv, hstores⟩ := exists_argument hhost hcheck hmem (hp name s hmem)
  exact ⟨v, hv, lens_of_stores hstores⟩

theorem forall_of_shapesAt {is : List Instruction} {inputs : List Nat} {shapes : List Shape}
    {P : Shape → Prop} (h : shapesAt is inputs = some shapes) (hall : ∀ i ∈ is, P i.shape) :
    ∀ s ∈ shapes, P s := by
  intro s hs
  obtain ⟨r, -, j, hj, rfl⟩ := exists_of_mem_shapesAt h hs
  exact hall j (List.mem_of_getElem? hj)

theorem Ready.instruction {env : String → Option View} (h : Ready t q)
    (hviews : meanings env q.instructions = some views) (hrecorded : Recorded q.instructions views)
    (hi : q.instructions[k]? = some i) :
    ∃ shapes inputs v, shapesAt q.instructions i.inputs = some shapes ∧
      Operator.Infers i.op shapes i.shape ∧ (i.inputs.mapM fun r => views[r]?) = some inputs ∧
      View.Shaped shapes inputs ∧ i.denote env inputs = some v ∧ views[k]? = some v ∧
      (∀ s ∈ shapes, s.Populated) ∧
      (isReshape i.op = true → ∀ s ∈ shapes, s.isStandard = some true) := by
  obtain ⟨shapes, hshapes, hinfers⟩ := h.consistent.infers hi
  obtain ⟨inputs, v, hinputs, hv, hk⟩ := denote_of_meanings h.consistent hviews hi
  obtain ⟨inputs', hinputs', hshaped⟩ := hrecorded.shaped hshapes
  rw [hinputs] at hinputs'
  cases hinputs'
  exact ⟨shapes, inputs, v, hshapes, hinfers, hinputs, hshaped, hv, hk,
    forall_of_shapesAt hshapes h.populated,
    fun hr => (forall_standardAt_iff hshapes).mp (h.laid i (List.mem_of_getElem? hi) hr)⟩

end Program
end TensorGraph
