/-
What the result of a run shares its storage with.

A value is as new as its kernel makes it.  A view keeps the storage of what it reads; a parameter,
a constant and the copy of a constant on a device are handed on as they are, and these are the
sources; everything else is put into storage that the world hands out for it.  `Views` follows the
views back from an instruction, so the result of a run shares storage with an argument that was
there before just if a source that the views lead to does: `shares_iff_of_run`.
-/
import TensorGraph.Proofs.Crossing.Fresh
import TensorGraph.Proofs.Kernel.Layout
import TensorGraph.Proofs.Program.Location

namespace TensorGraph

open World (Onward onward_bind onward_pure onward_lift onward_halt onward_refuse)

variable {v w w' u : World} {id : DeviceId} {a b c : Argument} {args : List Argument} {s : Shape}

theorem Argument.sharesStorage_congr (h : a.storage = b.storage) (c : Argument) :
    a.sharesStorage c = b.sharesStorage c := by
  unfold sharesStorage
  rw [h]

/-- The argument of a constant, or the copy that was made of one when the program was compiled. -/
def Instruction.constant? (i : Instruction) : Option Argument :=
  match i.op, i.kernel with
  | .literal l, _ => some (.ofLiteral l)
  | .hostToDevice, some (.resident b) => some b
  | _, _ => none

/-! ## Kernels -/

namespace BoundKernel

theorem onward_compute (k : BoundKernel) (s : Shape) (args : List Argument) :
    Onward (k.compute s args) := by
  have hretain : ∀ a, Onward (do World.retain a; return a) := fun a =>
    onward_bind (World.onward_retain a) fun _ => onward_pure a
  cases k with
  | host op => exact onward_bind World.onward_freshKey fun key =>
      onward_bind (onward_lift _) fun a => hretain a
  | literal l => exact onward_pure _
  | resident a => exact hretain a
  | upload id =>
    cases args with
    | nil => exact onward_halt
    | cons a rest => exact World.onward_toDevice id a
  | download =>
    cases args with
    | nil => exact onward_halt
    | cons a rest => exact World.onward_toHost a
  | view name =>
    cases args with
    | nil => exact onward_halt
    | cons a rest => exact onward_bind (onward_lift _) fun b => hretain b
  | launch op id =>
    have hlaunch : ∀ result operands output,
        Onward (do World.onDevice id (Device.launch op output operands); return result) :=
      fun result operands output => onward_bind
        (World.onward_onDevice (fun d => d.next_launch op output operands) id) fun _ =>
          onward_pure (result : Argument)
    refine onward_bind (onward_lift _) fun size => onward_bind (World.onward_allocate id size) ?_
    refine fun b => World.onward_onRefusal ?_ (World.onward_releaseBuffer b)
    rw [Action.mapM_lift]
    exact onward_bind (onward_lift _) fun result => onward_bind (onward_lift _) fun operands =>
      onward_bind (onward_lift _) fun output => hlaunch result operands output

/-- What is computed on the host is put into a buffer of its own. -/
theorem unshared_host {op : Operator} (hop : op.isCompute = true) (hc : w.Knows c)
    (h : (host op).compute s args w = .value a w') : a.sharesStorage c = false := by
  obtain ⟨hr, -⟩ := host_eq_value h
  refine Kernel.not_sharesStorage_of_onHost hop hr fun b hb => ?_
  unfold World.Knows at hc
  rw [hb] at hc
  exact Nat.ne_of_lt hc

/-- What is launched is put into a buffer of its own. -/
theorem unshared_launch {op : Operator} (hc : w.Knows c)
    (h : (launch op id).compute s args w = .value a w') : a.sharesStorage c = false := by
  obtain ⟨size, b, w₁, operands, target, -, hb, hmake, -⟩ := launch_eq_value h
  rw [Argument.shape_of_make hmake]
  exact hc.unshared_allocate hb

end BoundKernel

namespace Program

variable {p q r : Program} {params : Parameters} {values values' : Values} {t : Target}
variable {is rest : List Instruction} {i j : Instruction} {last : List (Option Nat)}
variable {k m n position output : Nat} {P : Nat → Argument → Prop} {offload : Bool}

/-! ## Runs lead to later worlds -/

theorem onward_instructionValue (params : Parameters) (k : Nat) (i : Instruction)
    (values : Values) : Onward (instructionValue params k i values) := by
  by_cases hp : i.isParameter = true
  · obtain ⟨name, s, hop⟩ := exists_parameter hp
    cases ha : params.lookup name with
    | none =>
      rw [instructionValue_of_missing hop ha]
      exact onward_refuse _
    | some a =>
      rw [instructionValue_of_parameter hop ha]
      exact onward_bind (World.onward_retain a) fun _ => onward_pure a
  · rw [Bool.not_eq_true] at hp
    cases hc : i.kernel with
    | none =>
      rw [instructionValue_of_unbound hp hc]
      exact onward_refuse _
    | some c =>
      rw [instructionValue_of_kernel hp hc]
      exact onward_bind (onward_lift _) fun args => c.onward_compute i.shape args

theorem onward_releaseDead (values : Values) (inputs : List Nat) :
    Onward (releaseDead last position values inputs) := by
  induction inputs generalizing values with
  | nil => exact onward_pure _
  | cons r rest ih =>
    rcases releaseDead_cons last position values r rest with ⟨a, -, heq, -⟩ | ⟨heq, -⟩
    · rw [heq]
      exact onward_bind (World.onward_release a) fun _ => ih _
    · rw [heq]
      exact ih _

theorem onward_settling (i : Instruction) (values : Values) (a : Argument) :
    Onward (settling last output k i values a) := by
  have hreleasing : Onward (releasing last output k i values a) := by
    unfold releasing
    split
    · exact onward_releaseDead _ _
    · exact onward_bind (onward_releaseDead _ _) fun values =>
        onward_bind (World.onward_release a) fun _ => onward_pure values
  refine onward_bind World.ages_refl fun w => ?_
  split
  · exact onward_bind (World.onward_note _ _) fun _ => hreleasing
  · exact hreleasing

/-- What each instruction gives in a later world holds of the values that are kept in the end. -/
theorem EveryAt.runFrom_ages (h : EveryAt P values) (hw : v.Ages w)
    (hP : ∀ m i, rest[m]? = some i → ∀ values w a w', v.Ages w → EveryAt P values →
      instructionValue params (k + m) i values w = .value a w' → P (k + m) a)
    (hrun : Program.runFrom params last output k values rest w = .value values' w') :
    EveryAt P values' := by
  induction rest generalizing k values w with
  | nil =>
    cases hrun
    exact h
  | cons i rest ih =>
    rw [runFrom_cons] at hrun
    obtain ⟨values₁, w₁, hstep, hrest⟩ := Action.bind_eq_value.mp hrun
    obtain ⟨a, w₂, hvalue, hsettle, rfl⟩ := runStep_eq_value hstep
    have ha : P k a := hP 0 i rfl values w a w₂ hw h hvalue
    have hw₂ : v.Ages w₂ := hw.trans ((onward_instructionValue params k i values).ages hvalue)
    have hw₁ : v.Ages w₁ := hw₂.trans ((onward_settling i values a).ages hsettle)
    refine ih (h.succeeding ha) hw₁ (fun m j hj values w a w' hw hkept hvalue => ?_) hrest
    · have hshift : k + 1 + m = k + (m + 1) := by omega
      rw [hshift] at hvalue ⊢
      exact hP (m + 1) j hj values w a w' hw hkept hvalue

/-! ## Views and what they lead to -/

/-- Whether views lead from a position back to another. -/
inductive Views (is : List Instruction) : Nat → Nat → Prop
  | here (k : Nat) : Views is k k
  | view {k r m : Nat} {i : Instruction} :
      is[k]? = some i → i.op.isView = true → r ∈ i.inputs → Views is r m → Views is k m

theorem Views.eq_or_read (h : Views is k m) :
    k = m ∨ ∃ i ∈ is, i.op.isView = true ∧ m ∈ i.inputs := by
  induction h with
  | here => exact Or.inl rfl
  | view hi hview hr _ ih =>
    rcases ih with rfl | hread
    · exact Or.inr ⟨_, List.mem_of_getElem? hi, hview, hr⟩
    · exact Or.inr hread

theorem Views.eq_of_not_isView (h : Views is k m) (hi : is[k]? = some i)
    (hview : i.op.isView = false) : k = m := by
  cases h with
  | here => rfl
  | view hi' hview' =>
    rw [hi] at hi'
    cases hi'
    rw [hview] at hview'
    cases hview'

/-- The argument that an instruction hands on as it was before the run: that of a parameter, that of
a constant, or the copy that was made of a constant when the program was compiled. -/
def source? (params : Parameters) (i : Instruction) : Option Argument :=
  match i.op with
  | .parameter name _ => params.lookup name
  | _ => i.constant?

theorem source?_of_not_isParameter (hp : i.isParameter = false) :
    source? params i = i.constant? := by
  obtain ⟨op, inputs, s, kernel⟩ := i
  cases op with
  | parameter => cases hp
  | _ => rfl

theorem source?_of_isView (hview : i.op.isView = true) : source? params i = none := by
  obtain ⟨op, inputs, s, kernel⟩ := i
  cases op with
  | reshape | transpose => rfl
  | _ => cases hview

theorem source?_of_isCompute (hcomp : i.op.isCompute = true) : source? params i = none := by
  obtain ⟨op, inputs, s, kernel⟩ := i
  cases op with
  | literal | parameter | reshape | transpose | hostToDevice | deviceToHost => cases hcomp
  | _ => rfl

/-- Whether an argument shares the storage of a source that views lead back to from a position. -/
def ReachesSource (params : Parameters) (is : List Instruction) (c : Argument) (k : Nat) : Prop :=
  ∃ m i b, Views is k m ∧ is[m]? = some i ∧ source? params i = some b ∧ b.sharesStorage c = true

theorem reachesSource_iff_of_not_isView (hi : is[k]? = some i) (hview : i.op.isView = false) :
    ReachesSource params is c k ↔ ∃ b, source? params i = some b ∧ b.sharesStorage c = true := by
  constructor
  · rintro ⟨m, j, b, hviews, hj, hb⟩
    obtain rfl := hviews.eq_of_not_isView hi hview
    rw [hi] at hj
    cases hj
    exact ⟨b, hb⟩
  · rintro ⟨b, hb⟩
    exact ⟨k, i, b, .here k, hi, hb⟩

theorem reachesSource_iff_of_isView {r : Nat} (hi : is[k]? = some i) (hview : i.op.isView = true)
    (hin : i.inputs = [r]) : ReachesSource params is c k ↔ ReachesSource params is c r := by
  constructor
  · rintro ⟨m, j, b, hviews, hj, hb, hshares⟩
    cases hviews with
    | here =>
      rw [hi] at hj
      cases hj
      rw [source?_of_isView hview] at hb
      cases hb
    | view hi' _ hr hviews =>
      rw [hi] at hi'
      cases hi'
      rw [hin, List.mem_singleton] at hr
      subst hr
      exact ⟨m, j, b, hviews, hj, hb, hshares⟩
  · rintro ⟨m, j, b, hviews, hrest⟩
    exact ⟨m, j, b, .view hi hview (hin ▸ List.mem_singleton_self r) hviews, hrest⟩

/-! ## What a run gives -/

/-- Whether the value at a position shares storage with `c` just if a source does that views lead
back to. -/
def SharesSource (params : Parameters) (is : List Instruction) (c : Argument) (k : Nat)
    (a : Argument) : Prop :=
  a.sharesStorage c = true ↔ ReachesSource params is c k

theorem sharesSource_of_source? (hi : is[k]? = some i) (hview : i.op.isView = false)
    (ha : source? params i = some a) : SharesSource params is c k a := by
  unfold SharesSource
  rw [reachesSource_iff_of_not_isView hi hview]
  constructor
  · exact fun hshares => ⟨a, ha, hshares⟩
  · rintro ⟨b, hb, hshares⟩
    rw [ha] at hb
    cases hb
    exact hshares

theorem sharesSource_of_new (hi : is[k]? = some i) (hview : i.op.isView = false)
    (hsource : source? params i = none) (hnew : a.sharesStorage c = false) :
    SharesSource params is c k a := by
  unfold SharesSource
  rw [reachesSource_iff_of_not_isView hi hview, hnew, hsource]
  constructor
  · intro h
    cases h
  · rintro ⟨b, hb, -⟩
    cases hb

/-- A view reads one value, and its kernel keeps the storage of that. -/
theorem sharesSource_of_isView {kernel : BoundKernel} (hq : Sound q)
    (hi : q.instructions[k]? = some i) (hview : i.op.isView = true)
    (hkernel : kernel = .host i.op ∨ kernel = .view i.op.name)
    (hkept : EveryAt (SharesSource params q.instructions c) values)
    (hargs : inputValues k values i.inputs = .value args)
    (hcompute : kernel.compute i.shape args w = .value a w') :
    SharesSource params q.instructions c k a := by
  obtain ⟨shapes, hshapes, hinfers⟩ := hq.wellFormed.consistent.infers hi
  obtain ⟨t, rfl⟩ := exists_of_isView hinfers hview
  obtain ⟨r, j, hin, -, -⟩ := inputs_eq_singleton hshapes
  have hread := inputValues_eq_some hargs
  rw [hin] at hread
  obtain _ | ⟨hb, _ | _⟩ := hread
  rename_i b
  have hstorage : a.storage = b.storage := by
    rcases hkernel with rfl | rfl
    · obtain ⟨key, w₁, hkey, hcomputed⟩ := Action.bind_eq_value.mp hcompute
      obtain ⟨a', w₂, hlift, hretained⟩ := Action.bind_eq_value.mp hcomputed
      obtain ⟨honHost, -⟩ := Action.ofOutcome_eq_value.mp hlift
      obtain ⟨_, w₃, -, hvalue⟩ := Action.bind_eq_value.mp hretained
      cases hvalue
      revert honHost
      cases hop : i.op with
      | reshape | transpose => exact storage_of_withShape
      | _ =>
        rw [hop] at hview
        cases hview
    · exact storage_of_view hcompute
  unfold SharesSource
  rw [reachesSource_iff_of_isView hi hview hin, Argument.sharesStorage_congr hstorage]
  exact hkept r b hb

theorem sharesSource_of_host (hq : Sound q) (hc : w.Knows c) (hi : q.instructions[k]? = some i)
    (hp : i.isParameter = false) (htransfer : i.op.isTransfer = false)
    (hkept : EveryAt (SharesSource params q.instructions c) values)
    (hargs : inputValues k values i.inputs = .value args)
    (hcompute : (BoundKernel.host i.op).compute i.shape args w = .value a w') :
    SharesSource params q.instructions c k a := by
  by_cases hview : i.op.isView = true
  · exact sharesSource_of_isView hq hi hview (.inl rfl) hkept hargs hcompute
  rw [Bool.not_eq_true] at hview
  by_cases hcomp : i.op.isCompute = true
  · exact sharesSource_of_new hi hview (source?_of_isCompute hcomp)
      (BoundKernel.unshared_host hcomp hc hcompute)
  · obtain ⟨l, hop⟩ : ∃ l, i.op = .literal l := by
      obtain ⟨op, inputs, s, kernel⟩ := i
      cases op with
      | literal l => exact ⟨l, rfl⟩
      | parameter => cases hp
      | reshape | transpose => cases hview
      | hostToDevice | deviceToHost => cases htransfer
      | _ => exact absurd rfl hcomp
    rw [hop] at hcompute
    obtain ⟨key, w₁, hkey, hcomputed⟩ := Action.bind_eq_value.mp hcompute
    cases hkey
    cases hcomputed
    refine sharesSource_of_source? hi hview ?_
    unfold source? Instruction.constant?
    rw [hop]

theorem sharesSource_of_device (hq : Sound q) (hc : w.Knows c) (hi : q.instructions[k]? = some i)
    (hp : i.isParameter = false) {kernel : BoundKernel} (hkernel : i.kernel = some kernel)
    (hserves : (Backend.device id).Serves q.instructions i kernel)
    (hkept : EveryAt (SharesSource params q.instructions c) values)
    (hargs : inputValues k values i.inputs = .value args)
    (hcompute : kernel.compute i.shape args w = .value a w') :
    SharesSource params q.instructions c k a := by
  cases assigned_of_serves hq.wellFormed.consistent hi hp hserves with
  | view hview => exact sharesSource_of_isView hq hi hview (.inr rfl) hkept hargs hcompute
  | launch hcomp =>
    exact sharesSource_of_new hi (Bool.eq_false_iff.mpr fun hview =>
      absurd hcomp (by rw [Operator.isCompute_of_isView hview]; exact Bool.false_ne_true))
      (source?_of_isCompute hcomp) (BoundKernel.unshared_launch hc hcompute)
  | literal hop =>
    cases hcompute
    refine sharesSource_of_source? hi (by rw [hop]; rfl) ?_
    unfold source? Instruction.constant?
    rw [hop]
  | resident hop =>
    obtain ⟨_, w₁, -, hvalue⟩ := Action.bind_eq_value.mp hcompute
    cases hvalue
    refine sharesSource_of_source? hi (by rw [hop]; rfl) ?_
    unfold source? Instruction.constant?
    rw [hop, hkernel]
  | upload hop =>
    obtain _ | ⟨b, rest⟩ := args
    · cases hcompute
    · refine sharesSource_of_new hi (by rw [hop]; rfl) ?_ (hc.unshared_toDevice hcompute)
      unfold source? Instruction.constant?
      rw [hop, hkernel]
  | download hop =>
    obtain _ | ⟨b, rest⟩ := args
    · cases hcompute
    · refine sharesSource_of_new hi (by rw [hop]; rfl) ?_ (hc.unshared_toHost hcompute)
      unfold source? Instruction.constant?
      rw [hop]

theorem sharesSource_of_instructionValue (hq : Sound q) (ht : q.target = some t) (hc : w.Knows c)
    (hi : q.instructions[k]? = some i)
    (hkept : EveryAt (SharesSource params q.instructions c) values)
    (hvalue : instructionValue params k i values w = .value a w') :
    SharesSource params q.instructions c k a := by
  by_cases hp : i.isParameter = true
  · obtain ⟨name, s, hop⟩ := exists_parameter hp
    refine sharesSource_of_source? hi (by rw [hop]; rfl) ?_
    unfold source?
    rw [hop]
    exact (parameter_eq_value hop hvalue).1
  rw [Bool.not_eq_true] at hp
  obtain ⟨hstock, hbound⟩ := hq.bound t ht
  obtain ⟨kernel, hkernel, hserves⟩ := hbound i (List.mem_of_getElem? hi) hp
  obtain ⟨args, hargs, hcompute⟩ := (instructionValue_eq_value hp hkernel).mp hvalue
  rcases hstock with rfl | ⟨id, offload, rfl⟩
  · obtain ⟨htransfer, rfl⟩ := hserves
    exact sharesSource_of_host hq hc hi hp htransfer hkept hargs hcompute
  · exact sharesSource_of_device hq hc hi hp hkernel hserves hkept hargs hcompute

/-- The result of a run shares storage with what was there before just if a source does that views
lead back to from the last instruction. -/
theorem sharesSource_of_run (hq : Sound q) (ht : q.target = some t) (hc : v.Knows c)
    (hrun : q.run params v = .value a w') :
    SharesSource params q.instructions c (q.size - 1) a := by
  obtain ⟨last, values, w₁, hvalues, hout, -⟩ := exists_values_of_run hrun
  have hkept : EveryAt (SharesSource params q.instructions c) values := by
    refine (everyAt_replicate _ q.size).runFrom_ages (World.ages_refl v)
      (fun m i hi values w a w' hw hkept hvalue => ?_) hvalues
    rw [Nat.zero_add] at hvalue ⊢
    exact sharesSource_of_instructionValue hq ht (hw.knows hc) hi hkept hvalue
  exact hkept _ a hout

/-! ## Compiled programs -/

/-- Constants that are added leave a compiled program sound, and compiled for the same target. -/
theorem WithLiterals.sound (h : WithLiterals q n r) (hq : Sound q) (ht : q.target = some t) :
    Sound r ∧ r.target = some t := by
  induction h with
  | none => exact ⟨hq, ht⟩
  | @add n r r' l position w w' _ hadd ih =>
    obtain ⟨hsound, htarget⟩ := ih
    have hsound' : Sound r' := hsound.addLiteral hadd
    obtain ⟨c, -, hvalue⟩ := addLiteral_of_compiled htarget (hsound.bound t htarget).1 l w
    rw [hvalue] at hadd
    cases hadd
    exact ⟨hsound', htarget⟩

theorem Fed.append (h : Fed is) {added : List Instruction}
    (hadded : ∀ i ∈ added, i.BoundLiteral t) : Fed (is ++ added) := by
  intro i hi s hs
  rcases List.mem_append.mp hi with hi | hi
  · obtain ⟨j, hj, hrest⟩ := h i hi s hs
    exact ⟨j, getElem?_append_of_some hj added, hrest⟩
  · obtain ⟨l, c, rfl, -⟩ := hadded i hi
    cases hs

/-- On a device, views lead back to no parameter: a parameter is read by a transfer only. -/
theorem not_isParameter_of_views (hb : Built p)
    (hcompile : p.compile (.device id offload) w = .value q w') (hadd : WithLiterals q n r)
    (hviews : Views r.instructions (r.size - 1) k) (hi : r.instructions[k]? = some i) :
    i.isParameter = false := by
  have hsound : Sound q := hb.reached.sound.compile (Or.inr ⟨id, offload, rfl⟩) hcompile
  obtain ⟨hfed, hlast, -⟩ := fed_of_compile hb hcompile
  obtain ⟨-, -, added, his, hlen, hbound⟩ := hadd.grown hsound (compile_eq_value hcompile).2.1
  have hfed' : Fed r.instructions := by
    rw [his]
    exact hfed.append hbound
  rw [← Bool.not_eq_true]
  intro hp
  have hstarts : startsOnHost i.op = true := by
    obtain ⟨name, s, hop⟩ := exists_parameter hp
    rw [hop]
    rfl
  rcases hviews.eq_or_read with rfl | ⟨j, hj, hview, hread⟩
  · -- the output is a constant that was added, or what compiling put last
    have hend : r.last? = some i := by
      rw [last?, List.getLast?_eq_getElem?]
      exact hi
    rcases List.eq_nil_or_concat' added with rfl | ⟨before, c, rfl⟩
    · rw [List.append_nil] at his
      rw [last?, his] at hend
      rw [(hlast i hend).1] at hstarts
      cases hstarts
    · rw [last?, his, ← List.append_assoc, List.getLast?_concat] at hend
      cases hend
      obtain ⟨l, kernel, rfl, -⟩ := hbound i (by simp)
      cases hp
  · obtain ⟨i', hi', htransfer⟩ := hfed' j hj k hread
    rw [hi] at hi'
    cases hi'
    rw [htransfer hstarts] at hview
    cases hview

/-- On the host only literals are constants. -/
theorem exists_literal_of_host {all : List Instruction} {kernel : BoundKernel}
    {refused : List String} (hkernel : i.kernel = some kernel)
    (hserves : (Backend.host refused).Serves all i kernel)
    (hconstant : i.constant? = some b) : ∃ l, i.op = .literal l ∧ b = .ofLiteral l := by
  obtain ⟨-, rfl⟩ := hserves
  unfold Instruction.constant? at hconstant
  split at hconstant
  · next _ l hop =>
    cases hconstant
    exact ⟨l, hop, rfl⟩
  · next hresident =>
    rw [hkernel] at hresident
    cases hresident
  · cases hconstant

/-- Storage is shared exactly along views.  On the host, where no constant of the program shares
storage with an argument that was there before, the result of a run does just if the argument of a
parameter does that views lead back to from the last instruction.  On a device views lead to no
parameter: the result shares storage with what was there before just if views lead back to a
constant, and that does.  It is then the copy that was made when the program was compiled, or the
storage of a constant that was added later. -/
theorem run_sharing (hb : Built p) (hadd : WithLiterals q n r) (hc : v.Knows c)
    (hrun : r.run params v = .value a v') :
    (p.compile .host w = .value q w' →
      (∀ i ∈ r.instructions, ∀ l, i.op = .literal l →
        (Argument.ofLiteral l).sharesStorage c = false) →
      (a.sharesStorage c = true ↔ ∃ k i name s b, Views r.instructions (r.size - 1) k ∧
        r.instructions[k]? = some i ∧ i.op = .parameter name s ∧ params.lookup name = some b ∧
          b.sharesStorage c = true)) ∧
    ∀ id offload, p.compile (.device id offload) w = .value q w' →
      (a.sharesStorage c = true ↔ ∃ k i b, Views r.instructions (r.size - 1) k ∧
        r.instructions[k]? = some i ∧ i.constant? = some b ∧ b.sharesStorage c = true) := by
  constructor
  · intro hcompile hliterals
    have hsound : Sound q := hb.reached.sound.compile (Or.inl rfl) hcompile
    obtain ⟨hsound', ht⟩ := hadd.sound hsound (compile_eq_value hcompile).2.1
    refine (sharesSource_of_run hsound' ht hc hrun).trans ⟨?_, ?_⟩
    · rintro ⟨k, i, b, hviews, hi, hsource, hshares⟩
      by_cases hp : i.isParameter = true
      · obtain ⟨name, s, hop⟩ := exists_parameter hp
        unfold source? at hsource
        rw [hop] at hsource
        exact ⟨k, i, name, s, b, hviews, hi, hop, hsource, hshares⟩
      · rw [Bool.not_eq_true] at hp
        rw [source?_of_not_isParameter hp] at hsource
        obtain ⟨kernel, hkernel, hserves⟩ :=
          (hsound'.bound _ ht).2 i (List.mem_of_getElem? hi) hp
        obtain ⟨l, hop, rfl⟩ := exists_literal_of_host hkernel hserves hsource
        rw [hliterals i (List.mem_of_getElem? hi) l hop] at hshares
        cases hshares
    · rintro ⟨k, i, name, s, b, hviews, hi, hop, hlookup, hshares⟩
      refine ⟨k, i, b, hviews, hi, ?_, hshares⟩
      unfold source?
      rw [hop]
      exact hlookup
  · intro id offload hcompile
    have hsound : Sound q := hb.reached.sound.compile (Or.inr ⟨id, offload, rfl⟩) hcompile
    obtain ⟨hsound', ht⟩ := hadd.sound hsound (compile_eq_value hcompile).2.1
    refine (sharesSource_of_run hsound' ht hc hrun).trans ?_
    have hplain : ∀ k i, Views r.instructions (r.size - 1) k → r.instructions[k]? = some i →
        source? params i = i.constant? := fun k i hviews hi =>
      source?_of_not_isParameter (not_isParameter_of_views hb hcompile hadd hviews hi)
    constructor
    · rintro ⟨k, i, b, hviews, hi, hsource, hshares⟩
      exact ⟨k, i, b, hviews, hi, (hplain k i hviews hi).symm.trans hsource, hshares⟩
    · rintro ⟨k, i, b, hviews, hi, hconstant, hshares⟩
      exact ⟨k, i, b, hviews, hi, (hplain k i hviews hi).trans hconstant, hshares⟩

def firstTransposed : Program where
  instructions :=
    [{ op := .parameter "x" matrix, inputs := [], shape := matrix },
     { op := .parameter "y" matrix, inputs := [], shape := matrix },
     { op := .transpose [1, 0], inputs := [0], shape := ⟨.float, [⟨3, 1⟩, ⟨2, 3⟩]⟩ }]
  parameters := [("x", matrix), ("y", matrix)]

theorem built_firstTransposed : Built firstTransposed := by
  have hx : addParameter "x" matrix {} = .value 0
      { instructions := firstTransposed.instructions.take 1, parameters := [("x", matrix)] } := rfl
  have hy : addParameter "y" matrix
      { instructions := firstTransposed.instructions.take 1, parameters := [("x", matrix)] } =
        .value 1 { instructions := firstTransposed.instructions.take 2,
                   parameters := [("x", matrix), ("y", matrix)] } := rfl
  have htranspose : addInstruction (.transpose [1, 0]) [0]
      { instructions := firstTransposed.instructions.take 2,
        parameters := [("x", matrix), ("y", matrix)] } = .value 2 firstTransposed := rfl
  have hplain : ∀ l, Operator.transpose [1, 0] = .literal l → l.Made := fun _ h => nomatch h
  exact .instruction (.parameter (.parameter .empty hx) hy) hplain htranspose

def firstTransposedOnHost : Program where
  instructions :=
    [{ op := .parameter "x" matrix, inputs := [], shape := matrix },
     { op := .parameter "y" matrix, inputs := [], shape := matrix },
     { op := .transpose [1, 0], inputs := [0], shape := ⟨.float, [⟨3, 1⟩, ⟨2, 3⟩]⟩,
       kernel := some (.host (.transpose [1, 0])) }]
  parameters := [("x", matrix), ("y", matrix)]
  target := some .host

def sixZeros : Argument := ⟨matrix, some (.host (.ofBytes 1 (Bytes.zeros 24)))⟩

/-- The result shares storage with the matrix that it shows, and not with the other one. -/
theorem run_sharing_firstTransposed : Built firstTransposed ∧ ∃ q w a v',
    firstTransposed.compile .host { nextKey := 2 } = .value q w ∧ WithLiterals q 0 q ∧
      w.Knows oneToSix ∧ w.Knows sixZeros ∧
      q.run [("x", oneToSix), ("y", sixZeros)] w = .value a v' ∧
      a.sharesStorage oneToSix = true ∧ a.sharesStorage sixZeros = false := by
  obtain ⟨w, a, v', hq, hkey, ha⟩ : ∃ w a v', firstTransposed.compile .host { nextKey := 2 } =
        .value firstTransposedOnHost w ∧ w.nextKey = 2 ∧
      firstTransposedOnHost.run [("x", oneToSix), ("y", sixZeros)] w = .value a v' :=
    ⟨_, _, _, rfl, rfl, rfl⟩
  have hone : w.Knows oneToSix := show 0 < w.nextKey by omega
  have hzeros : w.Knows sixZeros := show 1 < w.nextKey by omega
  have hliterals : ∀ c, ∀ i ∈ firstTransposedOnHost.instructions, ∀ l, i.op = .literal l →
      (Argument.ofLiteral l).sharesStorage c = false := by
    intro c i hi l hop
    simp only [firstTransposedOnHost, List.mem_cons, List.not_mem_nil, or_false] at hi
    rcases hi with rfl | rfl | rfl <;> cases hop
  have hshared := (run_sharing built_firstTransposed .none hone ha).1 hq (hliterals _)
  have hapart := (run_sharing built_firstTransposed .none hzeros ha).1 hq (hliterals _)
  refine ⟨built_firstTransposed, _, w, a, v', hq, .none, hone, hzeros, ha, ?_, ?_⟩
  · exact hshared.mpr ⟨0, _, "x", matrix, oneToSix,
      .view rfl rfl (List.mem_singleton_self 0) (.here 0), rfl, rfl, rfl, by decide⟩
  · rw [← Bool.not_eq_true, hapart]
    rintro ⟨k, i, name, s, b, hviews, hi, hop, hlookup, hshares⟩
    obtain rfl : k = 0 := by
      cases hviews with
      | here =>
        cases hi
        cases hop
      | view hj hview hr hviews =>
        cases hj
        rw [List.mem_singleton] at hr
        subst hr
        exact (hviews.eq_of_not_isView rfl rfl).symm
    cases hi
    cases hop
    cases hlookup
    cases hshares

def unreadAndZeros : Program where
  instructions :=
    [{ op := .parameter "x" matrix, inputs := [], shape := matrix },
     { op := .literal zeros, inputs := [], shape := matrix }]
  parameters := [("x", matrix)]

theorem built_unreadAndZeros : Built unreadAndZeros := by
  have hx : addParameter "x" matrix {} = .value 0
      { instructions := unreadAndZeros.instructions.take 1, parameters := [("x", matrix)] } := rfl
  have hzeros : addLiteral { instructions := unreadAndZeros.instructions.take 1,
                             parameters := [("x", matrix)] } zeros {} =
      .value (unreadAndZeros, 1) {} := rfl
  exact .literal (.parameter .empty hx) made_zeros hzeros

/-- The copy of a constant on a device is handed out by every run.  What a run gave is that copy,
and with it as an argument the next run gives it again. -/
theorem run_sharing_resident :
    ¬∀ (p q : Program) (w w' v v' : World) (params : Parameters) (a c : Argument) (name : String),
      Built p → p.compile (.device 0 false) w = .value q w' → q.run params v = .value a v' →
      params.lookup name = some c → v.Knows c →
      (∀ i ∈ p.instructions, ∀ l, i.op = .literal l →
        (Argument.ofLiteral l).sharesStorage c = false) → a.sharesStorage c = false := by
  intro h
  obtain ⟨q, w, hq, hruns⟩ := Turn.exists_of_passes
    (show (unreadAndZeros.compile (.device 0 false) { devices := [{}] }).passes (fun q w =>
      (q.run [("x", oneToSix)] w).passes fun c v =>
        decide (v.Knows c) && !(Argument.ofLiteral zeros).sharesStorage c &&
          (q.run [("x", c)] v).passes fun a _ => a.sharesStorage c) = true by decide +kernel)
  obtain ⟨c, v, -, htest⟩ := Turn.exists_of_passes hruns
  rw [Bool.and_eq_true, Bool.and_eq_true, decide_eq_true_iff, Bool.not_eq_true'] at htest
  obtain ⟨⟨hknows, hzeros⟩, hagain⟩ := htest
  obtain ⟨a, v', ha, hshares⟩ := Turn.exists_of_passes hagain
  have hliterals : ∀ i ∈ unreadAndZeros.instructions, ∀ l, i.op = .literal l →
      (Argument.ofLiteral l).sharesStorage c = false := by
    intro i hi l hop
    simp only [unreadAndZeros, List.mem_cons, List.not_mem_nil, or_false] at hi
    rcases hi with rfl | rfl <;> cases hop
    exact hzeros
  have hnone := h unreadAndZeros q _ w v v' [("x", c)] a c "x" built_unreadAndZeros hq ha rfl
    hknows hliterals
  rw [hshares] at hnone
  cases hnone

end Program
end TensorGraph
