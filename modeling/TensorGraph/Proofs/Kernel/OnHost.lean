/-
Operators on host arguments.

`Stores a s v` says that an argument has a shape and that its bytes, on the host, hold a
tensor under it.  `onHost_ends` is the specification of the host kernels: from arguments
that store tensors every operator but parameters and transfers gives one that stores what
the operator denotes.
-/
import TensorGraph.Proofs.Kernel.Run
import TensorGraph.Proofs.Kernel.Stored
import TensorGraph.Proofs.Program.Build

namespace TensorGraph

/-! ## Stored tensors -/

namespace Argument

/-- A tensor in host memory: the buffer has an address, aligned for the type, and room for
every element. -/
structure Stores (a : Argument) (s : Shape) (v : View) : Prop where
  shape : a.shape = s
  buffer : ∃ b, a.storage = some (.host b) ∧ b.address ≠ 0 ∧ b.address % s.dtype.size = 0 ∧
    s.space * s.dtype.size ≤ b.bytes.size ∧ (View.ofBytes s s.dtype.size b.bytes).Agrees v

variable {a : Argument} {s t : Shape} {v : View} {fits : Prop}

theorem Stores.congr {v' : View} (h : a.Stores s v) (hv : v.Agrees v') : a.Stores s v' := by
  obtain ⟨hs, b, hb, hzero, halign, hsize, hagrees⟩ := h
  exact ⟨hs, b, hb, hzero, halign, hsize, hagrees.trans hv⟩

theorem make_ends {b : HostBuffer} (hp : t.Populated) (hfit : fits → t.Addressable)
    (hzero : b.address ≠ 0) (halign : b.address % t.dtype.size = 0)
    (hsize : t.space * t.dtype.size ≤ b.bytes.size) :
    (make t (.host b)).Ends fits (· = ⟨t, some (.host b)⟩) := by
  unfold make
  refine Outcome.Ends.bind (P := fun n => n = t.space * t.dtype.size) ?_ ?_
  · refine Outcome.ends_ofOption (fun hf => ?_) fun n hn =>
      ((Shape.storageBytes_eq_some hp).mp hn).1
    rw [(hfit hf).storageBytes hp]
    rfl
  · rintro _ rfl
    rw [Outcome.require_pos (show _ ≤ (Storage.host b).size from hsize), Outcome.value_bind]
    dsimp only
    rw [Outcome.require_pos ⟨hzero, halign⟩]
    exact rfl

theorem size_dvd_bufferAlignment (d : Dtype) : bufferAlignment % d.size = 0 := by
  cases d <;> decide

theorem ofTensor_ends (key : Nat) (ht : Shape.standard t.dtype t.lens = some t)
    (hp : t.Populated) (hl : v.lens = t.lens) (hs : v.Storable t.dtype.size)
    (hhold : fits → t.Holdable) :
    (liftM (ofTensor key t.dtype v.toTensor) : Outcome Argument).Ends fits (·.Stores t v) := by
  have hcount : v.toTensor.elements.length = t.lens.prod :=
    v.length_elements.trans (congrArg List.prod hl)
  refine Outcome.ends_ofOption (fun hf => ?_) fun a ha => ?_
  · rw [Option.isSome_iff_exists]
    exact ⟨_, ofTensor_eq_some.mpr ⟨t, (congrArg _ hl).trans ht, hcount ▸ hhold hf, rfl⟩⟩
  obtain ⟨s, hshape, -, rfl⟩ := ofTensor_eq_some.mp ha
  obtain rfl : t = s := Eq.symm <| Option.some.inj (hshape.symm.trans ((congrArg _ hl).trans ht))
  refine ⟨rfl, _, rfl, ?_, size_dvd_bufferAlignment _, ?_, ?_⟩
  · exact fun h => nomatch h
  · show _ ≤ (Bytes.ofWords t.dtype.size v.toTensor.elements).size
    rw [Bytes.size_ofWords, hcount, Shape.space_of_standard ht hp]
  · exact View.ofBytes_ofWords (Shape.isStandard_of_standard ht) hl hs

theorem Stores.viewAs_ends (h : a.Stores s v) (hfit : fits → s.Addressable) :
    (a.viewAs s.dtype).Ends fits fun u => s.Addressable ∧ u.Agrees v ∧
      u.Storable s.dtype.size := by
  obtain ⟨hs, b, hb, -, -, -, hagrees⟩ := h
  have hbuffer : a.hostBuffer = .value b := by
    unfold hostBuffer Argument.buffer
    rw [hb]
    rfl
  unfold viewAs
  rw [hs, Outcome.require_pos rfl, Outcome.value_bind, hbuffer, Outcome.value_bind]
  by_cases haddr : s.isAddressable s.dtype.size = true
  · rw [if_pos haddr]
    exact ⟨haddr, hagrees, View.storable_ofBytes _ _ _⟩
  · rw [if_neg haddr]
    exact fun hf => haddr (hfit hf)

theorem Stores.elementsAs_ends (h : a.Stores s v) (hfit : fits → s.Addressable)
    (hlist : fits → s.Listable) : (a.elementsAs s.dtype).Ends fits (· = v.elements) := by
  have hl : v.lens = s.lens := by
    obtain ⟨-, b, -, -, -, -, hagrees⟩ := h
    exact hagrees.1.symm
  unfold elementsAs
  refine Outcome.Ends.bind (h.viewAs_ends hfit) ?_
  rintro u ⟨-, hagrees, -⟩
  refine (Kernel.held_gives fun hf => ?_).return_ends hagrees.elements_eq
  rw [hagrees.1.trans hl]
  exact hlist hf

end Argument

/-! ## Kernels -/

namespace Kernel

open Operator (Infers)

variable {op : Operator} {shapes : List Shape} {t : Shape} {views : List View} {v : View}
variable {args : List Argument} {fits : Prop}

inductive Stored : List Argument → List Shape → List View → Prop
  | nil : Stored [] [] []
  | cons {a : Argument} {s : Shape} {v : View} {as : List Argument} {ss : List Shape}
    {vs : List View} : a.Stores s v → Stored as ss vs → Stored (a :: as) (s :: ss) (v :: vs)

theorem Stored.shaped (h : Stored args shapes views) : View.Shaped shapes views := by
  induction h with
  | nil => exact .nil
  | cons ha _ ih =>
    obtain ⟨-, b, -, -, -, -, hagrees⟩ := ha
    exact .cons hagrees.1.symm ih

theorem Stored.mapM_viewAs_ends {d : Dtype} (h : Stored args shapes views)
    (hd : ∀ s ∈ shapes, s.dtype = d) (hfit : fits → ∀ s ∈ shapes, s.Addressable) :
    (args.mapM fun a : Argument => a.viewAs d).Ends fits fun us =>
      (∀ s ∈ shapes, s.Addressable) ∧ List.Forall₂ View.Agrees views us ∧
        ∀ u ∈ us, u.Storable d.size := by
  induction h with
  | nil => exact ⟨fun _ h => (nomatch h), .nil, fun _ h => (nomatch h)⟩
  | @cons a s v as ss vs ha _ ih =>
    obtain rfl := hd s List.mem_cons_self
    rw [List.mapM_cons]
    refine Outcome.Ends.bind (ha.viewAs_ends fun hf => hfit hf s List.mem_cons_self) ?_
    rintro u ⟨haddr, hagrees, hstorable⟩
    refine Outcome.Ends.bind (ih (fun r hr => hd r (List.mem_cons_of_mem _ hr))
      fun hf r hr => hfit hf r (List.mem_cons_of_mem _ hr)) ?_
    rintro us ⟨haddrs, hall, hstorables⟩
    refine ⟨?_, .cons hagrees.symm hall, ?_⟩
    · rw [List.forall_mem_cons]
      exact ⟨haddr, haddrs⟩
    · rw [List.forall_mem_cons]
      exact ⟨hstorable, hstorables⟩

theorem withShape_ends {a : Argument} {s : Shape} {w : View} (h : Infers op [s] t)
    (hv : op.isView = true) (ha : a.Stores s w) (hp : s.Populated) (hpt : t.Populated)
    (hlaid : Program.isReshape op = true → s.isStandard = some true)
    (hfit : fits → t.Addressable) (hd : op.denote t [w] = some v) :
    (a.withShape t).Ends fits (·.Stores t v) := by
  obtain ⟨hs, b, hb, hzero, halign, hsize, hagrees⟩ := ha
  obtain ⟨-, -, -, hdtype, hspace⟩ := Operator.denote_view h hv hp hlaid b.bytes
  have hview := Operator.agrees_of_isView h hv hp hlaid hd hagrees
  unfold Argument.withShape
  rw [hb]
  rw [← hdtype] at halign hsize
  rw [← hspace] at hsize
  refine Outcome.Ends.mono (Argument.make_ends hpt hfit hzero halign hsize) ?_
  rintro _ rfl
  exact ⟨rfl, b, rfl, hzero, halign, hsize, hview⟩

/-- A numeric kernel reads its operands, computes and lays the result out. -/
theorem onHost_of_arithmetic (key : Nat) {num : Arithmetic} (hc : op.isCompute = true)
    (hn : op ≠ .contiguous) (hnum : t.dtype.arithmetic = some num) (args : List Argument) :
    onHost key op t args = (do
      let us ← args.mapM fun a : Argument => a.viewAs t.dtype
      let r ← run num op t.lens us
      return ← Argument.ofTensor key t.dtype r) := by
  unfold onHost
  cases op with
  | contiguous => exact absurd rfl hn
  | literal | parameter | reshape | transpose | hostToDevice | deviceToHost => cases hc
  | _ =>
    dsimp only
    rw [hnum]

theorem numeric_ends (key : Nat) (h : Infers op shapes t) (hc : op.isCompute = true)
    (hn : op ≠ .contiguous) (hs : Stored args shapes views) (hp : ∀ s ∈ shapes, s.Populated)
    (hpt : t.Populated) (hfit : fits → View.isCountable t.lens = true ∧ op.Roomy shapes)
    (hhold : fits → t.Holdable)
    (hfits : fits → ∀ s ∈ shapes, s.Addressable) (hd : op.denote t views = some v) :
    (onHost key op t args).Ends fits (·.Stores t v) := by
  obtain ⟨hfloat, hdtypes⟩ := h.isFloat hc hn
  obtain ⟨num, hnum⟩ := Operator.exists_arithmetic hfloat
  rw [onHost_of_arithmetic key hc hn hnum]
  refine Outcome.Ends.bind (hs.mapM_viewAs_ends hdtypes hfits) ?_
  rintro us ⟨haddrs, hagrees, hstorables⟩
  obtain ⟨v', hv', hvv'⟩ := Operator.denote_congr h hs.shaped hagrees hd
  have hshaped := hs.shaped.congr hagrees
  refine Outcome.Ends.bind (run_ends h hc hn hnum hshaped
    (fun s hs n hn => (haddrs s hs).extent_le (hp s hs) hn)
    (fun hf => (hfit hf).1) (fun hf => Dtype.size_arithmetic hnum ▸ (hhold hf).listable)
    (fun hf => (hfit hf).2) hv') ?_
  rintro _ rfl
  have hl : v'.lens = t.lens := Operator.lens_of_denote h (Operator.isParameter_of_isCompute hc)
    hshaped hv'
  exact (Argument.ofTensor_ends key (h.isStandard hc) hpt hl
    (Operator.storable_denote h hc hshaped hstorables hv') hhold).mono fun _ ha => ha.congr hvv'.symm

theorem contiguous_ends (key : Nat) {a : Argument} {s : Shape} {w : View}
    (h : Infers .contiguous [s] t) (ha : a.Stores s w) (hpt : t.Populated)
    (hhold : fits → t.Holdable) (hfits : fits → s.Addressable) :
    (onHost key .contiguous t [a]).Ends fits (·.Stores t w) := by
  have hd : t.dtype = s.dtype := by
    cases h with
    | contiguous ht => exact (Shape.asStandard_eq_some ht).2
  unfold onHost
  dsimp only
  rw [hd]
  refine Outcome.Ends.bind (ha.viewAs_ends hfits) ?_
  rintro u ⟨-, hagrees, hstorable⟩
  have hl : u.lens = t.lens := by
    cases h with
    | contiguous ht =>
      obtain ⟨-, b, -, -, -, -, hview⟩ := ha
      exact (hagrees.trans hview.symm).1.trans (Shape.asStandard_eq_some ht).1.symm
  rw [← hd] at hstorable ⊢
  exact (Argument.ofTensor_ends key (h.isStandard rfl) hpt hl hstorable hhold).mono
    fun _ hc => hc.congr hagrees

theorem ofLiteral_stores {l : Literal} (h : l.Made) (hp : l.shape.Populated) :
    (Argument.ofLiteral l).Stores l.shape (View.ofBytes l.shape l.shape.dtype.size l.bytes) := by
  refine ⟨rfl, l.buffer, rfl, ?_, ?_, h.storage hp, .refl _⟩
  · rw [h.address]
    exact fun h => nomatch h
  · rw [h.address]
    exact Argument.size_dvd_bufferAlignment _

/-- Every operator but parameters and transfers gives what it denotes. -/
theorem onHost_ends (key : Nat) (h : Infers op shapes t) (hparam : op.isParameter = false)
    (htransfer : op.isTransfer = false) (hs : Stored args shapes views)
    (hp : ∀ s ∈ shapes, s.Populated) (hpt : t.Populated) (hmade : ∀ l, op = .literal l → l.Made)
    (hlaid : Program.isReshape op = true → ∀ s ∈ shapes, s.isStandard = some true)
    (hfit : fits → t.Addressable ∧ op.Roomy shapes)
    (hhold : op.isCompute = true → fits → t.Holdable) (hfits : fits → ∀ s ∈ shapes, s.Addressable)
    (hd : op.denote t views = some v) : (onHost key op t args).Ends fits (·.Stores t v) := by
  by_cases hn : op.isCompute = true ∧ op ≠ .contiguous
  · exact numeric_ends key h hn.1 hn.2 hs hp hpt
      (fun hf => ⟨(hfit hf).1.isCountable, (hfit hf).2⟩) (hhold hn.1) hfits hd
  · have hview : ∀ {s : Shape}, shapes = [s] → op.isView = true →
        (∀ a : Argument, args = [a] → onHost key op t args = a.withShape t) →
        (onHost key op t args).Ends fits (·.Stores t v) := by
      rintro s rfl hv happly
      obtain _ | ⟨ha, _ | _⟩ := hs
      rw [happly _ rfl]
      exact withShape_ends h hv ha (hp s List.mem_cons_self) hpt
        (fun hr => hlaid hr s List.mem_cons_self) (fun hf => (hfit hf).1) hd
    cases h with
    | literal l =>
      obtain _ | _ := hs
      cases hd
      exact ofLiteral_stores (hmade l rfl) hpt
    | reshape => exact hview rfl rfl fun a ha => by rw [ha]; rfl
    | transpose => exact hview rfl rfl fun a ha => by rw [ha]; rfl
    | contiguous ht =>
      obtain _ | ⟨ha, _ | _⟩ := hs
      cases hd
      exact contiguous_ends key (.contiguous ht) ha hpt (hhold rfl)
        fun hf => hfits hf _ List.mem_cons_self
    | parameter => cases hparam
    | hostToDevice => cases htransfer
    | deviceToHost => cases htransfer
    | _ => exact absurd ⟨rfl, Operator.noConfusion⟩ hn

end Kernel
end TensorGraph
