/-
Kernels see elements and not layouts.

The strides and the buffer of an operand play a part only when it is read.  Two operands are the
`SameTensor` if they are of one type and show the same element at every index, however they are
laid out, and a kernel cannot tell lists of such operands apart.  What it gives is laid out
afresh, which is what `LaidOut` says.

The result is `onHost_of_sameTensor`.  It goes through `Operator.denote`, and for the matrix
product and the product of many operands it spells the formula out.
-/
import TensorGraph.Proofs.Storage.RoundTrip

namespace TensorGraph

namespace Argument

variable {a b r : Argument} {args args' : List Argument} {t : Shape} {v w : View} {key : Nat}

/-- Whether two arguments on the host are one tensor, whatever their strides and buffers are. -/
structure SameTensor (a b : Argument) : Prop where
  dtype : a.shape.dtype = b.shape.dtype
  agrees : ∃ v w, a.tensor? = some v ∧ b.tensor? = some w ∧ v.Agrees w

/-- Whether an argument is made over host storage, has elements, and all of them can be
addressed. -/
structure Readable (a : Argument) : Prop where
  onHost : a.OnHost
  populated : a.shape.Populated
  addressable : a.shape.Addressable

def Apart (key : Nat) (a : Argument) : Prop := ∀ b, a.storage = some (.host b) → b.key ≠ key

/-- Whether an argument holds the elements of a tensor in row-major order, under a given shape and
over storage that none of the operands has. -/
structure LaidOut (t : Shape) (v : View) (operands : List Argument) (r : Argument) : Prop where
  shape : r.shape = t
  standard : Shape.standard t.dtype t.lens = some t
  elements : r.elementsAs t.dtype = .value v.elements
  apart : ∀ a ∈ operands, r.sharesStorage a = false

theorem LaidOut.congr (h : LaidOut t v args r) (hv : v.Agrees w) : LaidOut t w args r where
  shape := h.shape
  standard := h.standard
  elements := hv.elements_eq ▸ h.elements
  apart := h.apart

theorem lens_of_tensor? (h : a.tensor? = some v) : v.lens = a.shape.lens := by
  unfold tensor? at h
  split at h
  · cases h
    rfl
  · cases h

theorem SameTensor.relaid (h : SameTensor a b) : a.shape.Relaid b.shape := by
  obtain ⟨v, w, hv, hw, hagrees⟩ := h.agrees
  exact ⟨h.dtype, by rw [← lens_of_tensor? hv, ← lens_of_tensor? hw, hagrees.1]⟩

theorem relaid_of_sameTensor (h : List.Forall₂ SameTensor args args') :
    List.Forall₂ Shape.Relaid (args.map shape) (args'.map shape) := by
  rw [List.forall₂_map_left_iff, List.forall₂_map_right_iff]
  exact h.imp fun _ _ => SameTensor.relaid

theorem readable_ofBytes {s : Shape} (hp : s.Populated) (ha : s.Addressable) {bytes : Bytes}
    (hsize : s.space * s.dtype.size ≤ bytes.size) :
    Readable ⟨s, some (.host (.ofBytes key bytes))⟩ where
  onHost := by
    have hbytes := ha.storageBytes hp
    have hbacks : (HostBuffer.ofBytes key bytes).Backs s :=
      ⟨fun n hn => by rw [hbytes] at hn; cases hn; exact hsize, fun h => (nomatch h),
        size_dvd_bufferAlignment _⟩
    exact ⟨_, rfl, make_of_backs hbacks hbytes⟩
  populated := hp
  addressable := ha

theorem apart_ofBytes {key' : Nat} (h : key' ≠ key) (s : Shape) (bytes : Bytes) :
    Apart key ⟨s, some (.host (.ofBytes key' bytes))⟩ := by
  intro b hb
  cases hb
  exact h

theorem readable_pair {s s' : Shape} {first second : Nat} {bytes bytes' : Bytes}
    (hp : s.Populated ∧ s'.Populated) (ha : s.Addressable ∧ s'.Addressable)
    (hsize : s.space * s.dtype.size ≤ bytes.size ∧ s'.space * s'.dtype.size ≤ bytes'.size)
    (hkey : first ≠ key ∧ second ≠ key) :
    ∀ a ∈ ([⟨s, some (.host (.ofBytes first bytes))⟩,
      ⟨s', some (.host (.ofBytes second bytes'))⟩] : List Argument), a.Readable ∧ a.Apart key := by
  rw [List.forall_mem_cons, List.forall_mem_singleton]
  exact ⟨⟨readable_ofBytes hp.1 ha.1 hsize.1, apart_ofBytes hkey.1 s bytes⟩,
    readable_ofBytes hp.2 ha.2 hsize.2, apart_ofBytes hkey.2 s' bytes'⟩

/-- Tensors with the same elements in row-major order are the same. -/
theorem sameTensor_of_elements (hd : a.shape.dtype = b.shape.dtype) (ha : a.tensor? = some v)
    (hb : b.tensor? = some w) (hl : v.lens = w.lens) (he : v.elements = w.elements) :
    SameTensor a b := by
  refine ⟨hd, v, w, ha, hb, hl, fun idx hi => ?_⟩
  have hv := View.elements_getElem?_position hi
  rw [he, hl, View.elements_getElem?_position (hl ▸ hi)] at hv
  exact (Option.some.inj hv).symm

theorem exists_agreeing (h : List.Forall₂ SameTensor args args') :
    ∃ views views', args.mapM tensor? = some views ∧ args'.mapM tensor? = some views' ∧
      List.Forall₂ View.Agrees views views' := by
  induction h with
  | nil => exact ⟨[], [], rfl, rfl, .nil⟩
  | cons hab _ ih =>
    obtain ⟨v, w, hv, hw, hagrees⟩ := hab.agrees
    obtain ⟨vs, ws, hvs, hws, hall⟩ := ih
    exact ⟨v :: vs, w :: ws, by rw [List.mapM_cons, hv, hvs]; rfl,
      by rw [List.mapM_cons, hw, hws]; rfl, .cons hagrees hall⟩

/-- Arguments that can be read store their tensors. -/
theorem stored_of_readable (h : ∀ a ∈ args, a.Readable) {views : List View}
    (hviews : args.mapM tensor? = some views) :
    Kernel.Stored args (args.map shape) views := by
  induction args generalizing views with
  | nil =>
    cases hviews
    exact .nil
  | cons a as ih =>
    rw [List.forall_mem_cons] at h
    rw [List.mapM_cons] at hviews
    obtain ⟨v, hv, hviews⟩ := Option.bind_eq_some_iff.mp hviews
    obtain ⟨vs, hvs, hviews⟩ := Option.bind_eq_some_iff.mp hviews
    cases hviews
    obtain ⟨v', hv', hstores⟩ := h.1.onHost.stores h.1.populated
    rw [hv] at hv'
    cases hv'
    exact .cons hstores (ih h.2 hvs)

end Argument

namespace View

/-- The element of a product of many tensors, taken from the left. -/
theorem read_foldl_combine (f : Nat → Nat → Nat) (v : View) (ws : List View) (idx : List Nat) :
    (ws.foldl (combine f) v).read idx =
      ws.foldl (fun acc w => f acc (w.read idx)) (v.read idx) := by
  induction ws generalizing v with
  | nil => rfl
  | cons w ws ih => exact ih (v.combine f w)

end View

namespace Operator

variable {op : Operator} {shapes shapes' : List Shape} {t : Shape} {views : List View} {v : View}

theorem forwardsLayout_of_isCompute (h : op.isCompute = true) : op.forwardsLayout = false := by
  cases op <;> first | rfl | cases h

theorem isTransfer_of_isCompute (h : op.isCompute = true) : op.isTransfer = false := by
  cases op <;> first | rfl | cases h

theorem isReshape_of_isCompute (h : op.isCompute = true) : Program.isReshape op = false := by
  cases op <;> first | rfl | cases h

theorem Roomy.relaid (h : op.Roomy shapes) (hs : List.Forall₂ Shape.Relaid shapes shapes') :
    op.Roomy shapes' := by
  cases op with
  | convolution c =>
    cases hs with
    | nil => exact trivial
    | cons hs _ =>
      have hroom : _ ∧ _ := h
      rw [hs.2] at hroom
      exact hroom
  | _ => exact trivial

/-- The elements of a matrix product: scaled and rounded once, after a sum of products from the
first to the last. -/
theorem denote_gemm {factor : Nat} (h : Infers (.gemm factor) shapes t)
    (hv : View.Shaped shapes views) (hd : (gemm factor).denote t views = some v) :
    ∃ num x y m k n, t.dtype.arithmetic = some num ∧ views = [x, y] ∧ x.lens = [m, k] ∧
      y.lens = [k, n] ∧ t.lens = [m, n] ∧ ∀ i j, v.read [i, j] =
        num.narrow (Format.double.mul ((List.range k).foldl (fun acc l =>
          Format.double.add acc (Format.double.mul (num.widen (x.read [i, l]))
            (num.widen (y.read [l, j])))) Format.double.negativeZero)
          (Format.convert .single .double factor)) := by
  obtain ⟨num, hnum⟩ := exists_arithmetic (h.isFloat rfl Operator.noConfusion).1
  rw [denote_of_arithmetic rfl Operator.noConfusion hnum] at hd
  cases h with
  | gemm factor hf hdt ha hb ht =>
    obtain _ | ⟨hx, _ | ⟨hy, _ | _⟩⟩ := hv
    cases hd
    refine ⟨num, _, _, _, _, _, hnum, rfl, hx.trans ha, hy.trans hb, Shape.lens_of_standard ht,
      fun i j => ?_⟩
    show num.narrow (Format.double.mul (View.rowByColumn num _ _ i j) _) = _
    unfold View.rowByColumn
    rw [hx, ha]
    rfl

/-- The elements of a product: from the first operand to the last. -/
theorem denote_mul (h : Infers .mul shapes t) (hd : mul.denote t views = some v) :
    ∃ num x ys, t.dtype.arithmetic = some num ∧ views = x :: ys ∧ ∀ idx, v.read idx =
      ys.foldl (fun acc y => num.mul acc (y.read idx)) (x.read idx) := by
  obtain ⟨num, hnum⟩ := exists_arithmetic (h.isFloat rfl Operator.noConfusion).1
  rw [denote_of_arithmetic rfl Operator.noConfusion hnum] at hd
  match views, hd with
  | x :: y :: ys, hd =>
    cases hd
    exact ⟨num, x, y :: ys, hnum, rfl, View.read_foldl_combine num.mul x (y :: ys)⟩

end Operator

namespace Kernel

open Operator (Infers)

variable {op : Operator} {key : Nat} {args : List Argument} {t : Shape} {views : List View}
variable {v : View} {r : Argument}

/-- What is computed is put into a buffer of its own. -/
theorem exists_ofTensor_of_onHost (hc : op.isCompute = true)
    (h : onHost key op t args = .value r) : ∃ d tensor, Argument.ofTensor key d tensor = some r := by
  unfold onHost at h
  cases op with
  | literal | parameter | reshape | transpose | hostToDevice | deviceToHost => cases hc
  | contiguous =>
    cases args with
    | nil => cases h
    | cons a as =>
      obtain ⟨u, -, h⟩ := Outcome.bind_eq_value.mp h
      exact ⟨_, _, Outcome.ofOption_eq_value.mp h⟩
  | _ =>
    dsimp only at h
    split at h
    · obtain ⟨us, -, h⟩ := Outcome.bind_eq_value.mp h
      obtain ⟨tensor, -, h⟩ := Outcome.bind_eq_value.mp h
      exact ⟨_, _, Outcome.ofOption_eq_value.mp h⟩
    · cases h

theorem not_sharesStorage_of_onHost (hc : op.isCompute = true)
    (h : onHost key op t args = .value r) {a : Argument} (ha : a.Apart key) :
    r.sharesStorage a = false := by
  obtain ⟨d, tensor, hr⟩ := exists_ofTensor_of_onHost hc h
  obtain ⟨s, -, -, rfl⟩ := Argument.ofTensor_eq_some.mp hr
  unfold Argument.sharesStorage
  cases hst : a.storage with
  | none => rfl
  | some st =>
    cases st with
    | host b => exact decide_eq_false (Ne.symm (ha b hst))
    | device b => rfl

/-- A kernel gives what its operator denotes, laid out afresh. -/
theorem onHost_laidOut (h : Infers op (args.map Argument.shape) t) (hc : op.isCompute = true)
    (hread : ∀ a ∈ args, a.Readable ∧ a.Apart key) (ht : t.Addressable) (hhold : t.Holdable)
    (hroom : op.Roomy (args.map Argument.shape)) (hviews : args.mapM Argument.tensor? = some views)
    (hd : op.denote t views = some v) :
    ∃ r, onHost key op t args = .value r ∧ r.LaidOut t v args := by
  have hpopulated : ∀ s ∈ args.map Argument.shape, s.Populated := by
    rw [List.forall_mem_map]
    exact fun a ha => (hread a ha).1.populated
  have haddressable : ∀ s ∈ args.map Argument.shape, s.Addressable := by
    rw [List.forall_mem_map]
    exact fun a ha => (hread a ha).1.addressable
  have hpt : t.Populated := h.populated_of_isCompute hc hpopulated
  have hstored := Argument.stored_of_readable (fun a ha => (hread a ha).1) hviews
  have hends : (onHost key op t args).Ends True (·.Stores t v) :=
    onHost_ends key h (Operator.isParameter_of_isCompute hc)
      (Operator.isTransfer_of_isCompute hc) hstored hpopulated hpt
      (fun l hl => by rw [hl] at hc; cases hc)
      (fun hr => absurd hr (by rw [Operator.isReshape_of_isCompute hc]; exact Bool.false_ne_true))
      (fun _ => ⟨ht, hroom⟩) (fun _ _ => hhold) (fun _ => haddressable) hd
  obtain ⟨r, hr, hstores⟩ := hends.eq_value_of_fits trivial
  refine ⟨r, hr, hstores.shape, h.isStandard hc, ?_,
    fun a ha => not_sharesStorage_of_onHost hc hr (hread a ha).2⟩
  have helements : (r.elementsAs t.dtype).Ends True (· = v.elements) :=
    hstores.elementsAs_ends (fun _ => ht) fun _ => hhold.listable
  obtain ⟨_, hes, rfl⟩ := helements.eq_value_of_fits trivial
  exact hes

end Kernel

/-- Kernels depend on the elements of their operands and on nothing else of them.  Over two lists
of operands that are the same tensors, in whatever layout, the operator infers one shape and gives
one list of elements, in row-major order, under that shape and over new storage, where memory holds
it.  Each element of a matrix product is the scaled sum of products from the first to the last, and
each element of a product is taken from the first operand to the last. -/
theorem onHost_of_sameTensor (op : Operator) (args args' : List Argument) (t : Shape)
    (key key' : Nat) (hc : op.isCompute = true)
    (hinfer : op.infer (args.map Argument.shape) = .value t)
    (hsame : List.Forall₂ Argument.SameTensor args args')
    (hread : ∀ a ∈ args, a.Readable ∧ a.Apart key)
    (hread' : ∀ a ∈ args', a.Readable ∧ a.Apart key') (ht : t.Addressable) (hhold : t.Holdable)
    (hroom : op.Roomy (args.map Argument.shape)) :
    op.infer (args'.map Argument.shape) = .value t ∧
      ∃ views v r r', args.mapM Argument.tensor? = some views ∧
        Kernel.onHost key op t args = .value r ∧ r.LaidOut t v args ∧
        Kernel.onHost key' op t args' = .value r' ∧ r'.LaidOut t v args' ∧
        op.denote t views = some v ∧ v.lens = t.lens ∧
        (∀ factor, op = .gemm factor → ∃ num x y m k n, t.dtype.arithmetic = some num ∧
          views = [x, y] ∧ x.lens = [m, k] ∧ y.lens = [k, n] ∧ t.lens = [m, n] ∧
          ∀ i j, v.read [i, j] =
            num.narrow (Format.double.mul ((List.range k).foldl (fun acc l =>
              Format.double.add acc (Format.double.mul (num.widen (x.read [i, l]))
                (num.widen (y.read [l, j])))) Format.double.negativeZero)
              (Format.convert .single .double factor))) ∧
        (op = .mul → ∃ num x ys, t.dtype.arithmetic = some num ∧ views = x :: ys ∧
          ∀ idx, v.read idx = ys.foldl (fun acc y => num.mul acc (y.read idx)) (x.read idx)) := by
  have hinfers := Operator.infer_eq_value.mp hinfer
  have hrelaid := Argument.relaid_of_sameTensor hsame
  have hinfers' := hinfers.relaid (Operator.forwardsLayout_of_isCompute hc) hrelaid
  obtain ⟨views, views', hviews, hviews', hall⟩ := Argument.exists_agreeing hsame
  have hstored := Argument.stored_of_readable (fun a ha => (hread a ha).1) hviews
  obtain ⟨v, hv, hlens⟩ := Operator.exists_denote hinfers (Operator.isParameter_of_isCompute hc)
    hstored.shaped
  obtain ⟨v', hv', hagrees⟩ := Operator.denote_congr hinfers hstored.shaped hall hv
  obtain ⟨r, hr, hlaid⟩ := Kernel.onHost_laidOut hinfers hc hread ht hhold hroom hviews hv
  obtain ⟨r', hr', hlaid'⟩ :=
    Kernel.onHost_laidOut hinfers' hc hread' ht hhold (hroom.relaid hrelaid) hviews' hv'
  refine ⟨Operator.infer_eq_value.mpr hinfers', views, v, r, r', hviews, hr, hlaid, hr',
    hlaid'.congr hagrees.symm, hv, hlens, ?_, ?_⟩
  · rintro factor rfl
    exact Operator.denote_gemm hinfers hstored.shaped hv
  · rintro rfl
    exact Operator.denote_mul hinfers hv

def rowMajorFactors : List Argument :=
  [⟨⟨.float, [⟨2, 2⟩, ⟨2, 1⟩]⟩, some (.host (.ofBytes 0 (Bytes.ofWords 4
      [0x3f800000, 0x40000000, 0x3f800000, 0x40000000])))⟩,
    ⟨⟨.float, [⟨2, 1⟩, ⟨1, 1⟩]⟩, some (.host (.ofBytes 1 (Bytes.ofWords 4
      [0x40400000, 0x40800000])))⟩]

def stridedFactors : List Argument :=
  [⟨⟨.float, [⟨2, 0⟩, ⟨2, 1⟩]⟩, some (.host (.ofBytes 2 (Bytes.ofWords 4
      [0x3f800000, 0x40000000])))⟩,
    ⟨⟨.float, [⟨2, 2⟩, ⟨1, 1⟩]⟩, some (.host (.ofBytes 3 (Bytes.ofWords 4
      [0x40400000, 0x3f800000, 0x40800000])))⟩]

theorem readable_rowMajorFactors : ∀ a ∈ rowMajorFactors, a.Readable ∧ a.Apart 4 :=
  Argument.readable_pair (by unfold Shape.Populated; decide) (by decide) (by decide) (by decide)

theorem readable_stridedFactors : ∀ a ∈ stridedFactors, a.Readable ∧ a.Apart 5 :=
  Argument.readable_pair (by unfold Shape.Populated; decide) (by decide) (by decide) (by decide)

/-- The product of the two factors is the same one, whichever way they are laid out. -/
theorem onHost_of_sameTensor_gemm : ∃ t v r r',
    (Operator.gemm 0x3f800000).infer (rowMajorFactors.map Argument.shape) = .value t ∧
    (Operator.gemm 0x3f800000).infer (stridedFactors.map Argument.shape) = .value t ∧
    Kernel.onHost 4 (.gemm 0x3f800000) t rowMajorFactors = .value r ∧
    r.LaidOut t v rowMajorFactors ∧
    Kernel.onHost 5 (.gemm 0x3f800000) t stridedFactors = .value r' ∧
    r'.LaidOut t v stridedFactors := by
  have hsame : List.Forall₂ Argument.SameTensor rowMajorFactors stridedFactors :=
    .cons (Argument.sameTensor_of_elements rfl rfl rfl rfl (by decide))
      (.cons (Argument.sameTensor_of_elements rfl rfl rfl rfl (by decide)) .nil)
  have hinfer : (Operator.gemm 0x3f800000).infer (rowMajorFactors.map Argument.shape) =
      .value ⟨.float, [⟨2, 1⟩, ⟨1, 1⟩]⟩ := by rfl
  obtain ⟨hinfer', views, v, r, r', -, hr, hlaid, hr', hlaid', -⟩ :=
    onHost_of_sameTensor (.gemm 0x3f800000) rowMajorFactors stridedFactors _ 4 5 rfl hinfer hsame
      readable_rowMajorFactors readable_stridedFactors (by decide) (by decide) trivial
  exact ⟨_, v, r, r', hinfer, hinfer', hr, hlaid, hr', hlaid'⟩

end TensorGraph
