/-
Elements that are stored and read back.

Elements are encoded in row-major order and decoded wherever the strides lead, so that they
survive rests on `offset_of_isStandard`: a row-major shape finds each element at its row-major
position.  Nothing here asks that extents are positive, for a tensor without elements survives as
well; what has to hold is that the shape is `Addressable`, since the array view that reads storage
is not formed otherwise, and that memory holds the list that is read (`Listable`) and the buffer
that is made (`Holdable`).

The result is `survives_storage`: what is put into storage comes back, what other strides show of
a buffer is what the offsets say, and both go through row-major storage unchanged.
-/
import TensorGraph.Proofs.Storage.Backed

namespace TensorGraph

/-! ## Extents that may be zero -/

theorem prod_filter_cons {n : Nat} (hn : 0 < n) (ns : List Nat) :
    ((n :: ns).filter (· ≠ 0)).prod = n * (ns.filter (· ≠ 0)).prod := by
  have hkept : decide (n ≠ 0) = true := decide_eq_true (Nat.pos_iff_ne_zero.mp hn)
  rw [List.filter_cons_of_pos (p := fun m => decide (m ≠ 0)) hkept, List.prod_cons]

theorem prod_filter_pos (ns : List Nat) : 0 < (ns.filter (· ≠ 0)).prod :=
  List.prod_pos fun _ hm => Nat.pos_iff_ne_zero.mpr (of_decide_eq_true (List.mem_filter.mp hm).2)

theorem prod_le_prod_filter (ns : List Nat) : ns.prod ≤ (ns.filter (· ≠ 0)).prod := by
  by_cases hall : ∀ n ∈ ns, n ≠ 0
  · rw [List.filter_eq_self.mpr fun n hn => decide_eq_true (hall n hn)]
  · push Not at hall
    obtain ⟨n, hn, rfl⟩ := hall
    rw [List.prod_eq_zero hn]
    exact Nat.zero_le _

/-- A product is a word if the factors other than zero have one that is. -/
theorem Word.productFrom_of_filter_le {acc : Nat} {ns : List Nat}
    (h : acc * (ns.filter (· ≠ 0)).prod ≤ maxUnsigned) :
    productFrom acc ns = some (acc * ns.prod) := by
  induction ns generalizing acc with
  | nil => rw [productFrom_nil, List.prod_nil, Nat.mul_one]
  | cons n ns ih =>
    rw [productFrom_cons, List.prod_cons, ← Nat.mul_assoc, mul]
    rcases Nat.eq_zero_or_pos n with rfl | hn
    · rw [Nat.mul_zero, fit_of_le (Nat.zero_le _)]
      exact ih (by rw [Nat.zero_mul]; exact Nat.zero_le _)
    · rw [prod_filter_cons hn, ← Nat.mul_assoc] at h
      rw [fit_of_le ((Nat.le_mul_of_pos_right _ (prod_filter_pos ns)).trans h)]
      exact ih h

/-- Row-major axes exist as soon as the product of the other extents than zero is a word. -/
theorem Axis.rowMajorWithCount_of_filter_le {lens : List Nat}
    (h : (lens.filter (· ≠ 0)).prod ≤ Word.maxUnsigned) :
    ∃ axes, rowMajorWithCount lens = some (axes, lens.prod) := by
  induction lens with
  | nil => exact ⟨[], rfl⟩
  | cons n ns ih =>
    have hns : (ns.filter (· ≠ 0)).prod ≤ ((n :: ns).filter (· ≠ 0)).prod := by
      rcases Nat.eq_zero_or_pos n with rfl | hn
      · rfl
      · rw [prod_filter_cons hn]
        exact Nat.le_mul_of_pos_left _ hn
    obtain ⟨axes, hr⟩ := ih (hns.trans h)
    have hfit : ns.prod * n ≤ Word.maxUnsigned := by
      rw [Nat.mul_comm, ← List.prod_cons]
      exact (prod_le_prod_filter _).trans h
    refine ⟨⟨n, ns.prod⟩ :: axes, ?_⟩
    rw [rowMajorWithCount_cons, hr, Option.bind_some, Word.mul, Word.fit_of_le hfit,
      Option.bind_some, List.prod_cons, Nat.mul_comm]

/-- No row-major stride is longer than the whole. -/
theorem Axis.stride_le_of_rowMajorWithCount {lens : List Nat} {axes : List Axis} {count : Nat}
    (h : rowMajorWithCount lens = some (axes, count)) (hpos : ∀ n ∈ lens, 0 < n) :
    ∀ a ∈ axes, a.stride ≤ lens.prod := by
  induction lens generalizing axes count with
  | nil =>
    cases h
    exact fun _ ha => nomatch ha
  | cons n ns ih =>
    obtain ⟨tail, inner, hr, -, rfl⟩ := rowMajorWithCount_cons_eq_some.mp h
    have hle : ns.prod ≤ (n :: ns).prod := by
      rw [List.prod_cons]
      exact Nat.le_mul_of_pos_left _ (hpos n List.mem_cons_self)
    rw [List.forall_mem_cons]
    refine ⟨(count_rowMajorWithCount hr).trans_le hle, fun a ha => ?_⟩
    exact (ih hr (fun m hm => hpos m (List.mem_cons_of_mem _ hm)) a ha).trans hle

namespace Shape

variable {s t : Shape} {permutation : List Nat} {size : Nat}

instance (s : Shape) : Decidable s.Addressable := inferInstanceAs (Decidable (_ = true))

theorem Addressable.count_le (h : s.Addressable) :
    (s.lens.filter (· ≠ 0)).prod ≤ Word.maxUnsigned :=
  h.bounds.1.trans (by decide)

theorem Addressable.elements (h : s.Addressable) : s.elements = some s.lens.prod := by
  unfold Shape.elements Word.product
  rw [Word.productFrom_of_filter_le (by rw [Nat.one_mul]; exact h.count_le), Nat.one_mul]

theorem Addressable.exists_storageBytes (h : s.Addressable) : ∃ n, s.storageBytes = some n := by
  by_cases hp : s.Populated
  · exact ⟨_, h.storageBytes hp⟩
  · exact ⟨0, storageBytes_of_not_populated hp⟩

/-- Row-major storage holds its elements and nothing else. -/
theorem storageBytes_of_isStandard (h : s.isStandard = some true) (ha : s.Addressable) :
    s.storageBytes = some (s.lens.prod * s.dtype.size) := by
  by_cases hp : s.Populated
  · rw [ha.storageBytes hp, space_of_isStandard h hp]
  · rw [storageBytes_of_not_populated hp]
    unfold Populated at hp
    push Not at hp
    obtain ⟨n, hn, hzero⟩ := hp
    rw [List.prod_eq_zero (Nat.le_zero.mp hzero ▸ hn), Nat.zero_mul]

/-- Elements that fit into memory are addressed in row-major order. -/
theorem addressable_of_standard {d : Dtype} {lens : List Nat} (hs : standard d lens = some s)
    (hpos : ∀ n ∈ lens, 0 < n) (hfit : lens.prod * d.size ≤ Word.maxSigned) : s.Addressable := by
  have hlens : s.lens = lens := lens_of_standard hs
  have hspace : s.space = lens.prod := space_of_standard hs hpos
  have hprod : lens.prod ≤ Word.maxSigned := (Nat.le_mul_of_pos_right _ d.size_pos).trans hfit
  have hfilter : lens.filter (· ≠ 0) = lens :=
    List.filter_eq_self.mpr fun n hn => decide_eq_true (Nat.pos_iff_ne_zero.mp (hpos n hn))
  obtain ⟨axes, ha, rfl⟩ := standard_eq_some.mp hs
  obtain ⟨count, hr⟩ := Axis.rowMajor_eq_some.mp ha
  unfold Addressable isAddressable
  rw [Bool.and_eq_true, Bool.and_eq_true, decide_eq_true_iff, decide_eq_true_iff, List.all_eq_true,
    hlens, hfilter]
  refine ⟨⟨fun a hm => decide_eq_true ?_, hprod⟩, le_trans ?_ hfit⟩
  · exact (Axis.stride_le_of_rowMajorWithCount hr hpos a hm).trans hprod
  · refine Nat.mul_le_mul_right _ ?_
    rw [← hspace]
    exact Nat.le_succ _

theorem Addressable.permute (hp : Operator.isPermutation s.rank permutation = true)
    (h : s.permute permutation = some t) (ha : s.Addressable) : t.Addressable := by
  have hperm := axes_permute_perm hp h
  have hlens : (t.lens.filter (· ≠ 0)).prod = (s.lens.filter (· ≠ 0)).prod :=
    ((hperm.map Axis.extent).filter _).prod_eq
  have hreach : (t.axes.map Axis.reach).sum = (s.axes.map Axis.reach).sum :=
    (hperm.map Axis.reach).sum_eq
  unfold Addressable isAddressable at ha ⊢
  rw [(permute_eq_some.mp h).1, hlens, hreach, hperm.all_eq]
  exact ha

theorem storageBytes_permute (hp : Operator.isPermutation s.rank permutation = true)
    (h : s.permute permutation = some t) : t.storageBytes = s.storageBytes := by
  have hd := (permute_eq_some.mp h).1
  by_cases hs : s.Populated
  · rw [storageBytes_eq_fit hs, storageBytes_eq_fit (populated_permute hp h hs), hd,
      space_permute hp h]
  · have ht : ¬t.Populated := fun ht => hs fun n hn =>
      ht n (((axes_permute_perm hp h).map Axis.extent).mem_iff.mpr hn)
    rw [storageBytes_of_not_populated hs, storageBytes_of_not_populated ht]

end Shape

/-! ## Row-major storage -/

/-- Elements written in row-major order are those that a row-major shape reads. -/
theorem View.elements_ofWords {s : Shape} {es : List Nat} (h : s.isStandard = some true)
    (hlen : es.length = s.lens.prod) (hwords : ∀ x ∈ es, x < 256 ^ s.dtype.size) :
    (View.ofBytes s s.dtype.size (Bytes.ofWords s.dtype.size es)).elements = es := by
  have hread : ∀ idx ∈ Index.indices s.lens,
      Bytes.wordAt (Bytes.ofWords s.dtype.size es) (Index.offset idx s.axes * s.dtype.size)
        s.dtype.size = es.getD (Index.position idx s.lens) 0 := by
    intro idx hm
    have hi := Index.mem_indices.mp hm
    have hlt : Index.position idx s.lens < es.length := hlen ▸ Index.position_lt hi
    rw [Shape.offset_of_isStandard h hi, Bytes.wordAt_ofWords hlt,
      Nat.mod_eq_of_lt (hwords _ (List.getElem_mem hlt)), List.getD_eq_getElem?_getD,
      List.getElem?_eq_getElem hlt, Option.getD_some]
  calc (View.ofBytes s s.dtype.size (Bytes.ofWords s.dtype.size es)).elements
      = (Index.indices s.lens).map fun idx => es.getD (Index.position idx s.lens) 0 :=
        List.map_congr_left hread
    _ = (List.range es.length).map fun k => es.getD k 0 := by
        rw [hlen, ← Index.map_position_indices, List.map_map]
        rfl
    _ = es := by
        refine List.ext_getElem (by rw [List.length_map, List.length_range]) fun k _ hk => ?_
        rw [List.getElem_map, List.getElem_range, List.getD_eq_getElem?_getD,
          List.getElem?_eq_getElem hk, Option.getD_some]

/-- A host buffer that has room for a shape, at an address that is aligned for its type. -/
structure HostBuffer.Backs (b : HostBuffer) (s : Shape) : Prop where
  size : ∀ n, s.storageBytes = some n → n ≤ b.size
  address : b.address ≠ 0
  aligned : b.address % s.dtype.size = 0

namespace Argument

variable {s : Shape} {b : HostBuffer}

/-- A host argument is read at its own type as soon as its shape can be addressed. -/
theorem viewAs_onHost (h : s.Addressable) :
    viewAs ⟨s, some (.host b)⟩ s.dtype = .value (.ofBytes s s.dtype.size b.bytes) := by
  unfold viewAs
  rw [Outcome.require_pos rfl, Outcome.value_bind]
  exact if_pos h

/-- No array view is formed otherwise. -/
theorem elementsAs_of_not_addressable (h : ¬s.Addressable) (b : HostBuffer) :
    elementsAs ⟨s, some (.host b)⟩ s.dtype = .halted := by
  have hview : viewAs ⟨s, some (.host b)⟩ s.dtype = .halted := by
    unfold viewAs
    rw [Outcome.require_pos rfl, Outcome.value_bind]
    exact if_neg h
  unfold elementsAs
  rw [hview]
  rfl

theorem elementsAs_onHost (h : s.Addressable) (hlist : s.Listable) :
    elementsAs ⟨s, some (.host b)⟩ s.dtype =
      .value (View.ofBytes s s.dtype.size b.bytes).elements := by
  have hheld : (View.ofBytes s s.dtype.size b.bytes).held s.dtype.size =
      some (.ofBytes s s.dtype.size b.bytes) := View.held_of_isListable hlist
  unfold elementsAs
  rw [viewAs_onHost h, Outcome.value_bind, hheld]
  rfl

/-- There is no list of more elements than memory holds. -/
theorem elementsAs_of_not_listable (h : ¬s.Listable) (b : HostBuffer) :
    elementsAs ⟨s, some (.host b)⟩ s.dtype = .halted := by
  by_cases ha : s.Addressable
  · have hheld : (View.ofBytes s s.dtype.size b.bytes).held s.dtype.size = none := if_neg h
    unfold elementsAs
    rw [viewAs_onHost ha, Outcome.value_bind, hheld]
    rfl
  · exact elementsAs_of_not_addressable ha b

theorem make_of_backs (h : b.Backs s) {n : Nat} (hn : s.storageBytes = some n) :
    make s (.host b) = .value ⟨s, some (.host b)⟩ := by
  unfold make
  rw [hn, Outcome.lift_eq, Outcome.ofOption_some, Outcome.value_bind,
    Outcome.require_pos (show n ≤ (Storage.host b).size from h.size n hn), Outcome.value_bind]
  dsimp only
  rw [Outcome.require_pos ⟨h.address, h.aligned⟩]
  rfl

end Argument

/-! ## Row-major storage -/

namespace Shape

variable {s : Shape} {es : List Nat}

/-- Whether elements that are put over a shape in row-major order are read back from it. -/
def Restores (s : Shape) (es : List Nat) : Prop :=
  ∀ key, ∃ a, Argument.ofElements key s s.dtype es = .value a ∧ a.elementsAs s.dtype = .value es

theorem literal_ofElements (key : Nat) (h : s.isStandard = some true) (ha : s.Addressable)
    (hhold : s.Holdable) (hlen : es.length = s.lens.prod) :
    Literal.ofElements key s s.dtype es =
      .value ⟨s, .ofBytes key (Bytes.ofWords s.dtype.size es)⟩ := by
  unfold Literal.ofElements
  rw [Outcome.require_pos rfl, Outcome.value_bind, h, Outcome.lift_eq, Outcome.ofOption_some,
    Outcome.value_bind, Outcome.require_pos rfl, Outcome.value_bind, ha.elements, Outcome.lift_eq,
    Outcome.ofOption_some, Outcome.value_bind, Outcome.require_pos hlen, Outcome.value_bind,
    HostBuffer.ofElements_eq_some.mpr ⟨hlen ▸ hhold, rfl⟩]
  rfl

theorem restores_of_isStandard (h : s.isStandard = some true) (ha : s.Addressable)
    (hhold : s.Holdable) (hlen : es.length = s.lens.prod) (hwords : ∀ x ∈ es, x < 256 ^ s.dtype.size) :
    s.Restores es := by
  intro key
  refine ⟨.ofLiteral ⟨s, .ofBytes key (Bytes.ofWords s.dtype.size es)⟩, ?_, ?_⟩
  · unfold Argument.ofElements
    rw [literal_ofElements key h ha hhold hlen]
    rfl
  · refine (Argument.elementsAs_onHost ha hhold.listable).trans ?_
    exact congrArg Outcome.value (View.elements_ofWords h hlen hwords)

/-- The bytes of a literal of elements make an equal literal. -/
theorem same_ofBytes (h : s.isStandard = some true) (ha : s.Addressable) (hhold : s.Holdable)
    (hlen : es.length = s.lens.prod) (key : Nat) :
    ∃ l, Literal.ofElements key s s.dtype es = .value l ∧
      ∀ key', ∃ l', Literal.ofBytes key' s l.bytes = .value l' ∧ l'.same l = true := by
  have hsize : (Bytes.ofWords s.dtype.size es).size = s.lens.prod * s.dtype.size := by
    rw [Bytes.size_ofWords, hlen]
  refine ⟨_, literal_ofElements key h ha hhold hlen, fun key' => ?_⟩
  refine ⟨⟨s, .ofBytes key' (Bytes.ofWords s.dtype.size es)⟩, ?_, ?_⟩
  · unfold Literal.ofBytes
    rw [storageBytes_of_isStandard h ha, Outcome.lift_eq, Outcome.ofOption_some,
      Outcome.value_bind]
    exact congrArg (· >>= _) (Outcome.require_pos hsize _)
  · simp [Literal.same, Literal.bytes, HostBuffer.ofBytes]

end Shape

namespace View

variable {d : Dtype} {v : View}

/-- Whether a tensor is read back once it is laid out afresh: as elements put over the row-major
shape of its extents, and as an array.  Memory has to hold the buffer, and that shape has to be
addressable, which it then is when it has elements. -/
def Survives (d : Dtype) (v : View) : Prop :=
  ∃ r, Shape.standard d v.lens = some r ∧
    ((∀ n ∈ v.lens, 0 < n) → v.lens.prod * d.size ≤ Word.maxSigned → r.Addressable) ∧
    (r.Addressable → r.Holdable → r.Restores v.elements ∧
      ∀ key, ∃ a, Argument.ofTensor key d v.toTensor = some a ∧
        a.elementsAs d = .value v.elements)

theorem survives_of_count_le (h : (v.lens.filter (· ≠ 0)).prod ≤ Word.maxUnsigned)
    (hs : v.Storable d.size) : v.Survives d := by
  obtain ⟨axes, hr⟩ := Axis.rowMajorWithCount_of_filter_le h
  have hstandard : Shape.standard d v.lens = some ⟨d, axes⟩ :=
    Shape.standard_eq_some.mpr ⟨axes, Axis.rowMajor_eq_some.mpr ⟨_, hr⟩, rfl⟩
  have hlaid := Shape.isStandard_of_standard hstandard
  have hlen : v.elements.length = (Shape.mk d axes).lens.prod := by
    rw [length_elements, Shape.lens_of_standard hstandard]
  have hwords : ∀ x ∈ v.elements, x < 256 ^ d.size := by
    intro x hx
    obtain ⟨idx, -, rfl⟩ := List.mem_map.mp hx
    exact hs idx
  refine ⟨_, hstandard, Shape.addressable_of_standard hstandard, fun ha hhold =>
    ⟨Shape.restores_of_isStandard hlaid ha hhold hlen hwords, fun key => ?_⟩⟩
  refine ⟨⟨⟨d, axes⟩, some (.host (.ofBytes key (Bytes.ofWords d.size v.elements)))⟩, ?_, ?_⟩
  · have hfit : (v.elements.length * d.size + 7) / 8 * 8 ≤ Word.maxSigned := hlen ▸ hhold
    exact Argument.ofTensor_eq_some.mpr ⟨_, hstandard, hfit, rfl⟩
  · refine (Argument.elementsAs_onHost ha hhold.listable).trans (congrArg Outcome.value ?_)
    exact elements_ofWords hlaid hlen hwords

end View

/-! ## Any strides -/

namespace HostBuffer

variable {b : HostBuffer} {s t : Shape} {permutation : List Nat}

theorem Backs.within (h : b.Backs s) (ha : s.Addressable) {idx : List Nat}
    (hi : Index.Within idx s.lens) :
    Index.offset idx s.axes * s.dtype.size + s.dtype.size ≤ b.size := by
  obtain ⟨n, hn⟩ := ha.exists_storageBytes
  exact (Shape.backedBy_of_storageBytes hn (h.size n hn)).within idx hi

theorem Backs.permute (h : b.Backs s) (hp : Operator.isPermutation s.rank permutation = true)
    (ht : s.permute permutation = some t) : b.Backs t where
  size n hn := h.size n (Shape.storageBytes_permute hp ht ▸ hn)
  address := h.address
  aligned := (Shape.permute_eq_some.mp ht).1 ▸ h.aligned

end HostBuffer

/-- Elements survive storage, where memory holds them.  Over a row-major shape they come back as
they were given, and the bytes of their literal make an equal one.  Under any strides a buffer
shows the words at the offsets of the indices, all of them inside it; there is a list of them just
if memory holds one.  This tensor can be laid out afresh, and so can the one with permuted axes that
the same buffer shows. -/
theorem survives_storage (d : Dtype) :
    (∀ (s : Shape) (data : List Nat), s.dtype = d → s.isStandard = some true → s.Addressable →
      s.Holdable → data.length = s.lens.prod → (∀ x ∈ data, x < 256 ^ d.size) →
      s.Restores data ∧ ∀ key, ∃ l, Literal.ofElements key s d data = .value l ∧
        ∀ key', ∃ l', Literal.ofBytes key' s l.bytes = .value l' ∧ l'.same l = true) ∧
    ∀ (s : Shape) (b : HostBuffer), s.dtype = d → s.Addressable → b.Backs s →
      ∃ a v, Argument.make s (.host b) = .value a ∧ a.viewAs d = .value v ∧
        (∀ idx, Index.Within idx s.lens → Index.offset idx s.axes * d.size + d.size ≤ b.size) ∧
        (s.Listable → a.elementsAs d = .value ((Index.indices s.lens).map fun idx =>
          Bytes.wordAt b.bytes (Index.offset idx s.axes * d.size) d.size) ∧
          a.elementsAs d = .value v.elements) ∧
        (¬s.Listable → a.elementsAs d = .halted) ∧ v.Survives d ∧
        ∀ permutation, Operator.isPermutation s.rank permutation = true →
          ∃ t array w, s.permute permutation = some t ∧ a.withShape t = .value array ∧
            array.viewAs d = .value w ∧ w.Agrees (v.transposed permutation) ∧ w.Survives d := by
  refine ⟨?_, ?_⟩
  · rintro s data rfl hstd ha hhold hlen hwords
    exact ⟨Shape.restores_of_isStandard hstd ha hhold hlen hwords,
      Shape.same_ofBytes hstd ha hhold hlen⟩
  · rintro s b rfl ha hb
    obtain ⟨n, hn⟩ := ha.exists_storageBytes
    refine ⟨_, _, Argument.make_of_backs hb hn, Argument.viewAs_onHost ha,
      fun idx => hb.within ha, fun hlist => ⟨Argument.elementsAs_onHost ha hlist,
        Argument.elementsAs_onHost ha hlist⟩, fun hnot => Argument.elementsAs_of_not_listable hnot b,
      View.survives_of_count_le ha.count_le (View.storable_ofBytes _ _ _), ?_⟩
    intro permutation hp
    have ht := Shape.permute_of_isPermutation hp
    have hta := ha.permute hp ht
    have hnt := (Shape.storageBytes_permute hp ht).trans hn
    exact ⟨_, _, _, ht, Argument.make_of_backs (hb.permute hp ht) hnt, Argument.viewAs_onHost hta,
      View.ofBytes_transposed hp ht _ _,
      View.survives_of_count_le hta.count_le (View.storable_ofBytes _ _ _)⟩

/-- The first position of an axis of one lies at any stride, and the second rows of a shape with
gaps behind what is skipped, whichever axis is read first. -/
theorem survives_storage_with_gaps :
    (Shape.mk .int16 [⟨1, 9⟩, ⟨2, 2⟩, ⟨2, 1⟩]).Restores [1, 2, 65535, 4] ∧
      ∃ a t array, Argument.make ⟨.int16, [⟨2, 3⟩, ⟨2, 1⟩]⟩
          (.host (.ofBytes 0 #[1, 0, 2, 0, 9, 9, 3, 0, 4, 1])) = .value a ∧
        a.elementsAs .int16 = .value [1, 2, 3, 260] ∧
        Shape.permute ⟨.int16, [⟨2, 3⟩, ⟨2, 1⟩]⟩ [1, 0] = some t ∧ a.withShape t = .value array ∧
        array.elementsAs .int16 = .value [1, 3, 2, 260] := by
  obtain ⟨hrow, hstrided⟩ := survives_storage .int16
  obtain ⟨hrestores, -⟩ := hrow ⟨.int16, [⟨1, 9⟩, ⟨2, 2⟩, ⟨2, 1⟩]⟩ [1, 2, 65535, 4] rfl
    (by decide) (by decide) (by decide) (by decide) (by decide)
  obtain ⟨a, v, hmake, -, -, hlisted, -, -, hpermuted⟩ := hstrided ⟨.int16, [⟨2, 3⟩, ⟨2, 1⟩]⟩
    (.ofBytes 0 #[1, 0, 2, 0, 9, 9, 3, 0, 4, 1]) rfl (by decide)
    ⟨fun n hn => by cases hn; decide, by decide, by decide⟩
  obtain ⟨helements, -⟩ := hlisted (by decide)
  obtain ⟨t, array, w, ht, harray, -, -, -⟩ := hpermuted [1, 0] (by decide)
  refine ⟨hrestores, a, t, array, hmake, helements.trans (by rfl), ht, harray, ?_⟩
  cases hmake
  cases ht
  cases harray
  rfl

/-- The stride of an axis of one is never used, and yet it has to be a signed word: a tensor is
stored under a longer one, and no array view of it is formed.  And a stride of zero takes no
storage, however many elements it shows: a view of eight bytes is formed, and memory holds no list
of it. -/
theorem halted_of_unsigned_stride :
    ((Shape.mk .uint8 [⟨1, 2 ^ 63⟩]).isStandard = some true ∧
      (Shape.mk .uint8 [⟨1, 2 ^ 63⟩]).Populated ∧
      ∃ a, Argument.ofElements 0 ⟨.uint8, [⟨1, 2 ^ 63⟩]⟩ .uint8 [7] = .value a ∧
        a.elementsAs .uint8 = .halted) ∧
    (Shape.mk .double [⟨2 ^ 60, 0⟩]).Addressable ∧
      ∀ b : HostBuffer, Argument.elementsAs ⟨⟨.double, [⟨2 ^ 60, 0⟩]⟩, some (.host b)⟩ .double =
        .halted :=
  ⟨⟨by decide, fun _ hn => List.mem_singleton.mp hn ▸ Nat.one_pos, _, rfl, rfl⟩, by decide,
    Argument.elementsAs_of_not_listable (by decide)⟩

end TensorGraph
