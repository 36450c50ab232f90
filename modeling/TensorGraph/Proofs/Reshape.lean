/-
Reshapes.

A list of dimensions stands for extents: 0 keeps the extent of the input there and -1 leaves one
open.  `Reshape.filled` puts a number in the open place.  `Reshape.Resolvable` says without any
arithmetic of the reader when the dimensions fit an input: they are `Valid`, and filled in they
have as many elements, in exactly one way if there is an open place.  The reader works with 1 in
that place and divides; `existsUnique_mul_eq` is why that finds the number.

The result is `reshape_exact`, for every list of dimensions: it says which are accepted, which are
refused, and for which a size is formed that is no word.
-/
import TensorGraph.Proofs.Oversized

namespace TensorGraph

/-- A factor is determined by a product and the other factor exactly if that is not 0 and divides
the product. -/
theorem existsUnique_mul_eq {k m : Nat} : (∃! n, k * n = m) ↔ k ≠ 0 ∧ m % k = 0 := by
  constructor
  · rintro ⟨n, rfl, hunique⟩
    refine ⟨fun hk => ?_, Nat.mul_mod_right k n⟩
    subst hk
    have hnext : n + 1 = n := hunique (n + 1) (by simp only [Nat.zero_mul])
    omega
  · rintro ⟨hk, hmod⟩
    have hpos : 0 < k := Nat.pos_of_ne_zero hk
    refine ⟨m / k, Nat.mul_div_cancel' (Nat.dvd_of_mod_eq_zero hmod), fun n hn => ?_⟩
    rw [← hn, Nat.mul_div_cancel_left n hpos]

namespace Word

theorem product_eq_some_iff {lens : List Nat} {count : Nat} :
    product lens = some count ↔ ¬HeadTooLarge lens ∧ lens.prod = count := by
  rw [← product_eq_none]
  cases h : product lens with
  | none => exact ⟨(fun h => nomatch h), fun h => absurd rfl h.1⟩
  | some n =>
    rw [← product_eq_some h]
    exact ⟨fun h => ⟨(fun h => nomatch h), Option.some.inj h⟩, fun h => congrArg some h.2⟩

end Word

namespace Reshape

variable {s : Shape} {dims : List Int} {rank position n : Nat} {openAt : Option Nat} {d : Int}

/-- The extent that a dimension stands for, with `n` for an open one. -/
def extentOf (s : Shape) (n position : Nat) (d : Int) : Nat :=
  if d = 0 then s.lens.getD position 0 else if d = -1 then n else d.toNat

def filled (s : Shape) (dims : List Int) (n : Nat) : List Nat := dims.mapIdx (extentOf s n)

structure Valid (rank : Nat) (dims : List Int) : Prop where
  negative : ∀ d ∈ dims, d < 0 → d = -1
  single : dims.count (-1) ≤ 1
  kept : ∀ i, dims[i]? = some 0 → i < rank

/-- Whether dimensions stand for extents with as many elements as a shape has. -/
def Resolvable (s : Shape) (dims : List Int) : Prop :=
  Valid s.rank dims ∧
    if -1 ∈ dims then ∃! n, (filled s dims n).prod = s.lens.prod
    else (filled s dims 0).prod = s.lens.prod

/-- Whether a product of the extents that dimensions stand for is no word: one of the first
extents, multiplied up with 1 in the open place, or one of the last, which are the strides. -/
def Overflows (s : Shape) (dims : List Int) : Prop :=
  (Valid s.rank dims ∧ HeadTooLarge (filled s dims 1)) ∨
    Resolvable s dims ∧ ∃ n, (filled s dims n).prod = s.lens.prod ∧ TailTooLarge (filled s dims n)

/-! ## Reading dimensions one by one -/

/-- Whether dimensions can be read from a position on, if a place is open already. -/
structure ValidFrom (rank position : Nat) (openAt : Option Nat) (dims : List Int) : Prop where
  negative : ∀ d ∈ dims, d < 0 → d = -1
  single : dims.count (-1) + openAt.toList.length ≤ 1
  kept : ∀ i, dims[i]? = some 0 → position + i < rank

theorem validFrom_none : ValidFrom rank 0 none dims ↔ Valid rank dims := by
  refine ⟨fun h => ⟨h.negative, h.single, fun i hi => ?_⟩,
    fun h => ⟨h.negative, h.single, fun i hi => ?_⟩⟩
  · rw [← Nat.zero_add i]
    exact h.kept i hi
  · rw [Nat.zero_add]
    exact h.kept i hi

theorem kept_cons :
    (∀ i, (d :: dims)[i]? = some 0 → position + i < rank) ↔
      (d = 0 → position < rank) ∧ ∀ i, dims[i]? = some 0 → position + 1 + i < rank := by
  constructor
  · refine fun h => ⟨fun hd => h 0 (congrArg some hd), fun i hi => ?_⟩
    rw [Nat.add_right_comm]
    exact h (i + 1) hi
  · rintro ⟨hzero, hsucc⟩ i hi
    cases i with
    | zero => exact hzero (Option.some.inj hi)
    | succ i =>
      have hlt := hsucc i hi
      omega

theorem validFrom_cons : ValidFrom rank position openAt (d :: dims) ↔
    (d < 0 → d = -1) ∧ (d = 0 → position < rank) ∧ (d = -1 → openAt = none) ∧
      ValidFrom rank (position + 1) (if d = -1 then some position else openAt) dims := by
  have hsingle : (d :: dims).count (-1) + openAt.toList.length ≤ 1 ↔ (d = -1 → openAt = none) ∧
      dims.count (-1) + (if d = -1 then some position else openAt).toList.length ≤ 1 := by
    rw [List.count_cons]
    by_cases hd : d = -1
    · subst hd
      cases openAt <;> simp
    · simp [hd]
  constructor
  · intro h
    obtain ⟨hnegative, hrest⟩ := List.forall_mem_cons.mp h.negative
    obtain ⟨hopen, hcount⟩ := hsingle.mp h.single
    obtain ⟨hzero, hkept⟩ := kept_cons.mp h.kept
    exact ⟨hnegative, hzero, hopen, hrest, hcount, hkept⟩
  · rintro ⟨hnegative, hzero, hopen, h⟩
    exact ⟨List.forall_mem_cons.mpr ⟨hnegative, h.negative⟩, hsingle.mpr ⟨hopen, h.single⟩,
      kept_cons.mpr ⟨hzero, h.kept⟩⟩

def openPosition (position : Nat) (openAt : Option Nat) (dims : List Int) : Option Nat :=
  openAt.or ((dims.idxOf? (-1)).map (position + ·))

theorem openPosition_cons (hd : d ≠ -1) :
    openPosition position openAt (d :: dims) = openPosition (position + 1) openAt dims := by
  have hne : (d == -1) = false := beq_eq_false_iff_ne.mpr hd
  rw [openPosition, openPosition, List.idxOf?_cons, hne]
  cases dims.idxOf? (-1) with
  | none => rfl
  | some k =>
    show openAt.or (some (position + (k + 1))) = openAt.or (some (position + 1 + k))
    rw [Nat.add_comm k 1, Nat.add_assoc]

theorem mapIdx_extentOf_cons :
    ((d :: dims).mapIdx fun i => extentOf s n (position + i)) =
      extentOf s n position d :: dims.mapIdx fun i => extentOf s n (position + 1 + i) := by
  rw [List.mapIdx_cons]
  congr 2
  funext i
  rw [Nat.add_comm i 1, Nat.add_assoc]

theorem extent?_eq_ite (s : Shape) (position : Nat) :
    s.extent? position = if position < s.rank then some (s.lens.getD position 0) else none := by
  rw [Shape.extent?_eq, List.getD_eq_getElem?_getD]
  split
  case isTrue h =>
    rw [List.getElem?_eq_getElem (by rwa [Shape.length_lens])]
    rfl
  case isFalse h => exact List.getElem?_eq_none (by rw [Shape.length_lens]; omega)

/-- Reading dimensions succeeds on the valid ones, with 1 in the open place. -/
theorem resolveFrom_eq_value {all : List Int} {found : List Nat} {last : Option Nat} :
    Operator.resolveFrom s all position openAt dims = .value (found, last) ↔
      ValidFrom s.rank position openAt dims ∧
        found = (dims.mapIdx fun i => extentOf s 1 (position + i)) ∧
        last = openPosition position openAt dims := by
  induction dims generalizing position openAt found last with
  | nil =>
    refine ⟨fun h => ?_, fun h => ?_⟩
    · cases h
      refine ⟨⟨(fun _ hd => nomatch hd), ?_, (fun _ hi => nomatch hi)⟩, rfl,
        (Option.or_none).symm⟩
      cases openAt <;> simp
    · obtain ⟨-, rfl, rfl⟩ := h
      exact congrArg (fun o => Outcome.value ([], o)) (Option.or_none).symm
  | cons d ds ih =>
    have hstep : ∀ (openAt' : Option Nat) (n : Nat)
        (f : List Nat × Option Nat → Outcome (List Nat × Option Nat)),
        (∀ r, f r = .value (n :: r.1, r.2)) →
        ((Operator.resolveFrom s all (position + 1) openAt' ds >>= f) = .value (found, last) ↔
          ValidFrom s.rank (position + 1) openAt' ds ∧
            found = n :: (ds.mapIdx fun i => extentOf s 1 (position + 1 + i)) ∧
            last = openPosition (position + 1) openAt' ds) := by
      intro openAt' n f hf
      rw [Outcome.bind_eq_value, Prod.exists]
      simp only [hf, ih]
      constructor
      · rintro ⟨tail, last', ⟨hvalid, rfl, rfl⟩, h⟩
        cases h
        exact ⟨hvalid, rfl, rfl⟩
      · rintro ⟨hvalid, rfl, rfl⟩
        exact ⟨_, _, ⟨hvalid, rfl, rfl⟩, rfl⟩
    rw [validFrom_cons, mapIdx_extentOf_cons]
    unfold Operator.resolveFrom
    dsimp only
    by_cases hzero : d = 0
    · subst hzero
      rw [if_pos rfl, extent?_eq_ite, openPosition_cons (by decide)]
      by_cases hposition : position < s.rank
      · rw [if_pos hposition]
        refine (hstep openAt _ _ fun _ => rfl).trans ?_
        simp [extentOf, hposition]
      · rw [if_neg hposition]
        simp [hposition]
    · rw [if_neg hzero]
      by_cases hopen : d = -1 ∧ openAt = none
      · obtain ⟨rfl, rfl⟩ := hopen
        rw [if_pos ⟨rfl, rfl⟩]
        refine (hstep (some position) _ _ fun _ => rfl).trans ?_
        simp [extentOf, openPosition, List.idxOf?_cons]
      · rw [if_neg hopen]
        by_cases hpos : 0 < d
        · have hne : d ≠ -1 := by omega
          rw [if_pos hpos, openPosition_cons hne]
          refine (hstep openAt _ _ fun _ => rfl).trans ?_
          simp [extentOf, hzero, hne, Int.not_lt.mpr (Int.le_of_lt hpos)]
        · rw [if_neg hpos]
          constructor
          · intro h
            cases h
          · rintro ⟨⟨hnegative, -, hnone, -⟩, -⟩
            have hd : d = -1 := hnegative (by omega)
            exact absurd ⟨hd, hnone hd⟩ hopen

/-! ## The open place -/

theorem extentOf_open (s : Shape) (n position : Nat) : extentOf s n position (-1) = n := by
  rw [extentOf, if_neg (by decide), if_pos rfl]

theorem extentOf_of_ne (hd : d ≠ -1) (m n : Nat) :
    extentOf s m position d = extentOf s n position d := by
  rw [extentOf, extentOf, if_neg hd, if_neg hd]

theorem mapIdx_extentOf_of_notMem (h : -1 ∉ dims) (m n : Nat) :
    (dims.mapIdx fun i => extentOf s m (position + i)) =
      dims.mapIdx fun i => extentOf s n (position + i) := by
  refine List.mapIdx_eq_mapIdx_iff.mpr fun i hi => extentOf_of_ne (fun hd => h ?_) m n
  rw [← hd]
  exact List.getElem_mem hi

/-- Any number can be put into the open place afterwards. -/
theorem mapIdx_extentOf_set (hcount : dims.count (-1) ≤ 1) {k : Nat}
    (hk : dims.idxOf? (-1) = some k) (m n : Nat) :
    (dims.mapIdx fun i => extentOf s m (position + i)).set k n =
      dims.mapIdx fun i => extentOf s n (position + i) := by
  induction dims generalizing position k with
  | nil => cases hk
  | cons d ds ih =>
    rw [mapIdx_extentOf_cons, mapIdx_extentOf_cons]
    rw [List.idxOf?_cons] at hk
    rw [List.count_cons] at hcount
    by_cases hd : d = -1
    · subst hd
      rw [if_pos (by rfl)] at hk hcount
      cases hk
      have hnone : -1 ∉ ds := List.count_eq_zero.mp (by omega)
      rw [List.set_cons_zero, extentOf_open, mapIdx_extentOf_of_notMem hnone m n]
    · rw [if_neg (by rwa [beq_iff_eq])] at hk hcount
      obtain ⟨j, hj, rfl⟩ := Option.map_eq_some_iff.mp hk
      rw [List.set_cons_succ, ih hcount hj, extentOf_of_ne hd m n]

theorem filled_eq (s : Shape) (dims : List Int) (n : Nat) :
    filled s dims n = dims.mapIdx fun i => extentOf s n (0 + i) := by
  rw [filled]
  congr 1
  funext i
  rw [Nat.zero_add]

theorem filled_of_notMem (h : -1 ∉ dims) (m n : Nat) : filled s dims m = filled s dims n := by
  rw [filled_eq, filled_eq, mapIdx_extentOf_of_notMem h]

theorem filled_set (hcount : dims.count (-1) ≤ 1) {k : Nat} (hk : dims.idxOf? (-1) = some k)
    (m n : Nat) : (filled s dims m).set k n = filled s dims n := by
  rw [filled_eq, filled_eq, mapIdx_extentOf_set hcount hk]

theorem getElem?_filled {k : Nat} (hk : dims.idxOf? (-1) = some k) (n : Nat) :
    (filled s dims n)[k]? = some n := by
  obtain ⟨hlt, hd, -⟩ := List.idxOf?_eq_some_iff.mp hk
  rw [filled, List.getElem?_mapIdx, List.getElem?_eq_getElem hlt, hd, Option.map_some,
    extentOf_open]

/-- The number in the open place is a factor of the number of elements. -/
theorem prod_filled (hcount : dims.count (-1) ≤ 1) (hopen : -1 ∈ dims) (n : Nat) :
    (filled s dims n).prod = (filled s dims 1).prod * n := by
  obtain ⟨k, hk⟩ := Option.isSome_iff_exists.mp (List.isSome_idxOf?.mpr hopen)
  rw [← filled_set hcount hk 1 n, Operator.prod_set_of_one (getElem?_filled hk 1)]

/-! ## Resolving -/

theorem resolveFrom_start {found : List Nat} {last : Option Nat} :
    Operator.resolveFrom s dims 0 none dims = .value (found, last) ↔
      Valid s.rank dims ∧ found = filled s dims 1 ∧ last = dims.idxOf? (-1) := by
  have hlast : openPosition 0 none dims = dims.idxOf? (-1) := by
    rw [openPosition, Option.none_or]
    cases dims.idxOf? (-1) with
    | none => rfl
    | some k => exact congrArg some (Nat.zero_add k)
  rw [resolveFrom_eq_value, validFrom_none, filled_eq, hlast]

/-- What the reader of dimensions finds are the resolvable ones, as long as the product with 1 in
the open place is a word. -/
theorem resolves_iff_filled {lens : List Nat} {count : Nat} (hs : s.elements = some count) :
    Operator.Resolves dims s lens ↔ Resolvable s dims ∧ ¬HeadTooLarge (filled s dims 1) ∧
      ∃ n, lens = filled s dims n ∧ (filled s dims n).prod = s.lens.prod := by
  have hcount : s.lens.prod = count := (Shape.elements_eq_some hs).symm
  rw [Operator.resolves_iff, hcount]
  simp only [resolveFrom_start]
  by_cases hopen : -1 ∈ dims
  · obtain ⟨k, hk⟩ := Option.isSome_iff_exists.mp (List.isSome_idxOf?.mpr hopen)
    have hunique : Valid s.rank dims → ((∃! n, (filled s dims n).prod = count) ↔
        (filled s dims 1).prod ≠ 0 ∧ count % (filled s dims 1).prod = 0) := by
      intro hvalid
      rw [← existsUnique_mul_eq]
      exact existsUnique_congr fun n => by rw [prod_filled hvalid.single hopen n]
    unfold Resolvable
    rw [hk, if_pos hopen, hcount]
    constructor
    · rintro ⟨_, _, ⟨hvalid, rfl, rfl⟩, ⟨known, _, hknown, hne, hs', hmod, rfl⟩, _, hproduct, hs''⟩
      rw [hs] at hs' hs''
      cases hs'
      cases hs''
      obtain ⟨hhead, rfl⟩ := Word.product_eq_some_iff.mp hknown
      rw [filled_set hvalid.single hk] at hproduct ⊢
      exact ⟨⟨hvalid, (hunique hvalid).mpr ⟨hne, hmod⟩⟩, hhead, _, rfl,
        (Word.product_eq_some_iff.mp hproduct).2⟩
    · rintro ⟨⟨hvalid, hex⟩, hhead, n, rfl, hprod⟩
      obtain ⟨hne, hmod⟩ := (hunique hvalid).mp hex
      have hknown := Word.product_eq_some_iff.mpr ⟨hhead, rfl⟩
      have hn : count / (filled s dims 1).prod = n := by
        rw [← hprod, prod_filled hvalid.single hopen n,
          Nat.mul_div_cancel_left n (Nat.pos_of_ne_zero hne)]
      have hset : filled s dims n = (filled s dims 1).set k (count / (filled s dims 1).prod) := by
        rw [filled_set hvalid.single hk, hn]
      have hfits : ¬HeadTooLarge (filled s dims n) := by
        rw [hset]
        exact Operator.not_headTooLarge_set (getElem?_filled hk 1) hknown hne (Word.product_le hs)
      exact ⟨_, _, ⟨hvalid, rfl, rfl⟩, ⟨_, count, hknown, hne, hs, hmod, hset⟩, count,
        Word.product_eq_some_iff.mpr ⟨hfits, hprod⟩, hs⟩
  · have hnone : dims.idxOf? (-1) = none := List.idxOf?_eq_none_iff.mpr hopen
    unfold Resolvable
    rw [hnone, if_neg hopen]
    constructor
    · rintro ⟨_, _, ⟨hvalid, rfl, rfl⟩, rfl, _, hproduct, hs'⟩
      rw [hs] at hs'
      cases hs'
      obtain ⟨hhead, hprod⟩ := Word.product_eq_some_iff.mp hproduct
      have hzero : (filled s dims 0).prod = count := by rw [filled_of_notMem hopen 0 1, hprod]
      exact ⟨⟨hvalid, hzero.trans hcount.symm⟩, hhead, 1, rfl, hprod⟩
    · rintro ⟨⟨hvalid, -⟩, hhead, n, rfl, hprod⟩
      rw [filled_of_notMem hopen n 1] at hprod ⊢
      exact ⟨_, _, ⟨hvalid, rfl, rfl⟩, rfl, count,
        Word.product_eq_some_iff.mpr ⟨hhead, hprod⟩, hs⟩

/-- Inference of a reshape gives the row-major shape with the extents that the dimensions stand
for. -/
theorem infer_reshape_eq_value {t : Shape} {count : Nat} (hs : s.elements = some count) :
    (Operator.reshape dims).infer [s] = .value t ↔
      Resolvable s dims ∧ ¬HeadTooLarge (filled s dims 1) ∧
        ∃ n, (filled s dims n).prod = s.lens.prod ∧
          Shape.standard s.dtype (filled s dims n) = some t := by
  rw [Operator.infer_eq_value]
  constructor
  · intro h
    cases h with
    | reshape hr ht =>
      obtain ⟨hresolvable, hhead, n, rfl, hprod⟩ := (resolves_iff_filled hs).mp hr
      exact ⟨hresolvable, hhead, n, hprod, ht⟩
  · rintro ⟨hresolvable, hhead, n, hprod, ht⟩
    exact .reshape ((resolves_iff_filled hs).mpr ⟨hresolvable, hhead, n, rfl, hprod⟩) ht

theorem infer_reshape_eq_halted {count : Nat} (hs : s.elements = some count) :
    (Operator.reshape dims).infer [s] = .halted ↔ Overflows s dims := by
  have hinputs : ∀ x ∈ [s], x.elements.isSome = true := fun x hx => by
    rw [List.mem_singleton.mp hx, hs]
    rfl
  rw [Operator.infer_eq_halted hinputs]
  constructor
  · intro h
    cases h with
    | dimensions hfound hlarge =>
      obtain ⟨hvalid, rfl, -⟩ := resolveFrom_start.mp hfound
      exact .inl ⟨hvalid, hlarge⟩
    | reshape hr hlarge =>
      obtain ⟨hresolvable, -, n, rfl, hprod⟩ := (resolves_iff_filled hs).mp hr
      exact .inr ⟨hresolvable, n, hprod, hlarge⟩
  · rintro (⟨hvalid, hlarge⟩ | ⟨hresolvable, n, hprod, hlarge⟩)
    · exact .dimensions (resolveFrom_start.mpr ⟨hvalid, rfl, rfl⟩) hlarge
    · by_cases hhead : HeadTooLarge (filled s dims 1)
      · exact .dimensions (resolveFrom_start.mpr ⟨hresolvable.1, rfl, rfl⟩) hhead
      · exact .reshape ((resolves_iff_filled hs).mpr ⟨hresolvable, hhead, n, rfl, hprod⟩) hlarge

theorem Resolvable.exists_prod (h : Resolvable s dims) :
    ∃ n, (filled s dims n).prod = s.lens.prod := by
  obtain ⟨-, h⟩ := h
  split at h
  · exact h.exists
  · exact ⟨0, h⟩

/-- Extents that dimensions stand for can be counted if those of the input can. -/
theorem elements_of_infer {t : Shape} {count : Nat} (hs : s.elements = some count)
    (ht : (Operator.reshape dims).infer [s] = .value t) : t.elements = some count := by
  rw [Operator.infer_eq_value] at ht
  cases ht with
  | reshape hr ht =>
    obtain ⟨_, _, _, _, count', hproduct, hs'⟩ := Operator.resolves_iff.mp hr
    rw [hs] at hs'
    cases hs'
    rw [Shape.elements, Shape.lens_of_standard ht, hproduct]

end Reshape

/-- A reshape accepts exactly the resolvable lists of dimensions, over every input whose elements
can be counted.  It halts where a product of the extents that they stand for is no word.
Everywhere else it gives the row-major shape with those extents if there are such, of the type of
the input and with as many elements, and is refused as a mismatch of shapes if not. -/
theorem reshape_exact (dims : List Int) (s : Shape) (count : Nat) (hs : s.elements = some count) :
    ((Operator.reshape dims).infer [s] = .halted ↔ Reshape.Overflows s dims) ∧
    (¬Reshape.Overflows s dims →
      ((∃ t, (Operator.reshape dims).infer [s] = .value t) ↔ Reshape.Resolvable s dims) ∧
      (∀ t, (Operator.reshape dims).infer [s] = .value t →
        (∃ n, (Reshape.filled s dims n).prod = s.lens.prod ∧ t.lens = Reshape.filled s dims n) ∧
        t.dtype = s.dtype ∧ Shape.standard t.dtype t.lens = some t ∧ t.elements = some count) ∧
      (¬Reshape.Resolvable s dims → ∃ why,
        (Operator.reshape dims).infer [s] = .refused (.shape "reshape" why))) := by
  have hhalted : (Operator.reshape dims).infer [s] = .halted ↔ Reshape.Overflows s dims :=
    Reshape.infer_reshape_eq_halted hs
  refine ⟨hhalted, fun hfits => ⟨⟨?_, fun hr => ?_⟩, fun t ht => ?_, fun hr => ?_⟩⟩
  · rintro ⟨t, ht⟩
    exact ((Reshape.infer_reshape_eq_value hs).mp ht).1
  · obtain ⟨n, hprod⟩ := hr.exists_prod
    have hhead : ¬HeadTooLarge (Reshape.filled s dims 1) := fun h => hfits (.inl ⟨hr.1, h⟩)
    have htail : Shape.standard s.dtype (Reshape.filled s dims n) ≠ none := fun h =>
      hfits (.inr ⟨hr, n, hprod, Shape.standard_eq_none.mp h⟩)
    obtain ⟨t, ht⟩ := Option.ne_none_iff_exists'.mp htail
    exact ⟨t, (Reshape.infer_reshape_eq_value hs).mpr ⟨hr, hhead, n, hprod, ht⟩⟩
  · obtain ⟨-, -, n, hprod, hstandard⟩ := (Reshape.infer_reshape_eq_value hs).mp ht
    have hlens := Shape.lens_of_standard hstandard
    have hd := Shape.dtype_of_standard hstandard
    exact ⟨⟨n, hprod, hlens⟩, hd, by rw [hd, hlens, hstandard], Reshape.elements_of_infer hs ht⟩
  · cases h : (Operator.reshape dims).infer [s] with
    | value t => exact absurd ((Reshape.infer_reshape_eq_value hs).mp h).1 hr
    | refused e =>
      obtain ⟨why, rfl⟩ := Operator.infer_refused h
      exact ⟨why, rfl⟩
    | halted => exact absurd (hhalted.mp h) hfits

/-- An open place that is filled from the number of elements, and one in a tensor without elements,
where every number would do. -/
theorem reshape_exact_open :
    (Reshape.Resolvable ⟨.int32, [⟨2, 12⟩, ⟨3, 4⟩, ⟨4, 1⟩]⟩ [0, -1, 2] ∧
      ∃ t, (Operator.reshape [0, -1, 2]).infer [⟨.int32, [⟨2, 12⟩, ⟨3, 4⟩, ⟨4, 1⟩]⟩] = .value t ∧
        t.lens = [2, 6, 2] ∧ t.elements = some 24) ∧
    ¬Reshape.Resolvable ⟨.int32, [⟨0, 3⟩, ⟨3, 1⟩]⟩ [0, -1] ∧
      ∃ why, (Operator.reshape [0, -1]).infer [⟨.int32, [⟨0, 3⟩, ⟨3, 1⟩]⟩] =
        .refused (.shape "reshape" why) := by
  obtain ⟨hhalted, h⟩ := reshape_exact [0, -1, 2] ⟨.int32, [⟨2, 12⟩, ⟨3, 4⟩, ⟨4, 1⟩]⟩ 24
    (by rfl)
  obtain ⟨haccepted, hgives, -⟩ := h fun hlarge => nomatch hhalted.mpr hlarge
  obtain ⟨hhalted', h'⟩ := reshape_exact [0, -1] ⟨.int32, [⟨0, 3⟩, ⟨3, 1⟩]⟩ 0 (by rfl)
  obtain ⟨haccepted', -, hrefused'⟩ := h' fun hlarge => nomatch hhalted'.mpr hlarge
  have hnone : ¬Reshape.Resolvable ⟨.int32, [⟨0, 3⟩, ⟨3, 1⟩]⟩ [0, -1] := fun hr => by
    obtain ⟨t, ht⟩ := haccepted'.mpr hr
    cases ht
  have hvalue : (Operator.reshape [0, -1, 2]).infer [⟨.int32, [⟨2, 12⟩, ⟨3, 4⟩, ⟨4, 1⟩]⟩] =
      .value ⟨.int32, [⟨2, 12⟩, ⟨6, 2⟩, ⟨2, 1⟩]⟩ := by rfl
  exact ⟨⟨haccepted.mp ⟨_, hvalue⟩, _, hvalue, rfl, (hgives _ hvalue).2.2.2⟩, hnone,
    hrefused' hnone⟩

end TensorGraph
