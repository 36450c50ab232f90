/-
What shape inference accepts.

`Infers op inputs output` says that inputs of these shapes go together and give this output:
one constructor for each operator, each listing what the operator asks of its inputs.
`infer_eq_value` says that this is what `infer` decides.  Everything later that depends on
how a shape was inferred takes it apart by the constructors.

Only the layout of views and of transfers follows the layout of their input.  All other
outputs are row-major and depend on the extents alone, which is `infers_of_relaid`.
-/
import TensorGraph.Proofs.Ending
import TensorGraph.Proofs.Shape.Permute

namespace TensorGraph
namespace Operator

def Resolves (dims : List Int) (s : Shape) (lens : List Nat) : Prop := resolve dims s = .value lens

/-- Inputs of these shapes go together under the operator and give this output. -/
inductive Infers : Operator → List Shape → Shape → Prop
  | literal (l : Literal) : Infers (.literal l) [] l.shape
  | parameter (name : String) (s : Shape) : Infers (.parameter name s) [] s
  | elementary (fn : Elementary) {s t : Shape} : s.dtype.isFloat = true → s.asStandard = some t →
      Infers (.elementary fn) [s] t
  | add {a b t : Shape} : a.dtype.isFloat = true → b.dtype = a.dtype → b.lens = a.lens →
      a.asStandard = some t → Infers .add [a, b] t
  | mul {a b : Shape} {rest : List Shape} {t : Shape} : a.dtype.isFloat = true →
      (∀ s ∈ b :: rest, s.dtype = a.dtype ∧ s.lens = a.lens) → a.asStandard = some t →
      Infers .mul (a :: b :: rest) t
  | reshape {dims : List Int} {s : Shape} {lens : List Nat} {t : Shape} : Resolves dims s lens →
      Shape.standard s.dtype lens = some t → Infers (.reshape dims) [s] t
  | transpose {permutation : List Nat} {s t : Shape} : isPermutation s.rank permutation = true →
      s.permute permutation = some t → Infers (.transpose permutation) [s] t
  | contiguous {s t : Shape} : s.asStandard = some t → Infers .contiguous [s] t
  | gemm (factor : Nat) {a b : Shape} {m k n : Nat} {t : Shape} : a.dtype.isFloat = true →
      a.dtype = b.dtype → a.lens = [m, k] → b.lens = [k, n] →
      Shape.standard a.dtype [m, n] = some t → Infers (.gemm factor) [a, b] t
  | softmax {axis : Nat} {s t : Shape} : s.dtype.isFloat = true → axis < s.rank →
      s.asStandard = some t → Infers (.softmax axis) [s] t
  | convolution {c : Convolution} {x w : Shape} {batch channels height width banks : Nat}
      {kernelHeight kernelWidth rows columns : Nat} {t : Shape} : x.dtype.isFloat = true →
      x.dtype = w.dtype → x.lens = [batch, channels, height, width] →
      w.lens = [banks, channels, kernelHeight, kernelWidth] →
      c.outputHeight height kernelHeight = some (some rows) →
      c.outputWidth width kernelWidth = some (some columns) →
      Shape.standard x.dtype [batch, banks, rows, columns] = some t →
      Infers (.convolution c) [x, w] t
  | hostToDevice (s : Shape) : Infers .hostToDevice [s] s
  | deviceToHost (s : Shape) : Infers .deviceToHost [s] s

/-- The operator takes this many inputs. -/
inductive Takes : Operator → List Shape → Prop
  | literal (l : Literal) : Takes (.literal l) []
  | parameter (name : String) (s : Shape) : Takes (.parameter name s) []
  | elementary (fn : Elementary) (s : Shape) : Takes (.elementary fn) [s]
  | add (a b : Shape) : Takes .add [a, b]
  | mul (a b : Shape) (rest : List Shape) : Takes .mul (a :: b :: rest)
  | reshape (dims : List Int) (s : Shape) : Takes (.reshape dims) [s]
  | transpose (permutation : List Nat) (s : Shape) : Takes (.transpose permutation) [s]
  | contiguous (s : Shape) : Takes .contiguous [s]
  | gemm (factor : Nat) (a b : Shape) : Takes (.gemm factor) [a, b]
  | softmax (axis : Nat) (s : Shape) : Takes (.softmax axis) [s]
  | convolution (c : Convolution) (x w : Shape) : Takes (.convolution c) [x, w]
  | hostToDevice (s : Shape) : Takes .hostToDevice [s]
  | deviceToHost (s : Shape) : Takes .deviceToHost [s]

/-- Any other number of inputs is refused, whatever their shapes. -/
theorem takes_or_refused (op : Operator) (inputs : List Shape) :
    Takes op inputs ∨ ∃ why, op.infer inputs = .refused (.shape op.name why) :=
  match op, inputs with
  | .literal l, [] => Or.inl (.literal l)
  | .parameter name s, [] => Or.inl (.parameter name s)
  | .elementary fn, [s] => Or.inl (.elementary fn s)
  | .add, [a, b] => Or.inl (.add a b)
  | .mul, a :: b :: rest => Or.inl (.mul a b rest)
  | .reshape dims, [s] => Or.inl (.reshape dims s)
  | .transpose permutation, [s] => Or.inl (.transpose permutation s)
  | .contiguous, [s] => Or.inl (.contiguous s)
  | .gemm factor, [a, b] => Or.inl (.gemm factor a b)
  | .softmax axis, [s] => Or.inl (.softmax axis s)
  | .convolution c, [x, w] => Or.inl (.convolution c x w)
  | .hostToDevice, [s] => Or.inl (.hostToDevice s)
  | .deviceToHost, [s] => Or.inl (.deviceToHost s)
  -- no input where one is taken, and too few of them
  | .elementary _, [] | .add, [] | .add, [_] | .mul, [] | .mul, [_] | .reshape _, []
  | .transpose _, [] | .contiguous, [] | .gemm _, [] | .gemm _, [_] | .softmax _, []
  | .convolution _, [] | .convolution _, [_] | .hostToDevice, [] | .deviceToHost, []
  -- too many of them
  | .literal _, _ :: _ | .parameter .., _ :: _ | .elementary _, _ :: _ :: _
  | .add, _ :: _ :: _ :: _ | .reshape _, _ :: _ :: _ | .transpose _, _ :: _ :: _
  | .contiguous, _ :: _ :: _ | .gemm _, _ :: _ :: _ :: _ | .softmax _, _ :: _ :: _
  | .convolution _, _ :: _ :: _ :: _ | .hostToDevice, _ :: _ :: _ | .deviceToHost, _ :: _ :: _ =>
    Or.inr ⟨_, rfl⟩

theorem inferElementwise_eq_value {op : Operator} {a : Shape} {rest : List Shape} {t : Shape} :
    op.inferElementwise a rest = .value t ↔
      (∀ s ∈ rest, s.dtype = a.dtype ∧ s.lens = a.lens) ∧ a.asStandard = some t := by
  induction rest with
  | nil =>
    show Outcome.ofOption a.asStandard = .value t ↔ _
    rw [Outcome.ofOption_eq_value]
    exact ⟨fun h => ⟨fun _ hs => (nomatch hs), h⟩, fun h => h.2⟩
  | cons s rest ih =>
    show (Outcome.require _ _ >>= fun _ => inferElementwise op a rest) = .value t ↔ _
    rw [Outcome.bind_eq_value]
    simp only [Outcome.require_eq_value, ih, List.mem_cons, forall_eq_or_imp]
    exact ⟨fun ⟨_, hs, hr, ht⟩ => ⟨⟨hs, hr⟩, ht⟩, fun ⟨⟨hs, hr⟩, ht⟩ => ⟨(), hs, hr, ht⟩⟩

theorem requireFloat_eq_value {op : Operator} {s : Shape} {u : Unit} :
    op.requireFloat s = .value u ↔ s.dtype.isFloat = true := Outcome.require_eq_value

theorem liftM_eq_value {x : Option Shape} {t : Shape} :
    (liftM x : Outcome Shape) = .value t ↔ x = some t := Outcome.ofOption_eq_value

theorem infers_of_inferGemm {factor : Nat} {a b t : Shape}
    (h : (gemm factor).inferGemm a b = .value t) : Infers (.gemm factor) [a, b] t := by
  unfold inferGemm at h
  obtain ⟨_, hf, h⟩ := Outcome.bind_eq_value.mp h
  obtain ⟨_, hd, h⟩ := Outcome.bind_eq_value.mp h
  split at h
  · next m k l n ha hb =>
    obtain ⟨_, hk, ht⟩ := Outcome.bind_eq_value.mp h
    rw [← Outcome.require_eq_value.mp hk] at hb
    exact .gemm factor (requireFloat_eq_value.mp hf) (Outcome.require_eq_value.mp hd) ha hb
      (liftM_eq_value.mp ht)
  · cases h

theorem infers_of_inferConvolution {c : Convolution} {x w t : Shape}
    (h : (convolution c).inferConvolution c x w = .value t) : Infers (.convolution c) [x, w] t := by
  unfold inferConvolution at h
  obtain ⟨_, hf, h⟩ := Outcome.bind_eq_value.mp h
  split at h
  · next hx hw =>
    obtain ⟨_, hd, h⟩ := Outcome.bind_eq_value.mp h
    obtain ⟨_, hc, h⟩ := Outcome.bind_eq_value.mp h
    rw [← Outcome.require_eq_value.mp hc] at hw
    obtain ⟨rows?, hrows, h⟩ := Outcome.bind_eq_value.mp h
    obtain ⟨columns?, hcolumns, h⟩ := Outcome.bind_eq_value.mp h
    split at h
    · exact .convolution (requireFloat_eq_value.mp hf) (Outcome.require_eq_value.mp hd) hx hw
        (Outcome.ofOption_eq_value.mp hrows) (Outcome.ofOption_eq_value.mp hcolumns)
        (liftM_eq_value.mp h)
    · cases h
  · cases h

theorem infers_of_infer {op : Operator} {inputs : List Shape} {t : Shape}
    (h : op.infer inputs = .value t) : Infers op inputs t := by
  rcases takes_or_refused op inputs with htakes | ⟨why, hrefused⟩
  swap
  · rw [hrefused] at h
    cases h
  cases htakes with
  | literal l =>
    cases h
    exact .literal l
  | parameter name s =>
    cases h
    exact .parameter name _
  | elementary fn s =>
    obtain ⟨_, hf, h⟩ := Outcome.bind_eq_value.mp h
    exact .elementary fn (requireFloat_eq_value.mp hf) (liftM_eq_value.mp h)
  | add a b =>
    obtain ⟨_, hf, h⟩ := Outcome.bind_eq_value.mp h
    obtain ⟨hs, ht⟩ := inferElementwise_eq_value.mp h
    obtain ⟨hd, hl⟩ := hs b List.mem_cons_self
    exact .add (requireFloat_eq_value.mp hf) hd hl ht
  | mul a b rest =>
    obtain ⟨_, hf, h⟩ := Outcome.bind_eq_value.mp h
    obtain ⟨hs, ht⟩ := inferElementwise_eq_value.mp h
    exact .mul (requireFloat_eq_value.mp hf) hs ht
  | reshape dims s =>
    obtain ⟨lens, hr, h⟩ := Outcome.bind_eq_value.mp h
    exact .reshape hr (liftM_eq_value.mp h)
  | transpose permutation s =>
    obtain ⟨_, hp, h⟩ := Outcome.bind_eq_value.mp h
    exact .transpose (Outcome.require_eq_value.mp hp) (liftM_eq_value.mp h)
  | contiguous s => exact .contiguous (liftM_eq_value.mp h)
  | gemm factor a b => exact infers_of_inferGemm h
  | softmax axis s =>
    obtain ⟨_, hf, h⟩ := Outcome.bind_eq_value.mp h
    obtain ⟨_, ha, h⟩ := Outcome.bind_eq_value.mp h
    exact .softmax (requireFloat_eq_value.mp hf) (Outcome.require_eq_value.mp ha)
      (liftM_eq_value.mp h)
  | convolution c x w => exact infers_of_inferConvolution h
  | hostToDevice s =>
    cases h
    exact .hostToDevice _
  | deviceToHost s =>
    cases h
    exact .deviceToHost _

theorem Infers.infer_eq {op : Operator} {inputs : List Shape} {t : Shape}
    (h : Infers op inputs t) : op.infer inputs = .value t := by
  cases h with
  | literal l => rfl
  | parameter name s => rfl
  | elementary fn hf ht =>
    exact Outcome.bind_eq_value.mpr ⟨(), requireFloat_eq_value.mpr hf, liftM_eq_value.mpr ht⟩
  | add hf hd hl ht =>
    refine Outcome.bind_eq_value.mpr ⟨(), requireFloat_eq_value.mpr hf,
      inferElementwise_eq_value.mpr ⟨fun s hs => ?_, ht⟩⟩
    cases List.mem_singleton.mp hs
    exact ⟨hd, hl⟩
  | mul hf hs ht =>
    exact Outcome.bind_eq_value.mpr ⟨(), requireFloat_eq_value.mpr hf,
      inferElementwise_eq_value.mpr ⟨hs, ht⟩⟩
  | reshape hr ht => exact Outcome.bind_eq_value.mpr ⟨_, hr, liftM_eq_value.mpr ht⟩
  | transpose hp ht =>
    exact Outcome.bind_eq_value.mpr ⟨(), Outcome.require_eq_value.mpr hp, liftM_eq_value.mpr ht⟩
  | contiguous ht => exact liftM_eq_value.mpr ht
  | gemm factor hf hd ha hb ht =>
    show inferGemm _ _ _ = _
    unfold inferGemm
    rw [requireFloat_eq_value (u := ()) |>.mpr hf, Outcome.value_bind,
      Outcome.require_pos hd, Outcome.value_bind, ha, hb]
    exact Outcome.bind_eq_value.mpr ⟨(), Outcome.require_eq_value.mpr rfl, liftM_eq_value.mpr ht⟩
  | softmax hf ha ht =>
    exact Outcome.bind_eq_value.mpr ⟨(), requireFloat_eq_value.mpr hf,
      Outcome.bind_eq_value.mpr ⟨(), Outcome.require_eq_value.mpr ha, liftM_eq_value.mpr ht⟩⟩
  | convolution hf hd hx hw hrows hcolumns ht =>
    show inferConvolution _ _ _ _ = _
    unfold inferConvolution
    rw [requireFloat_eq_value (u := ()) |>.mpr hf, Outcome.value_bind, hx, hw]
    refine Outcome.bind_eq_value.mpr ⟨(), Outcome.require_eq_value.mpr hd,
      Outcome.bind_eq_value.mpr ⟨(), Outcome.require_eq_value.mpr rfl,
      Outcome.bind_eq_value.mpr ⟨_, Outcome.ofOption_eq_value.mpr hrows,
      Outcome.bind_eq_value.mpr ⟨_, Outcome.ofOption_eq_value.mpr hcolumns,
        liftM_eq_value.mpr ht⟩⟩⟩⟩
  | hostToDevice s => rfl
  | deviceToHost s => rfl

/-- Inference decides what the operators ask of their inputs. -/
theorem infer_eq_value {op : Operator} {inputs : List Shape} {t : Shape} :
    op.infer inputs = .value t ↔ Infers op inputs t := ⟨infers_of_infer, Infers.infer_eq⟩

theorem Infers.shape_of_literal {op : Operator} {inputs : List Shape} {t : Shape} {l : Literal}
    (h : Infers op inputs t) (hop : op = .literal l) : t = l.shape := by
  subst hop
  cases h
  rfl

theorem Infers.shape_of_parameter {op : Operator} {inputs : List Shape} {s t : Shape}
    {name : String} (h : Infers op inputs t) (hop : op = .parameter name s) : t = s := by
  subst hop
  cases h
  rfl

/-- A transfer has the shape of what it moves. -/
theorem Infers.inputs_eq_of_isTransfer {op : Operator} {inputs : List Shape} {t : Shape}
    (h : Infers op inputs t) (htransfer : op.isTransfer = true) : inputs = [t] := by
  cases h with
  | hostToDevice | deviceToHost => rfl
  | _ => cases htransfer

/-! ## Inputs in another layout -/

end Operator

def Shape.Relaid (s t : Shape) : Prop := s.dtype = t.dtype ∧ s.lens = t.lens

theorem Shape.Relaid.refl (s : Shape) : s.Relaid s := ⟨rfl, rfl⟩

theorem Shape.extent?_eq (s : Shape) (axis : Nat) : s.extent? axis = s.lens[axis]? := by
  rw [extent?, lens, List.getElem?_map]

theorem Shape.relaid_of_asStandard {s t : Shape} (h : s.asStandard = some t) : s.Relaid t :=
  ⟨(asStandard_eq_some h).2.symm, (asStandard_eq_some h).1.symm⟩

namespace Operator

variable {op : Operator} {dims : List Int} {s t : Shape} {lens : List Nat}

def forwardsLayout : Operator → Bool
  | transpose _ | hostToDevice | deviceToHost => true
  | _ => false

theorem resolveFrom_congr (h : s.lens = t.lens) (all : List Int) (position : Nat)
    (openAt : Option Nat) : resolveFrom s all position openAt dims =
      resolveFrom t all position openAt dims := by
  have hextent : ∀ k, s.extent? k = t.extent? k := fun k => by
    rw [Shape.extent?_eq, Shape.extent?_eq, h]
  induction dims generalizing position openAt with
  | nil => rfl
  | cons d ds ih =>
    unfold resolveFrom
    simp only [hextent, ih]

/-- Extents with the open one filled in from the number of elements. -/
def Completes (s : Shape) (found : List Nat) (openAt : Option Nat) (lens : List Nat) : Prop :=
  match openAt with
  | none => lens = found
  | some position => ∃ known count, Word.product found = some known ∧ known ≠ 0 ∧
      s.elements = some count ∧ count % known = 0 ∧ lens = found.set position (count / known)

theorem resolves_iff : Resolves dims s lens ↔ ∃ found openAt,
    resolveFrom s dims 0 none dims = .value (found, openAt) ∧ Completes s found openAt lens ∧
      ∃ count, Word.product lens = some count ∧ s.elements = some count := by
  have hcheck : ∀ found : List Nat, (do
      let product ← Word.product found
      let count ← s.elements
      Outcome.require (product = count) (.shape "reshape" (.reshapeCount count found))
      return found : Outcome (List Nat)) = .value lens ↔
        lens = found ∧ ∃ count, Word.product lens = some count ∧ s.elements = some count := by
    intro found
    constructor
    · intro h
      obtain ⟨product, hproduct, h⟩ := Outcome.bind_eq_value.mp h
      obtain ⟨count, hcount, h⟩ := Outcome.bind_eq_value.mp h
      obtain ⟨_, heq, h⟩ := Outcome.bind_eq_value.mp h
      cases h
      rw [Outcome.require_eq_value] at heq
      subst heq
      exact ⟨rfl, product, Outcome.ofOption_eq_value.mp hproduct,
        Outcome.ofOption_eq_value.mp hcount⟩
    · rintro ⟨rfl, count, hproduct, hcount⟩
      exact Outcome.bind_eq_value.mpr ⟨count, Outcome.ofOption_eq_value.mpr hproduct,
        Outcome.bind_eq_value.mpr ⟨count, Outcome.ofOption_eq_value.mpr hcount,
        Outcome.bind_eq_value.mpr ⟨(), Outcome.require_eq_value.mpr rfl, rfl⟩⟩⟩
  unfold Resolves resolve
  rw [Outcome.bind_eq_value]
  constructor
  · rintro ⟨⟨found, openAt⟩, hfound, h⟩
    refine ⟨found, openAt, hfound, ?_⟩
    cases openAt with
    | none => exact (hcheck found).mp h
    | some position =>
      obtain ⟨known, hknown, h⟩ := Outcome.bind_eq_value.mp h
      obtain ⟨_, hzero, h⟩ := Outcome.bind_eq_value.mp h
      obtain ⟨count, hcount, h⟩ := Outcome.bind_eq_value.mp h
      obtain ⟨_, hmod, h⟩ := Outcome.bind_eq_value.mp h
      obtain ⟨hlens, hsame⟩ := (hcheck _).mp h
      exact ⟨⟨known, count, Outcome.ofOption_eq_value.mp hknown, Outcome.require_eq_value.mp hzero,
        Outcome.ofOption_eq_value.mp hcount, Outcome.require_eq_value.mp hmod, hlens⟩, hsame⟩
  · rintro ⟨found, openAt, hfound, hcomplete, hsame⟩
    refine ⟨(found, openAt), hfound, ?_⟩
    cases openAt with
    | none => exact (hcheck found).mpr ⟨hcomplete, hsame⟩
    | some position =>
      obtain ⟨known, count, hknown, hzero, hcount, hmod, hlens⟩ := hcomplete
      exact Outcome.bind_eq_value.mpr ⟨known, Outcome.ofOption_eq_value.mpr hknown,
        Outcome.bind_eq_value.mpr ⟨(), Outcome.require_eq_value.mpr hzero,
        Outcome.bind_eq_value.mpr ⟨count, Outcome.ofOption_eq_value.mpr hcount,
        Outcome.bind_eq_value.mpr ⟨(), Outcome.require_eq_value.mpr hmod,
          (hcheck _).mpr ⟨hlens, hsame⟩⟩⟩⟩⟩

/-- The extents that dimensions stand for depend on the extents of the input alone. -/
theorem Resolves.relaid (h : Resolves dims s lens) (hst : s.lens = t.lens) :
    Resolves dims t lens := by
  have helements : s.elements = t.elements := by rw [Shape.elements, Shape.elements, hst]
  rw [resolves_iff, resolveFrom_congr hst, helements] at h
  obtain ⟨found, openAt, hfound, hcomplete, hsame⟩ := h
  refine resolves_iff.mpr ⟨found, openAt, hfound, ?_, hsame⟩
  cases openAt with
  | none => exact hcomplete
  | some position =>
    unfold Completes at hcomplete
    rwa [helements] at hcomplete

/-- A reshape keeps the number of elements. -/
theorem Resolves.prod_eq (h : Resolves dims s lens) : lens.prod = s.lens.prod := by
  obtain ⟨_, _, _, _, count, hproduct, helements⟩ := resolves_iff.mp h
  rw [← Word.product_eq_some hproduct, ← Shape.elements_eq_some helements]

/-- Outputs other than views in place and transfers depend on the element types and extents
of the inputs alone. -/
theorem Infers.relaid {inputs inputs' : List Shape} (h : Infers op inputs t)
    (hop : op.forwardsLayout = false) (hr : List.Forall₂ Shape.Relaid inputs inputs') :
    Infers op inputs' t := by
  cases h with
  | literal l =>
    obtain _ | _ := hr
    exact .literal l
  | parameter name s =>
    obtain _ | _ := hr
    exact .parameter name _
  | elementary fn hf ht =>
    obtain _ | ⟨hs, _ | _⟩ := hr
    exact .elementary fn (hs.1 ▸ hf) (by rw [← Shape.asStandard_congr hs.1 hs.2]; exact ht)
  | add hf hd hl ht =>
    obtain _ | ⟨ha, _ | ⟨hb, _ | _⟩⟩ := hr
    exact .add (ha.1 ▸ hf) (by rw [← hb.1, ← ha.1, hd]) (by rw [← hb.2, ← ha.2, hl])
      (by rw [← Shape.asStandard_congr ha.1 ha.2]; exact ht)
  | mul hf hs ht =>
    obtain _ | ⟨ha, hrest⟩ := hr
    have hall : ∀ {ss ss' : List Shape}, List.Forall₂ Shape.Relaid ss ss' → ∀ {d : Dtype}
        {lens : List Nat}, (∀ s ∈ ss, s.dtype = d ∧ s.lens = lens) →
        ∀ s ∈ ss', s.dtype = d ∧ s.lens = lens := by
      intro ss ss' hss
      induction hss with
      | nil => exact fun _ s hs => nomatch hs
      | cons hs _ ih =>
        intro d lens hall s hm
        rcases List.mem_cons.mp hm with rfl | hm
        · obtain ⟨hd, hl⟩ := hall _ List.mem_cons_self
          exact ⟨hs.1.symm.trans hd, hs.2.symm.trans hl⟩
        · exact ih (fun s hm => hall s (List.mem_cons_of_mem _ hm)) s hm
    rw [ha.1, ha.2] at hs
    have hs' := hall hrest hs
    obtain _ | ⟨hb, hrest⟩ := hrest
    exact .mul (ha.1 ▸ hf) hs' (by rw [← Shape.asStandard_congr ha.1 ha.2]; exact ht)
  | reshape hres ht =>
    obtain _ | ⟨hs, _ | _⟩ := hr
    exact .reshape (hres.relaid hs.2) (by rw [← hs.1]; exact ht)
  | contiguous ht =>
    obtain _ | ⟨hs, _ | _⟩ := hr
    exact .contiguous (by rw [← Shape.asStandard_congr hs.1 hs.2]; exact ht)
  | gemm factor hf hd ha hb ht =>
    obtain _ | ⟨hra, _ | ⟨hrb, _ | _⟩⟩ := hr
    exact .gemm factor (hra.1 ▸ hf) (by rw [← hra.1, ← hrb.1, hd]) (hra.2 ▸ ha) (hrb.2 ▸ hb)
      (by rw [← hra.1]; exact ht)
  | softmax hf hax ht =>
    obtain _ | ⟨hs, _ | _⟩ := hr
    refine .softmax (hs.1 ▸ hf) ?_ (by rw [← Shape.asStandard_congr hs.1 hs.2]; exact ht)
    rw [← Shape.length_lens, ← hs.2, Shape.length_lens]
    exact hax
  | convolution hf hd hx hw hrows hcolumns ht =>
    obtain _ | ⟨hrx, _ | ⟨hrw, _ | _⟩⟩ := hr
    exact .convolution (hrx.1 ▸ hf) (by rw [← hrx.1, ← hrw.1, hd]) (hrx.2 ▸ hx) (hrw.2 ▸ hw)
      hrows hcolumns (by rw [← hrx.1]; exact ht)
  | transpose => cases hop
  | hostToDevice => cases hop
  | deviceToHost => cases hop

end Operator
end TensorGraph
