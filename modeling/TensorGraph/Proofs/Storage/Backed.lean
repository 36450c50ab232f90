/-
Storage that holds what a shape reaches.

A reader of a tensor goes wherever the strides lead and checks nothing.  `Shape.BackedBy` says
that it stays inside storage of a given size, whatever the strides are, and `Argument.Backed` that
the storage of an argument is large enough for its shape.  `Argument.make` checks that; the other
constructors store exactly the elements that their shapes have.
-/
import TensorGraph.Proofs.Kernel.Softmax
import TensorGraph.Proofs.Program.Start

namespace TensorGraph

/-- Whether storage of `size` bytes holds every byte that the strides of a shape reach. -/
structure Shape.BackedBy (s : Shape) (size : Nat) : Prop where
  storageBytes : ∀ n, s.storageBytes = some n → n ≤ size
  formed : size ≤ Word.maxUnsigned → s.storageBytes ≠ none
  within : ∀ idx, Index.Within idx s.lens →
    Index.offset idx s.axes * s.dtype.size + s.dtype.size ≤ size

namespace Shape

variable {s : Shape} {size : Nat}

theorem populated_of_within {idx : List Nat} (hi : Index.Within idx s.lens) : s.Populated := by
  obtain ⟨d, axes⟩ := s
  have hall : ∀ {lens : List Nat} {idx : List Nat}, Index.Within idx lens → ∀ n ∈ lens, 0 < n := by
    intro lens
    induction lens with
    | nil => exact fun _ _ hn => nomatch hn
    | cons n ns ih =>
      intro idx hi
      cases idx with
      | nil => exact hi.elim
      | cons i is =>
        rw [List.forall_mem_cons]
        exact ⟨Nat.zero_lt_of_lt hi.1, ih hi.2⟩
  exact hall hi

theorem storageBytes_of_not_populated (h : ¬s.Populated) : s.storageBytes = some 0 := by
  have hany : (s.axes.any fun a => decide (a.extent = 0)) = true := by
    unfold Populated at h
    push Not at h
    obtain ⟨n, hn, hzero⟩ := h
    obtain ⟨a, ha, rfl⟩ := List.mem_map.mp hn
    exact List.any_eq_true.mpr ⟨a, ha, decide_eq_true (Nat.le_zero.mp hzero)⟩
  rw [storageBytes, elementSpace, hany, if_pos rfl]
  show Word.mul 0 s.dtype.size = some 0
  rw [Word.mul, Nat.zero_mul]
  rfl

/-- Without a position there is nothing to reach. -/
theorem backedBy_of_space_le (h : s.Populated → s.space * s.dtype.size ≤ size) :
    s.BackedBy size where
  storageBytes n hn := by
    by_cases hp : s.Populated
    · exact ((storageBytes_eq_some hp).mp hn).1.trans_le (h hp)
    · rw [storageBytes_of_not_populated hp] at hn
      cases hn
      exact Nat.zero_le _
  formed hsize := by
    by_cases hp : s.Populated
    · rw [storageBytes_eq_fit hp, Word.fit_of_le ((h hp).trans hsize)]
      exact Option.some_ne_none _
    · rw [storageBytes_of_not_populated hp]
      exact Option.some_ne_none _
  within _ hi := (offset_add_size_le hi).trans (h (populated_of_within hi))

theorem backedBy_of_storageBytes {n : Nat} (hn : s.storageBytes = some n) (hle : n ≤ size) :
    s.BackedBy size :=
  backedBy_of_space_le fun hp => ((storageBytes_eq_some hp).mp hn).1.symm.trans_le hle

end Shape

namespace Argument

variable {a b : Argument} {s : Shape} {st : Storage}

def Backed (a : Argument) : Prop := ∀ st, a.storage = some st → a.shape.BackedBy st.size

theorem backed_of_make (h : make s st = .value a) : a.Backed := by
  obtain rfl := shape_of_make h
  intro st' hst
  cases hst
  unfold make at h
  obtain ⟨n, hn, h⟩ := Outcome.bind_eq_value.mp h
  obtain ⟨_, hsize, -⟩ := Outcome.bind_eq_value.mp h
  exact Shape.backedBy_of_storageBytes (Outcome.ofOption_eq_value.mp hn)
    (Outcome.require_eq_value.mp hsize)

theorem Valid.backed (h : a.Valid) : a.Backed := fun st hst => backed_of_make (h st hst) st hst

theorem backed_absent (s : Shape) : (absent s).Backed := fun _ hst => nomatch hst

theorem backed_of_withShape (h : a.withShape s = .value b) : b.Backed := by
  unfold withShape at h
  cases hst : a.storage with
  | none =>
    rw [hst] at h
    cases h
    exact backed_absent s
  | some st =>
    rw [hst] at h
    exact backed_of_make h

theorem backed_ofLiteral {l : Literal} (h : l.Made) : (ofLiteral l).Backed := by
  intro st hst
  cases hst
  exact Shape.backedBy_of_space_le h.storage

theorem backed_of_ofElements {key : Nat} {d : Dtype} {elements : List Nat}
    (h : ofElements key s d elements = .value a) : a.Backed := by
  unfold ofElements at h
  obtain ⟨l, hl, h⟩ := Outcome.bind_eq_value.mp h
  cases h
  exact backed_ofLiteral (.ofElements hl)

theorem backed_of_ofTensor {key : Nat} {d : Dtype} {t : Tensor} (ht : t.Complete)
    (h : ofTensor key d t = some a) : a.Backed := by
  obtain ⟨s, hs, -, rfl⟩ := ofTensor_eq_some.mp h
  intro st hst
  cases hst
  refine Shape.backedBy_of_space_le fun hp => ?_
  have hlens := Shape.lens_of_standard hs
  have hd := Shape.dtype_of_standard hs
  have hpos : ∀ n ∈ t.lens, 0 < n := fun n hn => hp n (hlens ▸ hn)
  have hcount : t.elements.length = t.lens.prod := ht
  show s.space * s.dtype.size ≤ (Bytes.ofWords d.size t.elements).size
  rw [Bytes.size_ofWords, Shape.space_of_standard hs hpos, hcount, hd]

theorem backed_of_ofFile {key : Nat} {contents : Option Bytes}
    (h : ofFile key s contents = .value a) : a.Backed := by
  unfold ofFile at h
  cases contents with
  | none => cases h
  | some bytes => exact backed_of_make h

end Argument

/-! ## Kernels -/

namespace Kernel

/-- A kernel gives an element for every index. -/
theorem complete_of_run {num : Arithmetic} {op : Operator} {output : List Nat} {inputs : List View}
    {t : Tensor} (h : run num op output inputs = .value t) : t.Complete := by
  have hlisted : ∀ x : Option View, (do return (← x).toTensor : Outcome Tensor) = .value t →
      t.Complete := by
    intro x hx
    obtain ⟨v, -, hv⟩ := Outcome.bind_eq_value.mp hx
    cases hv
    exact View.complete_toTensor v
  cases op with
  | literal | parameter | reshape | transpose | hostToDevice | deviceToHost =>
    cases inputs <;> cases h
  | elementary fn =>
    match inputs with
    | [] => cases h
    | x :: _ => exact hlisted _ h
  | add =>
    match inputs with
    | [] | [_] => cases h
    | x :: y :: _ =>
      obtain ⟨v, -, h⟩ := Outcome.bind_eq_value.mp h
      exact hlisted _ h
  | mul =>
    match inputs with
    | [] => cases h
    | x :: rest => exact hlisted _ h
  | contiguous =>
    match inputs with
    | [] => cases h
    | x :: _ => exact hlisted _ h
  | gemm factor =>
    match inputs with
    | [] | [_] => cases h
    | a :: b :: _ =>
      rw [run, gemm] at h
      split at h
      · exact ((tabulate_complete _ _ _).of_value h).2
      · cases h
  | softmax axis =>
    match inputs with
    | [] => cases h
    | x :: _ =>
      rw [run] at h
      by_cases ha : axis < x.lens.length
      · obtain ⟨-, rfl⟩ := (softmax_eq_value ha).mp h
        exact View.complete_toTensor _
      · rw [softmax, List.getElem?_eq_none (Nat.not_lt.mp ha)] at h
        cases h
  | convolution c =>
    match inputs with
    | [] | [_] => cases h
    | x :: w :: _ =>
      rw [run, convolution] at h
      split at h
      · split at h
        · exact ((tabulate_complete _ _ _).of_value h).2
        · cases h
      · cases h

end Kernel

def Operator.Backed : Operator → Prop
  | literal l => (Argument.ofLiteral l).Backed
  | _ => True

def BoundKernel.Backed : BoundKernel → Prop
  | host op => op.Backed
  | literal l => (Argument.ofLiteral l).Backed
  | resident a => a.Backed
  | _ => True

/-- A value on the host is over storage that was checked, or over elements of its own. -/
theorem Kernel.backed_of_onHost {key : Nat} {op : Operator} {output : Shape}
    {inputs : List Argument} {a : Argument} (hop : op.Backed)
    (h : onHost key op output inputs = .value a) : a.Backed := by
  unfold onHost at h
  cases op with
  | literal l =>
    cases h
    exact hop
  | parameter | hostToDevice | deviceToHost => cases h
  | reshape | transpose =>
    cases inputs with
    | nil => cases h
    | cons b rest => exact Argument.backed_of_withShape h
  | contiguous =>
    cases inputs with
    | nil => cases h
    | cons b rest =>
      obtain ⟨v, -, h⟩ := Outcome.bind_eq_value.mp h
      exact Argument.backed_of_ofTensor v.complete_toTensor (Outcome.ofOption_eq_value.mp h)
  | _ =>
    dsimp only at h
    split at h
    · obtain ⟨views, -, h⟩ := Outcome.bind_eq_value.mp h
      obtain ⟨t, ht, h⟩ := Outcome.bind_eq_value.mp h
      exact Argument.backed_of_ofTensor (complete_of_run ht) (Outcome.ofOption_eq_value.mp h)
    · cases h

namespace World

variable {w w' : World} {a a' : Argument} {id : DeviceId}

theorem backed_of_toDevice (h : toDevice id a w = .value a' w') : a'.Backed :=
  (valid_of_toDevice h).backed

theorem backed_of_toHost (h : toHost a w = .value a' w') : a'.Backed := by
  unfold toHost at h
  obtain ⟨st, _, -, h⟩ := Action.bind_eq_value.mp h
  cases st with
  | device b =>
    obtain ⟨_, _, -, h⟩ := Action.bind_eq_value.mp h
    exact Argument.backed_of_make (Action.ofOutcome_eq_value.mp h).1
  | host b =>
    obtain ⟨_, _, -, h⟩ := Action.bind_eq_value.mp h
    obtain ⟨_, _, -, h⟩ := Action.bind_eq_value.mp h
    obtain ⟨_, _, -, h⟩ := Action.bind_eq_value.mp h
    exact Argument.backed_of_make (Action.ofOutcome_eq_value.mp h).1

theorem backed_of_place {s : Shape} {b : DeviceBuffer} (h : place s b w = .value a w') :
    a.Backed :=
  Argument.backed_of_make (Action.ofOutcome_eq_value.mp (Action.onRefusal_eq_value.mp h)).1

end World

/-- What a kernel gives is backed by its storage, whatever it is given. -/
theorem BoundKernel.backed_of_compute {k : BoundKernel} {output : Shape} {inputs : List Argument}
    {w w' : World} {a : Argument} (hk : k.Backed)
    (h : k.compute output inputs w = .value a w') : a.Backed := by
  cases k with
  | host op => exact Kernel.backed_of_onHost hk (host_eq_value h).1
  | literal l =>
    cases h
    exact hk
  | resident b =>
    obtain ⟨rfl, -⟩ := resident_eq_value h
    exact hk
  | upload id =>
    cases inputs with
    | nil => cases h
    | cons b rest => exact World.backed_of_toDevice h
  | download =>
    cases inputs with
    | nil => cases h
    | cons b rest => exact World.backed_of_toHost h
  | view name =>
    cases inputs with
    | nil => cases h
    | cons b rest => exact Argument.backed_of_withShape (view_eq_value h).1
  | launch op id =>
    obtain ⟨_, _, _, _, _, -, -, hmake, -⟩ := launch_eq_value h
    exact Argument.backed_of_make hmake

end TensorGraph
