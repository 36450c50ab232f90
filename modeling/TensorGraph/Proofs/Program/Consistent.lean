/-
Lists of instructions whose shapes were inferred.

`Consistent` says that every instruction reads earlier ones and that its recorded shape is
what inference gives for theirs.  It is decided instruction by instruction, each beside
those before it, so appending one takes a look at that one only: `consistent_concat`.

A consistent list has a meaning as soon as the parameters have tensors with their extents,
and each instruction means a tensor with the extents recorded for it.
-/
import TensorGraph.Proofs.Meaning

namespace TensorGraph

variable {α β : Type}

section Paired

variable {R : α → β → Prop} {as : List α} {bs : List β}

theorem exists_of_mem_left (h : List.Forall₂ R as bs) {a : α} (ha : a ∈ as) : ∃ b ∈ bs, R a b := by
  obtain ⟨k, hk, rfl⟩ := List.mem_iff_getElem.mp ha
  have hk' : k < bs.length := h.length_eq ▸ hk
  exact ⟨bs[k], List.getElem_mem hk', List.Forall₂.get h hk hk'⟩

theorem exists_of_mem_right (h : List.Forall₂ R as bs) {b : β} (hb : b ∈ bs) :
    ∃ a ∈ as, R a b :=
  exists_of_mem_left h.flip hb

end Paired

namespace Program

variable {is js : List Instruction} {i : Instruction}

def shapesAt (is : List Instruction) (inputs : List Nat) : Option (List Shape) :=
  inputs.mapM fun r => (is[r]?).map Instruction.shape

/-- Whether an instruction reads the given ones and has the shape inferred from theirs. -/
def Fitted (is : List Instruction) (i : Instruction) : Prop :=
  ∃ shapes, shapesAt is i.inputs = some shapes ∧ i.op.infer shapes = .value i.shape

def Consistent (is : List Instruction) : Prop :=
  ∀ position i, is[position]? = some i → Fitted (is.take position) i

def declared (is : List Instruction) : List (String × Shape) :=
  is.filterMap fun i =>
    match i.op with
    | .parameter name s => some (name, s)
    | _ => none

theorem declared_append (is js : List Instruction) :
    declared (is ++ js) = declared is ++ declared js := List.filterMap_append

theorem mem_declared {name : String} {s : Shape} :
    (name, s) ∈ declared is ↔ ∃ i ∈ is, i.op = .parameter name s := by
  rw [declared, List.mem_filterMap]
  refine exists_congr fun i => and_congr_right fun _ => ?_
  obtain ⟨op, inputs, t, kernel⟩ := i
  cases op <;> simp

theorem declared_singleton_of_not_isParameter (h : i.isParameter = false) : declared [i] = [] := by
  obtain ⟨op, inputs, s, kernel⟩ := i
  cases op <;> first | rfl | cases h

theorem getElem?_concat_eq {α : Type} {xs : List α} {x y : α} {k : Nat}
    (h : (xs ++ [x])[k]? = some y) : xs[k]? = some y ∨ k = xs.length ∧ y = x := by
  rcases Nat.lt_or_ge k xs.length with hlt | hge
  · rw [List.getElem?_append_left hlt] at h
    exact Or.inl h
  · obtain ⟨hlt, hget⟩ := List.getElem?_eq_some_iff.mp h
    rw [List.length_append, List.length_singleton] at hlt
    have hk : k = xs.length := by omega
    subst hk
    rw [List.getElem_concat_length rfl] at hget
    exact Or.inr ⟨rfl, hget.symm⟩

theorem getElem?_append_of_some {α : Type} {xs : List α} {k : Nat} {x : α} (h : xs[k]? = some x)
    (ys : List α) : (xs ++ ys)[k]? = some x := by
  rw [List.getElem?_append_left (List.getElem?_eq_some_iff.mp h).1, h]

theorem consistent_nil : Consistent [] := fun _ _ h => nomatch h

theorem consistent_concat : Consistent (is ++ [i]) ↔ Consistent is ∧ Fitted is i := by
  constructor
  · intro h
    constructor
    · intro position j hj
      have hlt := (List.getElem?_eq_some_iff.mp hj).1
      have hfit := h position j (by rw [List.getElem?_append_left hlt]; exact hj)
      rwa [List.take_append_of_le_length (Nat.le_of_lt hlt)] at hfit
    · have hfit := h is.length i (by rw [List.getElem?_concat_length])
      rwa [List.take_left'] at hfit
      rfl
  · rintro ⟨h, hi⟩ position j hj
    rcases getElem?_concat_eq hj with hj | ⟨rfl, rfl⟩
    · rw [List.take_append_of_le_length (Nat.le_of_lt (List.getElem?_eq_some_iff.mp hj).1)]
      exact h position j hj
    · rw [List.take_left' rfl]
      exact hi

theorem shapesAt_eq_some {inputs : List Nat} {shapes : List Shape} :
    shapesAt is inputs = some shapes ↔
      List.Forall₂ (fun r s => ∃ i, is[r]? = some i ∧ i.shape = s) inputs shapes := by
  rw [shapesAt, mapM_eq_some]
  simp only [Option.map_eq_some_iff]

theorem shape_mem_of_shapesAt {inputs : List Nat} {shapes : List Shape} {r : Nat}
    {j : Instruction} (h : shapesAt is inputs = some shapes) (hr : r ∈ inputs)
    (hj : is[r]? = some j) : j.shape ∈ shapes := by
  obtain ⟨s, hs, j', hj', rfl⟩ := exists_of_mem_left (shapesAt_eq_some.mp h) hr
  rw [hj] at hj'
  cases hj'
  exact hs

theorem exists_of_mem_shapesAt {inputs : List Nat} {shapes : List Shape} {s : Shape}
    (h : shapesAt is inputs = some shapes) (hs : s ∈ shapes) :
    ∃ r ∈ inputs, ∃ j, is[r]? = some j ∧ j.shape = s :=
  exists_of_mem_right (shapesAt_eq_some.mp h) hs

theorem shapesAt_append {inputs : List Nat} {shapes : List Shape}
    (h : shapesAt is inputs = some shapes) (js : List Instruction) :
    shapesAt (is ++ js) inputs = some shapes := by
  rw [shapesAt_eq_some] at h ⊢
  exact h.imp fun r s ⟨i, hi, hs⟩ => ⟨i, getElem?_append_of_some hi js, hs⟩

theorem Fitted.inputs_lt (h : Fitted is i) : ∀ r ∈ i.inputs, r < is.length := by
  obtain ⟨shapes, hs, -⟩ := h
  rw [shapesAt_eq_some] at hs
  intro r hr
  obtain ⟨s, -, j, hj, -⟩ := exists_of_mem_left hs hr
  exact (List.getElem?_eq_some_iff.mp hj).1

theorem Consistent.inputs_lt (h : Consistent is) {position : Nat}
    (hi : is[position]? = some i) : ∀ r ∈ i.inputs, r < position := by
  intro r hr
  have hlt := (h position i hi).inputs_lt r hr
  rw [List.length_take] at hlt
  omega

theorem Consistent.infers (h : Consistent is) {position : Nat} (hi : is[position]? = some i) :
    ∃ shapes, shapesAt is i.inputs = some shapes ∧ Operator.Infers i.op shapes i.shape := by
  obtain ⟨shapes, hs, hinfer⟩ := h position i hi
  refine ⟨shapes, ?_, Operator.infers_of_infer hinfer⟩
  have happ := shapesAt_append hs (is.drop position)
  rwa [List.take_append_drop] at happ

/-! ## Meanings -/

variable {env : String → Option View} {views : List View}

def meanings (env : String → Option View) (is : List Instruction) : Option (List View) :=
  denoteFrom env [] is

theorem denoteFrom_append (views : List View) (is js : List Instruction) :
    denoteFrom env views (is ++ js) =
      (denoteFrom env views is).bind fun ws => denoteFrom env ws js := by
  induction is generalizing views with
  | nil => rfl
  | cons i is ih =>
    rw [List.cons_append, denoteFrom, denoteFrom]
    cases i.inputs.mapM fun r => views[r]? with
    | none => rfl
    | some inputs =>
      show (i.denote env inputs >>= _) = (i.denote env inputs >>= _).bind _
      cases i.denote env inputs with
      | none => rfl
      | some v => exact ih _

theorem meanings_concat_eq_some :
    meanings env (is ++ [i]) = some views ↔ ∃ ws inputs v, meanings env is = some ws ∧
      (i.inputs.mapM fun r => ws[r]?) = some inputs ∧ i.denote env inputs = some v ∧
      views = ws ++ [v] := by
  rw [meanings, denoteFrom_append, Option.bind_eq_some_iff]
  constructor
  · rintro ⟨ws, hws, h⟩
    rw [denoteFrom] at h
    obtain ⟨inputs, hinputs, h⟩ := Option.bind_eq_some_iff.mp h
    obtain ⟨v, hv, h⟩ := Option.bind_eq_some_iff.mp h
    cases h
    exact ⟨ws, inputs, v, hws, hinputs, hv, rfl⟩
  · rintro ⟨ws, inputs, v, hws, hinputs, hv, rfl⟩
    refine ⟨ws, hws, ?_⟩
    rw [denoteFrom, hinputs]
    show (i.denote env inputs >>= _) = _
    rw [hv]
    rfl

theorem length_meanings (h : meanings env is = some views) : views.length = is.length := by
  induction is using List.reverseRecOn generalizing views with
  | nil =>
    cases h
    rfl
  | append_singleton is i ih =>
    obtain ⟨ws, inputs, v, hws, -, -, rfl⟩ := meanings_concat_eq_some.mp h
    rw [List.length_append, List.length_append, ih hws, List.length_singleton,
      List.length_singleton]

theorem meanings_append (h : meanings env (is ++ js) = some views) :
    ∃ ws vs, meanings env is = some ws ∧ views = ws ++ vs := by
  induction js using List.reverseRecOn generalizing views with
  | nil => exact ⟨views, [], by rwa [List.append_nil] at h, (List.append_nil _).symm⟩
  | append_singleton js j ih =>
    rw [← List.append_assoc] at h
    obtain ⟨us, inputs, v, hus, -, -, rfl⟩ := meanings_concat_eq_some.mp h
    obtain ⟨ws, vs, hws, rfl⟩ := ih hus
    exact ⟨ws, vs ++ [v], hws, List.append_assoc ..⟩

/-- What one instruction means, from the meanings of all. -/
theorem denote_of_meanings (hc : Consistent is) (h : meanings env is = some views)
    {position : Nat} (hi : is[position]? = some i) :
    ∃ inputs v, (i.inputs.mapM fun r => views[r]?) = some inputs ∧
      i.denote env inputs = some v ∧ views[position]? = some v := by
  induction is using List.reverseRecOn generalizing views position with
  | nil => cases hi
  | append_singleton is j ih =>
    obtain ⟨hc', hj⟩ := consistent_concat.mp hc
    obtain ⟨ws, inputs, v, hws, hinputs, hv, rfl⟩ := meanings_concat_eq_some.mp h
    have hlen := length_meanings hws
    have hgrow : ∀ {rs : List Nat} {us : List View}, (rs.mapM fun r => ws[r]?) = some us →
        (rs.mapM fun r => (ws ++ [v])[r]?) = some us := by
      intro rs us hus
      rw [mapM_eq_some] at hus ⊢
      exact hus.imp fun r u hu => getElem?_append_of_some hu [v]
    rcases getElem?_concat_eq hi with hi | ⟨rfl, rfl⟩
    · obtain ⟨inputs', v', hinputs', hv', hpos⟩ := ih hc' hws hi
      exact ⟨inputs', v', hgrow hinputs', hv', getElem?_append_of_some hpos [v]⟩
    · exact ⟨inputs, v, hgrow hinputs, hv, by rw [← hlen, List.getElem?_concat_length]⟩

def Recorded (is : List Instruction) (views : List View) : Prop :=
  List.Forall₂ (fun i v => v.lens = i.shape.lens) is views

theorem Recorded.shaped (h : Recorded is views) {inputs : List Nat} {shapes : List Shape}
    (hs : shapesAt is inputs = some shapes) :
    ∃ us, (inputs.mapM fun r => views[r]?) = some us ∧ View.Shaped shapes us := by
  rw [shapesAt_eq_some] at hs
  induction hs with
  | nil => exact ⟨[], rfl, .nil⟩
  | @cons r s rs ss hr _ ih =>
    obtain ⟨i, hi, rfl⟩ := hr
    obtain ⟨us, hus, hshaped⟩ := ih
    obtain ⟨hlt, hget⟩ := List.getElem?_eq_some_iff.mp hi
    have hlt' : r < views.length := by rw [← h.length_eq]; exact hlt
    have hlens : views[r].lens = is[r].shape.lens := List.Forall₂.get h hlt hlt'
    refine ⟨views[r] :: us, ?_, .cons (by rw [hlens, hget]) hshaped⟩
    rw [List.mapM_cons, hus, List.getElem?_eq_getElem hlt']
    rfl

/-- Tensors for the parameters give a meaning to a consistent list. -/
theorem Consistent.exists_meanings (hc : Consistent is)
    (henv : ∀ name s, (name, s) ∈ declared is → ∃ v, env name = some v ∧ v.lens = s.lens) :
    ∃ views, meanings env is = some views ∧ Recorded is views := by
  induction is using List.reverseRecOn with
  | nil => exact ⟨[], rfl, .nil⟩
  | append_singleton is i ih =>
    obtain ⟨hc', shapes, hshapes, hinfer⟩ := consistent_concat.mp hc
    rw [declared_append] at henv
    obtain ⟨ws, hws, hrec⟩ := ih hc' fun name s h => henv name s (List.mem_append_left _ h)
    obtain ⟨inputs, hinputs, hshaped⟩ := hrec.shaped hshapes
    obtain ⟨v, hv, hl⟩ : ∃ v, i.denote env inputs = some v ∧ v.lens = i.shape.lens := by
      obtain ⟨op, rs, s, kernel⟩ := i
      have hinfers : Operator.Infers op shapes s := Operator.infers_of_infer hinfer
      by_cases hp : op.isParameter = true
      · cases hinfers with
        | parameter name s =>
          exact henv name s (List.mem_append_right _ (List.mem_singleton.mpr rfl))
        | _ => cases hp
      · rw [Bool.not_eq_true] at hp
        obtain ⟨v, hv, hl⟩ := Operator.exists_denote hinfers hp hshaped
        refine ⟨v, ?_, hl⟩
        cases op with
        | parameter => cases hp
        | _ => exact hv
    refine ⟨ws ++ [v], meanings_concat_eq_some.mpr ⟨ws, inputs, v, hws, hinputs, hv, rfl⟩, ?_⟩
    exact List.rel_append hrec (.cons hl .nil)

end Program
end TensorGraph
