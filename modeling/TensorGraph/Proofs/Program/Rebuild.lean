/-
What a rebuilt program has in common with the one it was made from.

A pass goes through the old instructions in order and keeps, drops or replaces each.
`Rebuilt copies done positions new` is its invariant: every old position that is still
stood for is stood for by an instruction of the same shape and the same meaning, and what is
new is one of `copies`.  One lemma for each
thing a pass does shows that the invariant is kept, and `rebuildFrom_ends` and
`rebuildFrom_value` carry it through a whole pass.
-/
import TensorGraph.Proofs.Program.Build

namespace TensorGraph

/-- Operators that give their input unchanged, if in another layout or place. -/
def Operator.isCopy : Operator → Bool
  | contiguous | hostToDevice | deviceToHost => true
  | _ => false

theorem Operator.isParameter_of_isCopy {op : Operator} (h : op.isCopy = true) :
    op.isParameter = false := by
  cases op <;> first | rfl | cases h

theorem Instruction.denote_of_isCopy {i : Instruction} (h : i.op.isCopy = true)
    (env : String → Option View) (v : View) : i.denote env [v] = some v := by
  obtain ⟨op, inputs, s, kernel⟩ := i
  cases op <;> first | rfl | cases h

namespace Program

variable {done new : List Instruction} {positions : List (Option Nat)} {i : Instruction}
variable {env : String → Option View} {copies : List Operator}

def Alike (is : List Instruction) (r r' : Nat) : Prop :=
  (∃ i j, is[r]? = some i ∧ is[r']? = some j ∧ i.shape.Relaid j.shape) ∧
    ∀ env views, meanings env is = some views → views[r']? = views[r]?

theorem Alike.refl {is : List Instruction} {r : Nat} (h : is[r]? = some i) : Alike is r r :=
  ⟨⟨i, i, h, h, Shape.Relaid.refl _⟩, fun _ _ _ => rfl⟩

theorem Alike.append {is : List Instruction} {r r' : Nat} (h : Alike is r r')
    (js : List Instruction) : Alike (is ++ js) r r' := by
  obtain ⟨⟨i, j, hi, hj, hrelaid⟩, hviews⟩ := h
  refine ⟨⟨i, j, getElem?_append_of_some hi js, getElem?_append_of_some hj js, hrelaid⟩,
    fun env views hm => ?_⟩
  obtain ⟨ws, vs, hws, rfl⟩ := meanings_append hm
  have hlen := length_meanings hws
  rw [List.getElem?_append_left (by rw [hlen]; exact (List.getElem?_eq_some_iff.mp hj).1),
    List.getElem?_append_left (by rw [hlen]; exact (List.getElem?_eq_some_iff.mp hi).1),
    hviews env ws hws]

theorem Alike.mapM_eq {is : List Instruction} {rs rs' : List Nat}
    (h : List.Forall₂ (Alike is) rs rs') {views : List View} (hm : meanings env is = some views) :
    (rs'.mapM fun r => views[r]?) = rs.mapM fun r => views[r]? := by
  induction h with
  | nil => rfl
  | cons hr _ ih => rw [List.mapM_cons, List.mapM_cons, hr.2 env views hm, ih]

/-! ## The invariant -/

structure Rebuilt (copies : List Operator) (done : List Instruction) (positions : List (Option Nat))
    (new : List Instruction) : Prop where
  length : positions.length = done.length
  stands : ∀ k n : Nat, positions[k]? = some (some n) →
    ∃ i j : Instruction, done[k]? = some i ∧ new[n]? = some j ∧ j.shape = i.shape
  declared : declared new = declared done
  origin : ∀ j ∈ new, (∃ i ∈ done, j.op = i.op ∧ j.kernel = i.kernel) ∨
    j.op ∈ copies ∧ j.kernel = none
  lens : ∀ j ∈ new, ∃ i ∈ done, j.shape.lens = i.shape.lens
  means : ∀ env views, meanings env done = some views → ∃ views',
    meanings env new = some views' ∧
      ∀ k n : Nat, positions[k]? = some (some n) → views'[n]? = views[k]?

theorem rebuilt_nil : Rebuilt copies [] [] [] where
  length := rfl
  stands _ _ h := nomatch h
  declared := rfl
  origin _ h := nomatch h
  lens _ h := nomatch h
  means _ views h := ⟨views, h, fun _ _ h => nomatch h⟩

theorem Rebuilt.drop (h : Rebuilt copies done positions new) (hi : i.isParameter = false) :
    Rebuilt copies (done ++ [i]) (positions ++ [none]) new where
  length := by rw [List.length_append, List.length_append, h.length]; rfl
  stands k n hk := by
    rcases getElem?_concat_eq hk with hk | ⟨-, hk⟩
    · obtain ⟨i', j, hi', hj, hs⟩ := h.stands k n hk
      exact ⟨i', j, getElem?_append_of_some hi' _, hj, hs⟩
    · cases hk
  declared := by
    rw [declared_append, declared_singleton_of_not_isParameter hi, List.append_nil, h.declared]
  origin j hj := (h.origin j hj).imp_left
    fun ⟨i', hi', ho⟩ => ⟨i', List.mem_append_left _ hi', ho⟩
  lens j hj := by
    obtain ⟨i', hi', hl⟩ := h.lens j hj
    exact ⟨i', List.mem_append_left _ hi', hl⟩
  means env views hm := by
    obtain ⟨ws, inputs, v, hws, -, -, rfl⟩ := meanings_concat_eq_some.mp hm
    obtain ⟨views', hviews', hstand⟩ := h.means env ws hws
    refine ⟨views', hviews', fun k n hk => ?_⟩
    rcases getElem?_concat_eq hk with hk | ⟨-, hk⟩
    · obtain ⟨i', -, hi', -⟩ := h.stands k n hk
      rw [hstand k n hk, List.getElem?_append_left (by
        rw [length_meanings hws]; exact (List.getElem?_eq_some_iff.mp hi').1)]
    · cases hk

theorem Rebuilt.copy (h : Rebuilt copies done positions new) {j c : Instruction} {r : Nat}
    (hr : new[r]? = some j) (hmem : c.op ∈ copies) (hc : c.op.isCopy = true)
    (hin : c.inputs = [r]) (hs : j.shape.Relaid c.shape) (hk : c.kernel = none) :
    Rebuilt copies done positions (new ++ [c]) where
  length := h.length
  stands k n hkn := by
    obtain ⟨i, j, hi, hj, hs⟩ := h.stands k n hkn
    exact ⟨i, j, hi, getElem?_append_of_some hj _, hs⟩
  declared := by
    have hp : c.isParameter = false := Operator.isParameter_of_isCopy hc
    rw [declared_append, declared_singleton_of_not_isParameter hp, List.append_nil, h.declared]
  origin j' hj' := by
    rcases List.mem_append.mp hj' with hj' | hj'
    · exact h.origin j' hj'
    · rw [List.mem_singleton.mp hj']
      exact Or.inr ⟨hmem, hk⟩
  lens j' hj' := by
    rcases List.mem_append.mp hj' with hj' | hj'
    · exact h.lens j' hj'
    · rw [List.mem_singleton.mp hj', ← hs.2]
      exact h.lens j (List.mem_of_getElem? hr)
  means env views hm := by
    obtain ⟨views', hviews', hstand⟩ := h.means env views hm
    obtain ⟨v, hv⟩ : ∃ v, views'[r]? = some v := by
      have hlt : r < views'.length := by
        rw [length_meanings hviews']
        exact (List.getElem?_eq_some_iff.mp hr).1
      exact ⟨views'[r], List.getElem?_eq_getElem hlt⟩
    refine ⟨views' ++ [v], meanings_concat_eq_some.mpr ⟨views', [v], v, hviews', ?_, ?_, rfl⟩,
      fun k n hkn => ?_⟩
    · rw [hin, List.mapM_cons, hv]
      rfl
    · exact Instruction.denote_of_isCopy hc env v
    · obtain ⟨-, j, -, hj, -⟩ := h.stands k n hkn
      rw [← hstand k n hkn, List.getElem?_append_left (by
        rw [length_meanings hviews']; exact (List.getElem?_eq_some_iff.mp hj).1)]

/-- A copy holds the tensor that it copies. -/
theorem alike_copy {is : List Instruction} {j c : Instruction} {r : Nat} (hr : is[r]? = some j)
    (hc : c.op.isCopy = true) (hin : c.inputs = [r]) (hs : j.shape.Relaid c.shape) :
    Alike (is ++ [c]) r is.length := by
  refine ⟨⟨j, c, getElem?_append_of_some hr _, List.getElem?_concat_length, hs⟩,
    fun env views hm => ?_⟩
  obtain ⟨ws, inputs, v, hws, hinputs, hv, rfl⟩ := meanings_concat_eq_some.mp hm
  have hlen := length_meanings hws
  have hlt : r < ws.length := by rw [hlen]; exact (List.getElem?_eq_some_iff.mp hr).1
  rw [hin, List.mapM_cons, List.getElem?_eq_getElem hlt] at hinputs
  cases hinputs
  rw [← hlen, List.getElem?_concat_length, List.getElem?_append_left hlt,
    List.getElem?_eq_getElem hlt, ← hv]
  exact Instruction.denote_of_isCopy hc env ws[r]

def Renumbered (positions : List (Option Nat)) (inputs inputs' : List Nat) : Prop :=
  List.Forall₂ (fun r n => positions[r]? = some (some n)) inputs inputs'

theorem Renumbered.forall_mem {inputs inputs' : List Nat} {P : Nat → Prop}
    (h : Renumbered positions inputs inputs')
    (hpos : ∀ k n : Nat, positions[k]? = some (some n) → P n) : ∀ n ∈ inputs', P n := by
  induction h with
  | nil => exact fun _ h => nomatch h
  | cons hr _ ih => exact List.forall_mem_cons.mpr ⟨hpos _ _ hr, ih⟩

theorem renumber_cases (positions : List (Option Nat)) (inputs : List Nat) :
    (∃ inputs', renumber positions inputs = .value inputs' ∧
      Renumbered positions inputs inputs') ∨ ∃ e, renumber positions inputs = .refused e := by
  induction inputs with
  | nil => exact Or.inl ⟨[], rfl, .nil⟩
  | cons r rs ih =>
    unfold renumber
    rcases hr : positions[r]? with _ | _ | n
    · exact Or.inr ⟨_, rfl⟩
    · exact Or.inr ⟨_, rfl⟩
    · rcases ih with ⟨inputs', h, hall⟩ | ⟨e, h⟩
      · rw [h]
        exact Or.inl ⟨n :: inputs', rfl, .cons hr hall⟩
      · rw [h]
        exact Or.inr ⟨e, rfl⟩

theorem Rebuilt.shapesAt (h : Rebuilt copies done positions new) {inputs inputs' : List Nat}
    (hr : Renumbered positions inputs inputs') {shapes : List Shape}
    (hs : shapesAt done inputs = some shapes) : shapesAt new inputs' = some shapes := by
  rw [shapesAt_eq_some] at hs ⊢
  induction hr generalizing shapes with
  | nil =>
    obtain _ | _ := hs
    exact .nil
  | @cons r n _ _ hr _ ih =>
    obtain _ | ⟨⟨i, hi, rfl⟩, hs⟩ := hs
    obtain ⟨i', j, hi', hj, hshape⟩ := h.stands r n hr
    rw [hi] at hi'
    cases hi'
    exact .cons ⟨j, hj, hshape⟩ (ih hs)

theorem Rebuilt.keep (h : Rebuilt copies done positions new) {inputs inputs' : List Nat}
    (hr : Renumbered positions i.inputs inputs) (ha : List.Forall₂ (Alike new) inputs inputs') :
    Rebuilt copies (done ++ [i]) (positions ++ [some new.length])
      (new ++ [{ i with inputs := inputs' }]) where
  length := by rw [List.length_append, List.length_append, h.length]; rfl
  stands k n hk := by
    rcases getElem?_concat_eq hk with hk | ⟨hpos, hn⟩
    · obtain ⟨i', j, hi', hj, hs⟩ := h.stands k n hk
      exact ⟨i', j, getElem?_append_of_some hi' _, getElem?_append_of_some hj _, hs⟩
    · cases hn
      rw [h.length] at hpos
      subst hpos
      exact ⟨i, _, List.getElem?_concat_length, List.getElem?_concat_length, rfl⟩
  declared := by
    rw [declared_append, declared_append, h.declared]
    rfl
  origin j hj := by
    rcases List.mem_append.mp hj with hj | hj
    · exact (h.origin j hj).imp_left fun ⟨i', hi', ho⟩ => ⟨i', List.mem_append_left _ hi', ho⟩
    · rw [List.mem_singleton.mp hj]
      exact Or.inl ⟨i, List.mem_append_right _ List.mem_cons_self, rfl, rfl⟩
  lens j hj := by
    rcases List.mem_append.mp hj with hj | hj
    · obtain ⟨i', hi', hl⟩ := h.lens j hj
      exact ⟨i', List.mem_append_left _ hi', hl⟩
    · rw [List.mem_singleton.mp hj]
      exact ⟨i, List.mem_append_right _ List.mem_cons_self, rfl⟩
  means env views hm := by
    obtain ⟨ws, us, v, hws, hus, hv, rfl⟩ := meanings_concat_eq_some.mp hm
    obtain ⟨views', hviews', hstand⟩ := h.means env ws hws
    have hread : ∀ {rs ns : List Nat}, Renumbered positions rs ns →
        (ns.mapM fun r => views'[r]?) = rs.mapM fun r => ws[r]? := by
      intro rs ns hrn
      induction hrn with
      | nil => rfl
      | cons hr _ ih => rw [List.mapM_cons, List.mapM_cons, hstand _ _ hr, ih]
    refine ⟨views' ++ [v], meanings_concat_eq_some.mpr ⟨views', us, v, hviews', ?_, hv, rfl⟩,
      fun k n hk => ?_⟩
    · show (inputs'.mapM fun r => views'[r]?) = some us
      rw [Alike.mapM_eq ha hviews', hread hr, hus]
    · have hlen := length_meanings hviews'
      have hlen' := length_meanings hws
      rcases getElem?_concat_eq hk with hk | ⟨hpos, hn⟩
      · obtain ⟨i', j, hi', hj, -⟩ := h.stands k n hk
        rw [List.getElem?_append_left (by rw [hlen]; exact (List.getElem?_eq_some_iff.mp hj).1),
          List.getElem?_append_left (by rw [hlen']; exact (List.getElem?_eq_some_iff.mp hi').1),
          hstand k n hk]
      · cases hn
        rw [h.length] at hpos
        subst hpos
        rw [← hlen, ← hlen', List.getElem?_concat_length, List.getElem?_concat_length]

/-- A copy of the same shape takes the place of what it copies. -/
theorem Rebuilt.redirect {r r' : Nat} (h : Rebuilt copies done (positions ++ [some r]) new)
    (ha : Alike new r r')
    (hs : ∀ i j, new[r]? = some i → new[r']? = some j → j.shape = i.shape) :
    Rebuilt copies done (positions ++ [some r']) new where
  length := by
    have hlen := h.length
    rw [List.length_append] at hlen ⊢
    exact hlen
  stands k n hk := by
    rcases getElem?_concat_eq hk with hk | ⟨rfl, hn⟩
    · exact h.stands k n (getElem?_append_of_some hk _)
    · cases hn
      obtain ⟨i, j, hi, hj, hshape⟩ := h.stands positions.length r List.getElem?_concat_length
      obtain ⟨j₁, j', hj₁, hj', -⟩ := ha.1
      exact ⟨i, j', hi, hj', (hs j j' hj hj').trans hshape⟩
  declared := h.declared
  origin := h.origin
  lens := h.lens
  means env views hm := by
    obtain ⟨views', hviews', hstand⟩ := h.means env views hm
    refine ⟨views', hviews', fun k n hk => ?_⟩
    rcases getElem?_concat_eq hk with hk | ⟨rfl, hn⟩
    · exact hstand k n (getElem?_append_of_some hk _)
    · cases hn
      rw [ha.2 env views' hviews', hstand _ r List.getElem?_concat_length]

/-! ## Whole passes -/

section Rebuild

variable {step step' : Nat → Instruction → Action Program (Option Nat)}
variable {old rest is : List Instruction}
variable {I : List Instruction → List (Option Nat) → Program → Prop} {q : Program} {fits : Prop}

def stepOn (step : Nat → Instruction → Action Program (Option Nat))
    (positions : List (Option Nat)) (i : Instruction) : Action Program (Option Nat) := do
  let inputs ← renumber positions i.inputs
  step positions.length { i with inputs := inputs }

theorem stepOn_of_renumbered {positions : List (Option Nat)} {i : Instruction}
    {inputs : List Nat} (h : Renumbered positions i.inputs inputs) :
    stepOn step positions i q = step positions.length { i with inputs := inputs } q := by
  have hrenumber : renumber positions i.inputs = .value inputs := by
    generalize i.inputs = rs at h
    induction h with
    | nil => rfl
    | cons hr _ ih =>
      unfold renumber
      rw [hr, ih]
      rfl
  exact Action.bind_of_value (Action.ofOutcome_eq_value.mpr ⟨hrenumber, rfl⟩)

theorem stepOn_of_refused {positions : List (Option Nat)} {i : Instruction} {e : Error}
    (h : renumber positions i.inputs = .refused e) : stepOn step positions i q = .refused e q := by
  refine Action.bind_of_refused ?_
  rw [Action.lift_apply, h]
  rfl

theorem stepOn_eq_value {positions : List (Option Nat)} {i : Instruction} {now : Option Nat}
    {q' : Program} (h : stepOn step positions i q = .value now q') :
    ∃ inputs, Renumbered positions i.inputs inputs ∧
      step positions.length { i with inputs := inputs } q = .value now q' := by
  rcases renumber_cases positions i.inputs with ⟨inputs, -, hr⟩ | ⟨e, he⟩
  · exact ⟨inputs, hr, (stepOn_of_renumbered hr).symm.trans h⟩
  · have hrefused : stepOn step positions i q = .refused e q := stepOn_of_refused he
    rw [h] at hrefused
    cases hrefused

theorem rebuildFrom_cons (positions : List (Option Nat)) (i : Instruction)
    (rest : List Instruction) :
    rebuildFrom step positions (i :: rest) =
      (stepOn step positions i >>= fun now => rebuildFrom step (positions ++ [now]) rest) := by
  rw [rebuildFrom, stepOn, bind_assoc]

/-- A pass takes the instructions out and goes through them. -/
theorem rebuild_apply (p : Program) :
    rebuild step p = rebuildFrom step [] p.instructions { p with instructions := [] } := by
  rw [rebuild, Action.bind_of_value Action.get_apply, Action.bind_of_value (Action.set_apply _)]

/-- What every step preserves, and none refuses, holds at the end. -/
theorem rebuildFrom_ends (hstep : ∀ done i rest positions q, old = done ++ i :: rest →
      I done positions q → (stepOn step positions i q).Ends fits
        fun now q' => I (done ++ [i]) (positions ++ [now]) q')
    (hold : old = done ++ rest) (h : I done positions q) :
    (rebuildFrom step positions rest q).Ends fits fun _ q' => ∃ positions', I old positions' q' := by
  induction rest generalizing done positions q with
  | nil =>
    rw [List.append_nil] at hold
    subst hold
    exact ⟨positions, h⟩
  | cons i rest ih =>
    rw [rebuildFrom_cons]
    refine Action.ends_bind (hstep done i rest positions q hold h) fun now q' h' => ?_
    exact ih (by rw [hold, List.append_assoc]; rfl) h'

/-- What every step that gives a value preserves holds at the end, if there is one. -/
theorem rebuildFrom_value (hstep : ∀ done i rest positions q now q', old = done ++ i :: rest →
      I done positions q → stepOn step positions i q = .value now q' →
        I (done ++ [i]) (positions ++ [now]) q')
    (hold : old = done ++ rest) (h : I done positions q) {u : Unit} {q' : Program}
    (hq : rebuildFrom step positions rest q = .value u q') : ∃ positions', I old positions' q' := by
  induction rest generalizing done positions q with
  | nil =>
    rw [List.append_nil] at hold
    subst hold
    cases hq
    exact ⟨positions, h⟩
  | cons i rest ih =>
    rw [rebuildFrom_cons] at hq
    obtain ⟨now, q₁, hnow, hq⟩ := Action.bind_eq_value.mp hq
    exact ih (by rw [hold, List.append_assoc]; rfl) (hstep done i rest positions q now q₁ hold h hnow)
      hq

/-- A pass hands its step the old positions and no others, so only there does it matter what the
step does. -/
theorem rebuildFrom_congr
    (h : ∀ old i, old < positions.length + is.length → step old i = step' old i) :
    rebuildFrom step positions is = rebuildFrom step' positions is := by
  induction is generalizing positions with
  | nil => rfl
  | cons i rest ih =>
    have hlen : (i :: rest).length = rest.length + 1 := List.length_cons
    have hhand : stepOn step positions i = stepOn step' positions i := by
      unfold stepOn
      exact bind_congr fun inputs => h positions.length _ (by omega)
    rw [rebuildFrom_cons, rebuildFrom_cons, hhand]
    refine bind_congr fun now => ih fun old i hold => h old i ?_
    rw [List.length_append, List.length_singleton] at hold
    omega

/-- Inputs are renumbered or refused, so a pass halts only where its step does. -/
theorem rebuildFrom_ne_halted
    (h : ∀ old i q, old < positions.length + is.length → step old i q ≠ .halted) :
    rebuildFrom step positions is q ≠ .halted := by
  induction is generalizing positions q with
  | nil => exact fun hhalted => nomatch hhalted
  | cons i rest ih =>
    have hlen : (i :: rest).length = rest.length + 1 := List.length_cons
    rw [rebuildFrom_cons]
    rcases renumber_cases positions i.inputs with ⟨inputs, -, hr⟩ | ⟨e, he⟩
    · have hhand : stepOn step positions i q ≠ .halted := by
        rw [stepOn_of_renumbered hr]
        exact h positions.length _ q (by omega)
      cases hstep : stepOn step positions i q with
      | value now q' =>
        rw [Action.bind_of_value hstep]
        refine ih fun old i q hold => h old i q ?_
        rw [List.length_append, List.length_singleton] at hold
        omega
      | refused e q' =>
        rw [Action.bind_of_refused hstep]
        exact fun hhalted => nomatch hhalted
      | halted => exact absurd hstep hhand
    · rw [Action.bind_of_refused (stepOn_of_refused he)]
      exact fun hhalted => nomatch hhalted

end Rebuild

end Program
end TensorGraph
