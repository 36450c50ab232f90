/-
What each pass makes of a program.

`Refines copies p q` says that `q` was made from `p` by passes: the same parameters, no
operators but those of `p` and `copies`, the same recorded shape and the same meaning of the output.
Dead code elimination and the insertion of transfers keep programs consistent.  Inserting
copies does so exactly if no operator whose layout follows its input gets a copied one,
which is `insertContiguous_ends`.
-/
import TensorGraph.Proofs.Program.Rebuild

namespace TensorGraph
namespace Program

variable {p q : Program} {fits : Prop} {copies : List Operator}

/-! ## Results of passes -/

def last? (p : Program) : Option Instruction := p.instructions.getLast?

structure Refines (copies : List Operator) (p q : Program) : Prop where
  parameters : q.parameters = p.parameters
  target : q.target = none
  declared : declared q.instructions = declared p.instructions
  origin : ∀ j ∈ q.instructions, (∃ i ∈ p.instructions, j.op = i.op ∧ j.kernel = i.kernel) ∨
    j.op ∈ copies ∧ j.kernel = none
  lens : ∀ j ∈ q.instructions, ∃ i ∈ p.instructions, j.shape.lens = i.shape.lens
  shape : q.last?.map Instruction.shape = p.last?.map Instruction.shape
  meaning : ∀ env v, p.meaning env = some v → q.meaning env = some v

theorem Refines.trans {copies' : List Operator} {r : Program} (h : Refines copies p q)
    (h' : Refines copies' q r) : Refines (copies ++ copies') p r where
  parameters := h'.parameters.trans h.parameters
  target := h'.target
  declared := h'.declared.trans h.declared
  origin j hj := by
    rcases h'.origin j hj with ⟨i, hi, hop, hk⟩ | hcopy
    · rcases h.origin i hi with ⟨i', hi', hop', hk'⟩ | ⟨hcopy, hk'⟩
      · exact Or.inl ⟨i', hi', hop.trans hop', hk.trans hk'⟩
      · exact Or.inr ⟨List.mem_append_left _ (hop ▸ hcopy), hk.trans hk'⟩
    · exact Or.inr (hcopy.imp_left (List.mem_append_right _))
  lens j hj := by
    obtain ⟨i, hi, hl⟩ := h'.lens j hj
    obtain ⟨i', hi', hl'⟩ := h.lens i hi
    exact ⟨i', hi', hl.trans hl'⟩
  shape := h'.shape.trans h.shape
  meaning env v hv := h'.meaning env v (h.meaning env v hv)

theorem Refines.mono {copies' : List Operator} (h : Refines copies p q)
    (hsub : ∀ op ∈ copies, op ∈ copies') : Refines copies' p q :=
  { h with origin := fun j hj => (h.origin j hj).imp_right (And.imp_left (hsub j.op)) }

theorem meaning_eq_some {env : String → Option View} {v : View} :
    p.meaning env = some v ↔
      ∃ views, meanings env p.instructions = some views ∧ views.getLast? = some v := by
  rw [Program.meaning]
  exact Option.bind_eq_some_iff

theorem ne_nil_of_meanings {env : String → Option View} {v : View} {views : List View}
    (h : meanings env p.instructions = some views) (hlast : views.getLast? = some v) :
    p.instructions ≠ [] := by
  intro hnil
  have hlen := length_meanings h
  rw [hnil] at hlen
  rw [List.length_eq_zero_iff.mp hlen] at hlast
  cases hlast

/-- Whether the parameters of a program are given tensors of their extents. -/
def Supplies (env : String → Option View) (p : Program) : Prop :=
  ∀ name s, (name, s) ∈ p.parameters → ∃ v, env name = some v ∧ v.lens = s.lens

/-- A program whose parameters have tensors denotes one, with the extents recorded last. -/
theorem WellFormed.exists_meaning {env : String → Option View} (h : WellFormed p)
    (henv : Supplies env p) (hne : p.instructions ≠ []) :
    ∃ v i, p.meaning env = some v ∧ p.last? = some i ∧ v.lens = i.shape.lens := by
  obtain ⟨views, hviews, hrecorded⟩ := h.consistent.exists_meanings 
    fun name s hmem => henv name s (h.parameters.mem_iff.mpr hmem)
  have hlen : p.instructions.length - 1 < p.instructions.length :=
    Nat.sub_lt (List.length_pos_iff.mpr hne) Nat.one_pos
  have hlen' : p.instructions.length - 1 < views.length := by rwa [length_meanings hviews]
  refine ⟨views[p.instructions.length - 1], p.instructions[p.instructions.length - 1],
    meaning_eq_some.mpr ⟨views, hviews, ?_⟩, ?_, List.Forall₂.get hrecorded hlen hlen'⟩
  · rw [List.getLast?_eq_getElem?, length_meanings hviews, List.getElem?_eq_getElem hlen']
  · rw [last?, List.getLast?_eq_getElem?, List.getElem?_eq_getElem hlen]

/-- A copy of the output is appended. -/
theorem refines_append_copy {j c : Instruction} (ht : p.target = none) (hj : p.last? = some j)
    (hc : c.op.isCopy = true) (hin : c.inputs = [p.size - 1]) (hs : c.shape = j.shape)
    (hk : c.kernel = none) :
    Refines [c.op] p { p with instructions := p.instructions ++ [c] } where
  parameters := rfl
  target := ht
  declared := by
    have hp : c.isParameter = false := Operator.isParameter_of_isCopy hc
    rw [declared_append, declared_singleton_of_not_isParameter hp, List.append_nil]
  origin i hi := by
    rcases List.mem_append.mp hi with hi | hi
    · exact Or.inl ⟨i, hi, rfl, rfl⟩
    · rw [List.mem_singleton.mp hi]
      exact Or.inr ⟨List.mem_cons_self, hk⟩
  lens i hi := by
    rcases List.mem_append.mp hi with hi | hi
    · exact ⟨i, hi, rfl⟩
    · rw [List.mem_singleton.mp hi]
      exact ⟨j, List.mem_of_getLast? hj, by rw [hs]⟩
  shape := by
    have hlast : (Program.last? { p with instructions := p.instructions ++ [c] }) = some c :=
      List.getLast?_concat
    rw [hlast, hj, Option.map_some, Option.map_some, hs]
  meaning env v hv := by
    obtain ⟨views, hviews, hv⟩ := meaning_eq_some.mp hv
    refine meaning_eq_some.mpr ⟨views ++ [v], meanings_concat_eq_some.mpr
      ⟨views, [v], v, hviews, ?_, ?_, rfl⟩, List.getLast?_concat⟩
    · rw [List.getLast?_eq_getElem?, length_meanings hviews] at hv
      rw [hin, List.mapM_cons, show p.size - 1 = p.instructions.length - 1 from rfl, hv]
      rfl
    · exact Instruction.denote_of_isCopy hc env v

/-- A rebuilt program refines the old one if its output stands for the old output. -/
theorem Rebuilt.refines {positions : List (Option Nat)}
    (h : Rebuilt copies p.instructions positions q.instructions) (hp : q.parameters = p.parameters)
    (ht : q.target = none)
    (hlast : p.instructions ≠ [] → ∃ n, positions.getLast? = some (some n) ∧ n + 1 = q.size) :
    Refines copies p q where
  parameters := hp
  target := ht
  declared := h.declared
  origin := h.origin
  lens := h.lens
  shape := by
    by_cases hnil : p.instructions = []
    · have hq : q.instructions = [] := by
        refine List.eq_nil_iff_forall_not_mem.mpr fun j hj => ?_
        obtain ⟨i, hi, -⟩ := h.lens j hj
        rw [hnil] at hi
        cases hi
      rw [last?, last?, hnil, hq]
    · obtain ⟨n, hn, hsize⟩ := hlast hnil
      rw [List.getLast?_eq_getElem?, h.length] at hn
      obtain ⟨i, j, hi, hj, hs⟩ := h.stands _ n hn
      have hn' : q.instructions.length - 1 = n := by
        have : q.instructions.length = n + 1 := hsize.symm
        omega
      rw [last?, last?, List.getLast?_eq_getElem?, List.getLast?_eq_getElem?, hn', hi, hj,
        Option.map_some, Option.map_some, hs]
  meaning env v hv := by
    obtain ⟨views, hviews, hv⟩ := meaning_eq_some.mp hv
    obtain ⟨views', hviews', hstand⟩ := h.means env views hviews
    have hlen := length_meanings hviews
    have hlen' := length_meanings hviews'
    obtain ⟨n, hn, hsize⟩ := hlast (ne_nil_of_meanings hviews hv)
    rw [List.getLast?_eq_getElem?, h.length] at hn
    have hn' : q.instructions.length - 1 = n := by
      have : q.instructions.length = n + 1 := hsize.symm
      omega
    refine meaning_eq_some.mpr ⟨views', hviews', ?_⟩
    rw [List.getLast?_eq_getElem?, hlen', hn', hstand _ n hn, ← hlen, ← List.getLast?_eq_getElem?,
      hv]

/-- The state of a pass: what was rebuilt so far, with the newest instruction standing for
the one that was done last, if any does. -/
structure Progress (copies : List Operator) (p : Program) (done : List Instruction)
    (positions : List (Option Nat)) (q : Program) : Prop where
  rebuilt : Rebuilt copies done positions q.instructions
  parameters : q.parameters = p.parameters
  target : q.target = none
  last : ∀ n, positions.getLast? = some (some n) → n + 1 = q.size

theorem progress_nil (ht : p.target = none) :
    Progress copies p [] [] { p with instructions := [] } where
  rebuilt := rebuilt_nil
  parameters := rfl
  target := ht
  last _ h := nomatch h

/-! ## The instruction that is next -/

section Split

variable {is done rest : List Instruction} {i : Instruction}

theorem getElem?_of_split (hs : is = done ++ i :: rest) : is[done.length]? = some i := by
  rw [hs, List.getElem?_append_right (Nat.le_refl _), Nat.sub_self]
  rfl

theorem mem_of_split (hs : is = done ++ i :: rest) : i ∈ is :=
  List.mem_of_getElem? (getElem?_of_split hs)

theorem Fitted.of_split (h : Consistent is) (hs : is = done ++ i :: rest) : Fitted done i := by
  have hfit := h done.length i (getElem?_of_split hs)
  rwa [hs, List.take_left' rfl] at hfit

end Split

variable {done : List Instruction} {positions : List (Option Nat)} {i : Instruction}

theorem Renumbered.alike {new : List Instruction} (h : Rebuilt copies done positions new)
    {inputs inputs' : List Nat} (hr : Renumbered positions inputs inputs') :
    List.Forall₂ (Alike new) inputs' inputs' := by
  induction hr with
  | nil => exact .nil
  | cons hr _ ih =>
    obtain ⟨_, j, _, hj, _⟩ := h.stands _ _ hr
    exact .cons (Alike.refl hj) ih

theorem Rebuilt.progress (h : Rebuilt copies done positions q.instructions)
    (hp : q.parameters = p.parameters) (ht : q.target = none) {inputs inputs' : List Nat}
    (hr : Renumbered positions i.inputs inputs)
    (ha : List.Forall₂ (Alike q.instructions) inputs inputs') :
    Progress copies p (done ++ [i]) (positions ++ [some q.size])
      { q with instructions := q.instructions ++ [{ i with inputs := inputs' }] } where
  rebuilt := h.keep hr ha
  parameters := hp
  target := ht
  last n hn := by
    rw [List.getLast?_concat] at hn
    cases hn
    show q.instructions.length + 1 = (q.instructions ++ _).length
    rw [List.length_append]
    rfl

/-- An instruction is pushed as it is, with its inputs renumbered. -/
theorem Progress.push (h : Progress copies p done positions q) {inputs : List Nat}
    (hr : Renumbered positions i.inputs inputs) :
    Progress copies p (done ++ [i]) (positions ++ [some q.size])
      { q with instructions := q.instructions ++ [{ i with inputs := inputs }] } :=
  h.rebuilt.progress h.parameters h.target hr (hr.alike h.rebuilt)

theorem Progress.drop (h : Progress copies p done positions q) (hi : i.isParameter = false) :
    Progress copies p (done ++ [i]) (positions ++ [none]) q where
  rebuilt := h.rebuilt.drop hi
  parameters := h.parameters
  target := h.target
  last n hn := by
    rw [List.getLast?_concat] at hn
    cases hn

theorem Rebuilt.fitted {new : List Instruction} (h : Rebuilt copies done positions new)
    {inputs : List Nat} (hr : Renumbered positions i.inputs inputs) (hf : Fitted done i) :
    Fitted new { i with inputs := inputs } := by
  obtain ⟨shapes, hs, hinfer⟩ := hf
  exact ⟨shapes, h.shapesAt hr hs, hinfer⟩

/-! ## Dead code -/

theorem mark_mono {live live' : List Bool} {rs : List Nat} (h : mark live rs = some live')
    {k : Nat} (hk : live.getD k false = true) : live'.getD k false = true := by
  induction rs generalizing live with
  | nil =>
    cases h
    exact hk
  | cons r rs ih =>
    unfold mark at h
    split at h
    · refine ih h ?_
      rw [List.getD_eq_getElem?_getD] at hk ⊢
      by_cases hrk : r = k
      · subst hrk
        rw [List.getElem?_set_self ‹_›]
        rfl
      · rw [List.getElem?_set_ne hrk]
        exact hk
    · cases h

theorem sweep_mono {live live' : List Bool} {is : List Instruction}
    (h : sweep live is = some live') {k : Nat} (hk : live.getD k false = true) :
    live'.getD k false = true := by
  induction is generalizing live with
  | nil =>
    cases h
    exact hk
  | cons i is ih =>
    unfold sweep at h
    split at h
    · obtain ⟨marked, hm, h⟩ := Option.bind_eq_some_iff.mp h
      exact ih h (mark_mono hm hk)
    · exact ih h hk

theorem liveTable_last {live : List Bool} (h : liveTable p = some live)
    (hp : p.instructions ≠ []) : live.getD (p.size - 1) false = true := by
  refine sweep_mono h ?_
  have hpos : 0 < p.size := List.length_pos_iff.mpr hp
  rw [List.getD_eq_getElem?_getD, List.getElem?_set_self (by rw [List.length_replicate]; omega)]
  rfl

/-- Dead code elimination, where it is not refused, keeps programs consistent. -/
theorem eliminateDeadCode_value (hc : Consistent p.instructions) (ht : p.target = none) {u : Unit}
    (h : eliminateDeadCode p = .value u q) : Refines [] p q ∧ Consistent q.instructions := by
  unfold eliminateDeadCode at h
  rw [Action.bind_of_value Action.get_apply] at h
  by_cases hnil : p.instructions = []
  · rw [hnil] at h
    cases h
    have hrebuilt : Rebuilt [] p.instructions [] p.instructions := by
      rw [hnil]
      exact rebuilt_nil
    exact ⟨hrebuilt.refines rfl ht fun hne => absurd hnil hne, hc⟩
  · rw [List.isEmpty_eq_false_iff.mpr hnil] at h
    obtain ⟨live, p', hlift, hrun⟩ := Action.bind_eq_value.mp h
    obtain ⟨houtcome, hp'⟩ := Action.ofOutcome_eq_value.mp hlift
    have hlive : liveTable p = some live := Outcome.ofOption_eq_value.mp houtcome
    rw [hp', rebuild_apply] at hrun
    obtain ⟨positions, hprogress, hcons, hdead⟩ := rebuildFrom_value
      (I := fun done positions q => Progress [] p done positions q ∧ Consistent q.instructions ∧
        ∀ k : Nat, positions[k]? = some none → live.getD k false = false)
      (fun done i rest positions q now q' hsplit hI hstep => by
        obtain ⟨hprogress, hcons, hdead⟩ := hI
        obtain ⟨inputs, hr, hvalue⟩ := stepOn_eq_value hstep
        have hfit := hprogress.rebuilt.fitted hr (Fitted.of_split hc hsplit)
        split at hvalue
        · cases hvalue
          refine ⟨hprogress.push hr,
            consistent_concat.mpr ⟨hcons, hfit⟩, fun k hk => ?_⟩
          rcases getElem?_concat_eq hk with hk | ⟨-, hk⟩
          · exact hdead k hk
          · cases hk
        · next hnot =>
          cases hvalue
          rw [Bool.or_eq_true, not_or, Bool.not_eq_true, Bool.not_eq_true] at hnot
          refine ⟨hprogress.drop hnot.2, hcons, fun k hk => ?_⟩
          rcases getElem?_concat_eq hk with hk | ⟨rfl, -⟩
          · exact hdead k hk
          · exact hnot.1)
      (List.nil_append _).symm ⟨progress_nil ht, consistent_nil, fun _ hk => nomatch hk⟩ hrun
    refine ⟨hprogress.rebuilt.refines hprogress.parameters hprogress.target fun _ => ?_, hcons⟩
    have hlen := hprogress.rebuilt.length
    have hpos : 0 < p.instructions.length := List.length_pos_iff.mpr hnil
    have hget : positions.getLast? = some positions[positions.length - 1] := by
      rw [List.getLast?_eq_getElem?, List.getElem?_eq_getElem]
    cases hlast : positions[positions.length - 1] with
    | none =>
      have hfalse := hdead (positions.length - 1) (by
        rw [← List.getLast?_eq_getElem?, hget, hlast])
      rw [hlen] at hfalse
      have htrue := liveTable_last hlive hnil
      rw [size, hfalse] at htrue
      cases htrue
    | some n => exact ⟨n, by rw [hget, hlast], hprogress.last n (by rw [hget, hlast])⟩

end Program
end TensorGraph
