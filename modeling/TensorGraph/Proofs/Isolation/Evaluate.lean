/-
Evaluations in two worlds.

Twins are run side by side on the same arguments.  What both runs keep is one table of pairs of
values, `Tabled` where each pair matches its instruction, and every step of a run carries it on.
So the second run ends as the first does, with a result that cannot be told from the first but by
the addresses of its buffers: `Linked.run`.
-/
import TensorGraph.Proofs.Isolation.Kernels

namespace TensorGraph
namespace Program

variable {c : Comparison} {ps : List Pair} {w₁ w₂ : World} {a₁ a₂ : Argument} {q₁ q₂ : Program}
variable {params : Parameters} {last : List (Option Nat)} {position output k r : Nat}
variable {is is₁ is₂ : List Instruction} {i₁ i₂ : Instruction} {short : Prop}
variable {here there : DeviceId}

/-! ## Tables of pairs -/

abbrev Table := List (Option (Argument × Argument))

variable {V : Table} {e : Argument × Argument}

def lefts (V : Table) : Values := V.map (Option.map Prod.fst)

def rights (V : Table) : Values := V.map (Option.map Prod.snd)

def pairsOf (V : Table) : List Pair := (V.filterMap id).flatMap fun e => e.1.links e.2

theorem pairsOf_replicate (n : Nat) : pairsOf (List.replicate n none) = [] := by
  have hnone : (List.replicate n none : Table).filterMap id = [] :=
    List.filterMap_eq_nil_iff.mpr fun _ hv => (List.mem_replicate.mp hv).2
  rw [pairsOf, hnone]
  rfl

theorem lefts_set (V : Table) (r : Nat) (v : Option (Argument × Argument)) :
    lefts (V.set r v) = (lefts V).set r (v.map Prod.fst) := List.map_set

theorem rights_set (V : Table) (r : Nat) (v : Option (Argument × Argument)) :
    rights (V.set r v) = (rights V).set r (v.map Prod.snd) := List.map_set

theorem lefts_getD (V : Table) (r : Nat) :
    (lefts V).getD r none = (V.getD r none).map Prod.fst := by
  rw [List.getD_eq_getElem?_getD, List.getD_eq_getElem?_getD, lefts, List.getElem?_map]
  cases V[r]? <;> rfl

theorem rights_getD (V : Table) (r : Nat) :
    (rights V).getD r none = (V.getD r none).map Prod.snd := by
  rw [List.getD_eq_getElem?_getD, List.getD_eq_getElem?_getD, rights, List.getElem?_map]
  cases V[r]? <;> rfl

theorem pairsOf_set (h : V[r]? = some (some e)) :
    (pairsOf V).Perm (e.1.links e.2 ++ pairsOf (V.set r none)) := by
  induction V generalizing r with
  | nil => cases h
  | cons v V ih =>
    cases r with
    | zero =>
      cases h
      exact .refl _
    | succ r =>
      have hrest : (pairsOf V).Perm (e.1.links e.2 ++ pairsOf (V.set r none)) := ih h
      cases v with
      | none => exact hrest
      | some e' =>
        refine (hrest.append_left (e'.1.links e'.2)).trans ?_
        have hswap : (e'.1.links e'.2 ++ e.1.links e.2 ++ pairsOf (V.set r none)).Perm
            (e.1.links e.2 ++ e'.1.links e'.2 ++ pairsOf (V.set r none)) :=
          List.perm_append_comm.append_right _
        rwa [List.append_assoc, List.append_assoc] at hswap

theorem set_none_of_free (h : V[r]? = some none ∨ V[r]? = none) : V.set r none = V := by
  rcases h with h | h
  · rw [← (List.getElem?_eq_some_iff.mp h).2, List.set_getElem_self]
  · exact List.set_eq_of_length_le (List.getElem?_eq_none_iff.mp h)

/-- Whether a table has pairs that match the instructions before a position, and no others. -/
structure Tabled (c : Comparison) (is : List Instruction) (k : Nat) (V : Table) : Prop where
  length : V.length = is.length
  entries : ∀ (r : Nat) e, V[r]? = some (some e) →
    r < k ∧ ∃ i : Instruction, is[r]? = some i ∧ Matches c i e.1 e.2

theorem tabled_zero (c : Comparison) (is : List Instruction) :
    Tabled c is 0 (List.replicate is.length none) := by
  refine ⟨List.length_replicate, fun r e hr => ?_⟩
  rw [List.getElem?_replicate] at hr
  split at hr <;> cases hr

theorem Tabled.succ (h : Tabled c is k V) : Tabled c is (k + 1) V :=
  ⟨h.length, fun r e hr => ⟨Nat.lt_succ_of_lt (h.entries r e hr).1, (h.entries r e hr).2⟩⟩

theorem Tabled.set_none (h : Tabled c is k V) (r : Nat) : Tabled c is k (V.set r none) := by
  refine ⟨(List.length_set ..).trans h.length, fun s e hs => h.entries s e ?_⟩
  rw [List.getElem?_set] at hs
  split at hs
  · split at hs <;> cases hs
  · exact hs

theorem Tabled.set_some (h : Tabled c is k V) (hi : is[k]? = some i₁)
    (hmatch : Matches c i₁ e.1 e.2) : Tabled c is (k + 1) (V.set k (some e)) := by
  refine ⟨(List.length_set ..).trans h.length, fun s e' hs => ?_⟩
  rw [List.getElem?_set] at hs
  split at hs
  · next heq =>
    subst heq
    split at hs <;> cases hs
    exact ⟨Nat.lt_succ_self k, i₁, hi, hmatch⟩
  · exact h.succ.entries s e' hs

theorem Tabled.free (h : Tabled c is k V) (hk : k < is.length) : V[k]? = some none := by
  refine getElem?_eq_some_none (by rwa [h.length]) fun e he => ?_
  exact Nat.lt_irrefl k (h.entries k e he).1

/-! ## Values that are given back -/

theorem links_subset_pairsOf (h : V[r]? = some (some e)) : e.1.links e.2 ⊆ pairsOf V :=
  fun _ hp => (pairsOf_set h).mem_iff.mpr (List.mem_append_left _ hp)

theorem forEach_release {es : List (Argument × Argument)} (hes : ∀ e ∈ es, e.1.Alike e.2)
    (h : Linked c (es.flatMap (fun e => e.1.links e.2) ++ ps) w₁ w₂) :
    (Action.forEach World.release (es.map Prod.fst) w₁).Foretells short
      (fun _ w₁ _ w₂ => Linked c ps w₁ w₂) (fun _ _ => False)
      (Action.forEach World.release (es.map Prod.snd) w₂) := by
  induction es generalizing w₁ w₂ with
  | nil => exact ⟨(), _, rfl, h⟩
  | cons e es ih =>
    rw [List.forall_mem_cons] at hes
    rw [List.flatMap_cons, List.append_assoc] at h
    exact Action.foretells_bind (h.release hes.1) fun _ _ _ _ h => ih hes.2 h

theorem filterMap_lefts (V : Table) : (lefts V).filterMap id = (V.filterMap id).map Prod.fst := by
  rw [lefts, List.filterMap_map, List.map_filterMap]
  rfl

theorem filterMap_rights (V : Table) : (rights V).filterMap id = (V.filterMap id).map Prod.snd := by
  rw [rights, List.filterMap_map, List.map_filterMap]
  rfl

theorem Tabled.alike (ht : Tabled c is k V) : ∀ e ∈ V.filterMap id, e.1.Alike e.2 := by
  intro e he
  obtain ⟨v, hv, rfl⟩ := List.mem_filterMap.mp he
  obtain ⟨r, hr⟩ := List.mem_iff_getElem?.mp hv
  obtain ⟨-, i, -, hmatch⟩ := ht.entries r e hr
  exact hmatch.alike

theorem releaseValues_foretells (ht : Tabled c is k V) (h : Linked c (pairsOf V ++ ps) w₁ w₂) :
    (releaseValues (lefts V) w₁).Foretells short (fun _ w₁ _ w₂ => Linked c ps w₁ w₂)
      (fun _ _ => False) (releaseValues (rights V) w₂) := by
  unfold releaseValues
  rw [filterMap_lefts, filterMap_rights]
  exact forEach_release ht.alike h

/-- Values whose last use an instruction was are given back in both runs. -/
theorem releaseDead_foretells {inputs : List Nat} (ht : Tabled c is k V)
    (h : Linked c (pairsOf V ++ ps) w₁ w₂) :
    (releaseDead last position (lefts V) inputs w₁).Foretells short
      (fun values₁ w₁ values₂ w₂ => ∃ V', values₁ = lefts V' ∧ values₂ = rights V' ∧
        Tabled c is k V' ∧ Linked c (pairsOf V' ++ ps) w₁ w₂)
      (fun _ _ => False) (releaseDead last position (rights V) inputs w₂) := by
  induction inputs generalizing V w₁ w₂ with
  | nil => exact ⟨_, _, rfl, V, rfl, rfl, ht, h⟩
  | cons s inputs ih =>
    unfold releaseDead
    by_cases hs : last[s]? = some (some position)
    · rw [if_pos hs, if_pos hs]
      have hrest : ∀ w₁ w₂, Linked c (pairsOf (V.set s none) ++ ps) w₁ w₂ →
          (releaseDead last position ((lefts V).set s none) inputs w₁).Foretells short
            (fun values₁ w₁ values₂ w₂ => ∃ V', values₁ = lefts V' ∧ values₂ = rights V' ∧
              Tabled c is k V' ∧ Linked c (pairsOf V' ++ ps) w₁ w₂)
            (fun _ _ => False)
            (releaseDead last position ((rights V).set s none) inputs w₂) := by
        intro w₁ w₂ h
        have hends := ih (ht.set_none s) h
        rwa [lefts_set, rights_set] at hends
      have hlefts : (lefts V)[s]? = (V[s]?).map (Option.map Prod.fst) := List.getElem?_map
      have hrights : (rights V)[s]? = (V[s]?).map (Option.map Prod.snd) := List.getElem?_map
      rcases hv : V[s]? with _ | _ | e
      · rw [hlefts, hrights, hv]
        exact hrest _ _ (by rwa [set_none_of_free (Or.inr hv)])
      · rw [hlefts, hrights, hv]
        exact hrest _ _ (by rwa [set_none_of_free (Or.inl hv)])
      · rw [hlefts, hrights, hv]
        obtain ⟨-, i, -, hmatch⟩ := ht.entries s e hv
        have hperm := (pairsOf_set hv).append_right ps
        rw [List.append_assoc] at hperm
        exact Action.foretells_bind ((h.perm hperm).release hmatch.alike) fun _ _ _ _ h =>
          hrest _ _ h
    · rw [if_neg hs, if_neg hs]
      exact ih ht h

/-! ## One instruction -/

theorem inputValues_alike (position : Nat) (V : Table) (inputs : List Nat) :
    (inputValues position (lefts V) inputs).Alike
      (fun as₁ as₂ => ∃ es, as₁ = es.map Prod.fst ∧ as₂ = es.map Prod.snd ∧
        List.Forall₂ (fun r e => V[r]? = some (some e)) inputs es)
      (inputValues position (rights V) inputs) := by
  induction inputs with
  | nil => exact .value ⟨[], rfl, rfl, .nil⟩
  | cons r inputs ih =>
    have hlefts : (lefts V)[r]? = (V[r]?).map (Option.map Prod.fst) := List.getElem?_map
    have hrights : (rights V)[r]? = (V[r]?).map (Option.map Prod.snd) := List.getElem?_map
    unfold inputValues
    rw [hlefts, hrights]
    rcases hv : V[r]? with _ | _ | e
    · exact .halted
    · exact .refused _
    · refine ih.bind ?_
      rintro _ _ - ⟨es, rfl, rfl, hes⟩
      exact .value ⟨e :: es, rfl, rfl, .cons hv hes⟩

/-- Whether the arguments of two runs are buffers that are held from the start. -/
def Given (c : Comparison) (params : Parameters) : Prop :=
  ∀ name a, params.lookup name = some a → a.links a ⊆ c.shared

theorem instructionValue_foretells (h : Linked c (pairsOf V) w₁ w₂) (ht : Twins c q₁ q₂)
    (hV : Tabled c q₁.instructions k V) (hgiven : Given c params)
    (hcheck : checkParameters params q₁.parameters = .value ())
    (hi₁ : q₁.instructions[k]? = some i₁) (hi₂ : q₂.instructions[k]? = some i₂) :
    (instructionValue params k i₁ (lefts V) w₁).Foretells c.short
      (fun a₁ w₁ a₂ w₂ => Linked c (a₁.links a₂ ++ pairsOf V) w₁ w₂ ∧ Matches c i₁ a₁ a₂)
      (Linked c (pairsOf V)) (instructionValue params k i₂ (rights V) w₂) := by
  obtain ⟨i₂', hi₂', hi⟩ := ht.resembles.exists_right hi₁
  rw [hi₂] at hi₂'
  cases hi₂'
  cases hp : i₁.isParameter with
  | true =>
    obtain ⟨name, s, hop⟩ := exists_parameter hp
    have hmem : (name, s) ∈ declared q₁.instructions :=
      mem_declared.mpr ⟨i₁, List.mem_of_getElem? hi₁, hop⟩
    obtain ⟨a, ha, hshape, -⟩ := checkParameters_eq_value hcheck (ht.left.parameters name s hmem)
    obtain ⟨shapes, -, hinfers⟩ := ht.left.consistent.infers hi₁
    rw [instructionValue_of_parameter hop ha,
      instructionValue_of_parameter (hi.op.trans hop) ha]
    have hmatch : Matches c i₁ a a := by
      refine ⟨a.alike_self, hshape.trans (hinfers.shape_of_parameter hop).symm, fun hstarts => ?_⟩
      rw [hop] at hstarts
      cases hstarts
    exact Action.foretells_bind (h.retain a.alike_self (List.subset_append_of_subset_right _
      (hgiven name a ha))).of_never fun _ _ _ _ h => ⟨_, _, rfl, h, hmatch⟩
  | false =>
    have hp₂ : i₂.isParameter = false := by
      rw [Instruction.isParameter, hi.op]
      exact hp
    obtain ⟨c₁, hk₁, -⟩ := ht.left.kernels i₁ (List.mem_of_getElem? hi₁) hp
    obtain ⟨c₂, hk₂, -⟩ := ht.right.kernels i₂ (List.mem_of_getElem? hi₂) hp₂
    rw [instructionValue_of_kernel hp hk₁, instructionValue_of_kernel hp₂ hk₂, hi.inputs, hi.shape]
    refine Action.foretells_bind (R := fun as₁ w₁ as₂ w₂ => (∃ es, as₁ = es.map Prod.fst ∧
      as₂ = es.map Prod.snd ∧ List.Forall₂ (fun r e => V[r]? = some (some e)) i₁.inputs es) ∧
        Linked c (pairsOf V) w₁ w₂) (Action.foretells_ofOutcome (inputValues_alike k V i₁.inputs)
      (fun _ _ _ hes => ⟨hes, h⟩) h) ?_
    rintro _ w₁ _ w₂ ⟨⟨es, rfl, rfl, hes⟩, h⟩
    refine h.compute ht hi₁ hi₂ hi hk₁ hk₂ hp (hes.imp fun r e hr => ?_)
    obtain ⟨-, j, hj, hmatch⟩ := hV.entries r e hr
    exact ⟨j, hj, hmatch, List.subset_append_of_subset_left _ (links_subset_pairsOf hr)⟩

theorem releasing_foretells (hV : Tabled c is k V) (hi : is[k]? = some i₁)
    (hinputs : i₂.inputs = i₁.inputs) (hmatch : Matches c i₁ a₁ a₂)
    (h : Linked c (a₁.links a₂ ++ pairsOf V) w₁ w₂) :
    (releasing last output k i₁ (lefts V) a₁ w₁).Foretells short
      (fun values₁ w₁ values₂ w₂ => ∃ V', values₁ = lefts V' ∧ values₂ = rights V' ∧
        Tabled c is (k + 1) V' ∧ Linked c (pairsOf V') w₁ w₂)
      (fun _ _ => False) (releasing last output k i₂ (rights V) a₂ w₂) := by
  have hfree := hV.free (List.getElem?_eq_some_iff.mp hi).1
  unfold releasing
  rw [hinputs]
  by_cases hkeep : ((last.getD k none).isSome || decide (k = output)) = true
  · rw [if_pos hkeep, if_pos hkeep]
    have hself : (V.set k (some (a₁, a₂)))[k]? = some (some (a₁, a₂)) :=
      List.getElem?_set_self (List.getElem?_eq_some_iff.mp hfree).1
    have hperm := (pairsOf_set hself).symm
    rw [List.set_set, set_none_of_free (Or.inl hfree)] at hperm
    have hset : Linked c (pairsOf (V.set k (some (a₁, a₂))) ++ []) w₁ w₂ := by
      rw [List.append_nil]
      exact h.perm hperm
    have hlefts : (lefts V).set k (some a₁) = lefts (V.set k (some (a₁, a₂))) :=
      (lefts_set V k (some (a₁, a₂))).symm
    have hrights : (rights V).set k (some a₂) = rights (V.set k (some (a₁, a₂))) :=
      (rights_set V k (some (a₁, a₂))).symm
    rw [hlefts, hrights]
    refine (releaseDead_foretells (hV.set_some hi hmatch) hset).mono id ?_ fun _ _ => False.elim
    rintro _ w₁ _ w₂ ⟨V', rfl, rfl, hV', h⟩
    rw [List.append_nil] at h
    exact ⟨V', rfl, rfl, hV', h⟩
  · rw [if_neg hkeep, if_neg hkeep]
    refine Action.foretells_bind (releaseDead_foretells hV (h.perm List.perm_append_comm)) ?_
    rintro _ w₁ _ w₂ ⟨V', rfl, rfl, hV', h⟩
    refine Action.foretells_bind ((h.perm List.perm_append_comm).release hmatch.alike)
      fun _ w₁ _ w₂ h => ?_
    exact ⟨_, _, rfl, V', rfl, rfl, hV'.succ, h⟩

theorem settling_foretells (hV : Tabled c is k V) (hi : is[k]? = some i₁)
    (hinputs : i₂.inputs = i₁.inputs) (hmatch : Matches c i₁ a₁ a₂)
    (h : Linked c (a₁.links a₂ ++ pairsOf V) w₁ w₂) :
    (settling last output k i₁ (lefts V) a₁ w₁).Foretells short
      (fun values₁ w₁ values₂ w₂ => ∃ V', values₁ = lefts V' ∧ values₂ = rights V' ∧
        Tabled c is (k + 1) V' ∧ Linked c (pairsOf V') w₁ w₂)
      (fun _ _ => False) (settling last output k i₂ (rights V) a₂ w₂) := by
  unfold settling
  rw [Action.bind_of_value Action.get_apply, Action.bind_of_value Action.get_apply, h.settings]
  split
  · exact Action.foretells_bind (h.note _ _ _ _) fun _ _ _ _ h =>
      releasing_foretells hV hi hinputs hmatch h
  · exact releasing_foretells hV hi hinputs hmatch h

theorem runStep_foretells (h : Linked c (pairsOf V) w₁ w₂) (ht : Twins c q₁ q₂)
    (hV : Tabled c q₁.instructions k V) (hgiven : Given c params)
    (hcheck : checkParameters params q₁.parameters = .value ())
    (hi₁ : q₁.instructions[k]? = some i₁) (hi₂ : q₂.instructions[k]? = some i₂) :
    (runStep params last output k (lefts V) i₁ w₁).Foretells c.short
      (fun values₁ w₁ values₂ w₂ => ∃ V', values₁ = lefts V' ∧ values₂ = rights V' ∧
        Tabled c q₁.instructions (k + 1) V' ∧ Linked c (pairsOf V') w₁ w₂)
      (Linked c []) (runStep params last output k (rights V) i₂ w₂) := by
  obtain ⟨_, hi₂', hi⟩ := ht.resembles.exists_right hi₁
  rw [hi₂] at hi₂'
  cases hi₂'
  rw [runStep_eq, runStep_eq]
  refine Action.foretells_bind (Action.foretells_onRefusal (L := Linked c (pairsOf V))
    (instructionValue_foretells h ht hV hgiven hcheck hi₁ hi₂) fun w₁ w₂ h =>
      releaseValues_foretells hV (by rwa [List.append_nil])) ?_
  rintro a₁ w₁ a₂ w₂ ⟨h, hmatch⟩
  exact (settling_foretells hV hi₁ hi.inputs hmatch h).of_never

/-! ## Runs -/

theorem runFrom_foretells (last : List (Option Nat)) (output : Nat)
    (h : Linked c (pairsOf V) w₁ w₂) (ht : Twins c q₁ q₂)
    (hV : Tabled c q₁.instructions k V) (hgiven : Given c params)
    (hcheck : checkParameters params q₁.parameters = .value ())
    (his₁ : is₁ = q₁.instructions.drop k) (his₂ : is₂ = q₂.instructions.drop k) :
    (runFrom params last output k (lefts V) is₁ w₁).Foretells c.short
      (fun values₁ w₁ values₂ w₂ => ∃ V' k', values₁ = lefts V' ∧ values₂ = rights V' ∧
        Tabled c q₁.instructions k' V' ∧ Linked c (pairsOf V') w₁ w₂)
      (Linked c []) (runFrom params last output k (rights V) is₂ w₂) := by
  induction is₁ generalizing k V is₂ w₁ w₂ with
  | nil =>
    have hle : q₂.instructions.length ≤ k :=
      ht.resembles.instructions.length_eq ▸ List.drop_eq_nil_iff.mp his₁.symm
    obtain rfl : is₂ = [] := his₂.trans (List.drop_eq_nil_iff.mpr hle)
    exact ⟨_, _, rfl, V, k, rfl, rfl, hV, h⟩
  | cons i₁ is₁ ih =>
    have hi₁ : q₁.instructions[k]? = some i₁ := by
      rw [← List.head?_drop, ← his₁]
      rfl
    obtain ⟨i₂, hi₂, hi⟩ := ht.resembles.exists_right hi₁
    obtain ⟨hlt₂, hget₂⟩ := List.getElem?_eq_some_iff.mp hi₂
    obtain rfl : is₂ = i₂ :: q₂.instructions.drop (k + 1) := by
      rw [his₂, List.drop_eq_getElem_cons hlt₂, hget₂]
    rw [runFrom_cons, runFrom_cons]
    refine Action.foretells_bind (runStep_foretells h ht hV hgiven hcheck hi₁ hi₂) ?_
    rintro _ w₁ _ w₂ ⟨V', rfl, rfl, hV', h⟩
    refine ih h hV' ?_ rfl
    rw [← List.drop_drop, ← his₁]
    rfl

theorem lastUsesFrom_congr (h : List.Forall₂ (Instruction.Alike here there) is₁ is₂)
    (last : List (Option Nat)) (position : Nat) :
    lastUsesFrom last position is₂ = lastUsesFrom last position is₁ := by
  induction h generalizing last position with
  | nil => rfl
  | cons hi _ ih =>
    unfold lastUsesFrom
    rw [hi.inputs]
    simp only [ih]

theorem Resembles.lastUses (h : q₁.Resembles here there q₂) :
    lastUses q₂ = lastUses q₁ := by
  unfold Program.lastUses
  rw [h.size, lastUsesFrom_congr h.instructions]

theorem Resembles.output? (h : q₁.Resembles here there q₂) :
    q₂.output? = q₁.output? := by
  have hempty : q₂.instructions.isEmpty = q₁.instructions.isEmpty := by
    obtain ⟨hall, -, -⟩ := h
    generalize q₁.instructions = is₁, q₂.instructions = is₂ at hall
    cases hall <;> rfl
  unfold Program.output?
  rw [h.size, hempty]

/-- Evaluations of twins on the same arguments end alike. -/
theorem run_foretells (h : Linked c [] w₁ w₂) (ht : Twins c q₁ q₂) (hgiven : Given c params) :
    (q₁.run params w₁).Foretells c.short
      (fun a₁ w₁ a₂ w₂ => Linked c (a₁.links a₂) w₁ w₂ ∧ a₁.Alike a₂) (Linked c [])
      (q₂.run params w₂) := by
  unfold run
  rw [ht.resembles.isCompiled, ht.resembles.parameters, ht.resembles.output?,
    ht.resembles.lastUses, ht.resembles.size]
  split
  · exact Or.inl ⟨_, rfl, h⟩
  · refine Action.foretells_bind (R := fun _ w₁ _ w₂ =>
      checkParameters params q₁.parameters = .value () ∧ Linked c [] w₁ w₂)
      (Action.foretells_lift (fun _ hcheck => ⟨hcheck, h⟩) h) ?_
    rintro _ w₁ _ w₂ ⟨hcheck, h⟩
    cases q₁.output? with
    | none => exact Or.inl ⟨_, rfl, h⟩
    | some output =>
      refine Action.foretells_bind (R := fun last₁ w₁ last₂ w₂ => last₁ = last₂ ∧
        Linked c [] w₁ w₂) (Action.foretells_lift (fun _ _ => ⟨rfl, h⟩) h) ?_
      rintro last w₁ _ w₂ ⟨rfl, h⟩
      have hstart : ∀ f : Argument × Argument → Argument,
          (List.replicate q₁.instructions.length none : Table).map (Option.map f) =
            List.replicate q₁.size none := fun f => List.map_replicate
      have hnil := pairsOf_replicate q₁.instructions.length
      have hruns := runFrom_foretells last output (hnil.symm ▸ h) ht
        (tabled_zero c q₁.instructions) hgiven hcheck (List.drop_zero).symm (List.drop_zero).symm
      rw [lefts, rights, hstart, hstart] at hruns
      refine Action.foretells_bind hruns ?_
      rintro _ w₁ _ w₂ ⟨V, k, rfl, rfl, hV, h⟩
      rw [lefts_getD, rights_getD]
      cases hv : V.getD output none with
      | none =>
        exact Action.foretells_bind ((releaseValues_foretells hV
          (by rwa [List.append_nil])).of_never) fun _ w₁ _ w₂ h => Or.inl ⟨_, rfl, h⟩
      | some e =>
        have hget : V[output]? = some (some e) := getD_eq_some.mp hv
        obtain ⟨-, i, -, hmatch⟩ := hV.entries output e hget
        have hperm := (pairsOf_set hget).trans List.perm_append_comm
        have hlefts : (lefts V).set output none = lefts (V.set output none) :=
          (lefts_set V output none).symm
        have hrights : (rights V).set output none = rights (V.set output none) :=
          (rights_set V output none).symm
        dsimp only [Option.map_some]
        rw [hlefts, hrights]
        exact Action.foretells_bind (releaseValues_foretells (hV.set_none output)
          (h.perm hperm)).of_never fun _ w₁ _ w₂ h => ⟨_, _, rfl, h, hmatch.alike⟩

end Program
end TensorGraph
