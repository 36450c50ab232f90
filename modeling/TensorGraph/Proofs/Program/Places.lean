/-
Where values are after transfers were inserted.

Without its transfers, each use of one put back to what it reads, a program is its `contract`ion.
Inserting transfers is undone by that, so it changes nothing else, and gives every value one place:
what starts on the host is read by the transfer right behind it and by nothing else, whatever else
is read is on the device, and the output alone is brought back, if that was asked for.
`insertTransfers_places` collects this.
-/
import TensorGraph.Proofs.Program.Liveness
import TensorGraph.Proofs.Program.Transfers

namespace TensorGraph
namespace Program

variable {p q : Program} {is js : List Instruction} {i j : Instruction} {r : Nat}
variable {done rest : List Instruction} {positions : List (Option Nat)} {origins : List Nat}

/-! ## Programs without their transfers -/

/-- The instructions that are left when transfers are deleted, and for every position the one of
them that its value comes from. -/
structure Contraction where
  origins : List Nat := []
  kept : List Instruction := []

/-- One more instruction.  A transfer stands for what it reads, and any other instruction is kept
and reads what the transfers stand for. -/
def Contraction.add (c : Contraction) (i : Instruction) : Option Contraction :=
  if i.op.isTransfer then
    match i.inputs with
    | [r] => do some { c with origins := c.origins ++ [← c.origins[r]?] }
    | _ => none
  else do
    let inputs ← i.inputs.mapM fun r => c.origins[r]?
    some ⟨c.origins ++ [c.kept.length], c.kept ++ [{ i with inputs := inputs }]⟩

def contract (is : List Instruction) : Option Contraction := is.foldlM Contraction.add {}

theorem contract_concat (is : List Instruction) (i : Instruction) :
    contract (is ++ [i]) = (contract is).bind fun c => c.add i := by
  unfold contract
  rw [List.foldlM_append]
  show (is.foldlM Contraction.add {}).bind _ = _
  congr 1
  funext c
  exact List.foldlM_cons.trans (bind_pure _)

theorem Contraction.length_of_add {c c' : Contraction} (h : c.add i = some c') :
    c'.origins.length = c.origins.length + 1 := by
  unfold Contraction.add at h
  split at h
  · split at h
    · obtain ⟨o, -, h⟩ := Option.bind_eq_some_iff.mp h
      cases h
      exact List.length_append
    · cases h
  · obtain ⟨inputs, -, h⟩ := Option.bind_eq_some_iff.mp h
    cases h
    exact List.length_append

theorem Contraction.length_origins {c : Contraction} (h : contract is = some c) :
    c.origins.length = is.length := by
  induction is using List.reverseRecOn generalizing c with
  | nil =>
    cases h
    rfl
  | append_singleton is i ih =>
    rw [contract_concat] at h
    obtain ⟨c', hc', hadd⟩ := Option.bind_eq_some_iff.mp h
    rw [Contraction.length_of_add hadd, ih hc', List.length_append]
    rfl

theorem contract_keep (h : contract is = some ⟨origins, done⟩) (ht : i.op.isTransfer = false)
    {inputs : List Nat} (hin : (i.inputs.mapM fun r => origins[r]?) = some inputs) :
    contract (is ++ [i]) =
      some ⟨origins ++ [done.length], done ++ [{ i with inputs := inputs }]⟩ := by
  rw [contract_concat, h, Option.bind_some]
  unfold Contraction.add
  rw [ht, if_neg Bool.false_ne_true]
  dsimp only
  rw [hin]
  rfl

theorem contract_transfer (h : contract is = some ⟨origins, done⟩) (ht : i.op.isTransfer = true)
    (hin : i.inputs = [r]) {o : Nat} (ho : origins[r]? = some o) :
    contract (is ++ [i]) = some ⟨origins ++ [o], done⟩ := by
  rw [contract_concat, h, Option.bind_some]
  unfold Contraction.add
  rw [if_pos ht, hin]
  dsimp only
  rw [ho]
  rfl

/-- What stands for old inputs comes from them. -/
theorem Renumbered.mapM_origins {inputs inputs' : List Nat}
    (h : Renumbered positions inputs inputs')
    (ho : ∀ k n : Nat, positions[k]? = some (some n) → origins[n]? = some k) :
    (inputs'.mapM fun r => origins[r]?) = some inputs := by
  induction h with
  | nil => rfl
  | cons hr _ ih =>
    rw [List.mapM_cons, ho _ _ hr, ih]
    rfl

/-! ## Values on the device -/

/-- Whether the value at a position is on the device: it was moved or computed there, or views
one that is. -/
inductive IsOnDevice (is : List Instruction) : Nat → Prop
  | moved {r : Nat} {i : Instruction} : is[r]? = some i → i.op = .hostToDevice → IsOnDevice is r
  | computed {r : Nat} {i : Instruction} : is[r]? = some i → i.op.isCompute = true → IsOnDevice is r
  | view {r s : Nat} {i : Instruction} : is[r]? = some i → i.op.isView = true → i.inputs = [s] →
      IsOnDevice is s → IsOnDevice is r

theorem IsOnDevice.append (h : IsOnDevice is r) (js : List Instruction) :
    IsOnDevice (is ++ js) r := by
  induction h with
  | moved hi hop => exact .moved (getElem?_append_of_some hi js) hop
  | computed hi hop => exact .computed (getElem?_append_of_some hi js) hop
  | view hi hop hin _ ih => exact .view (getElem?_append_of_some hi js) hop hin ih

theorem IsOnDevice.lt_length (h : IsOnDevice is r) : r < is.length := by
  cases h with
  | moved hi | computed hi | view hi => exact (List.getElem?_eq_some_iff.mp hi).1

theorem IsOnDevice.not_startsOnHost (h : IsOnDevice is r) (hi : is[r]? = some i) :
    startsOnHost i.op = false := by
  have hall : ∀ {j : Instruction}, is[r]? = some j → startsOnHost j.op = false →
      startsOnHost i.op = false := by
    intro j hj hop
    rw [hi] at hj
    cases hj
    exact hop
  cases h with
  | moved hj hop => exact hall hj (by rw [hop]; rfl)
  | @computed _ j hj hop =>
    refine hall hj ?_
    obtain ⟨op, inputs, s, kernel⟩ := j
    cases op <;> first | rfl | cases hop
  | @view _ _ j hj hop =>
    refine hall hj ?_
    obtain ⟨op, inputs, s, kernel⟩ := j
    cases op <;> first | rfl | cases hop

/-- What neither starts on the host nor transfers nor views computes. -/
theorem isCompute_of_else {op : Operator} (hhost : startsOnHost op = false)
    (htransfer : op.isTransfer = false) (hview : op.isView = false) : op.isCompute = true := by
  cases op <;> first | rfl | (cases hhost; done) | (cases htransfer; done) | cases hview

/-- An instruction that neither starts on the host nor transfers leaves its value where its inputs
are. -/
theorem onDevice_concat (hhost : startsOnHost i.op = false) (htransfer : i.op.isTransfer = false)
    (hfitted : Fitted is i) (h : ∀ r ∈ i.inputs, IsOnDevice is r) :
    IsOnDevice (is ++ [i]) is.length := by
  have hget : (is ++ [i])[is.length]? = some i := List.getElem?_concat_length
  by_cases hview : i.op.isView = true
  · obtain ⟨s, hs⟩ : ∃ s, i.inputs = [s] := by
      obtain ⟨shapes, hshapes, hinfer⟩ := hfitted
      rw [shapesAt_eq_some] at hshapes
      have hlen := hshapes.length_eq
      have hone : shapes.length = 1 := by
        obtain ⟨op, inputs, s, kernel⟩ := i
        cases op <;> first
          | (cases Operator.infers_of_infer hinfer; rfl)
          | cases hview
      exact List.length_eq_one_iff.mp (hlen.trans hone)
    exact .view hget hview hs ((h s (by rw [hs]; exact List.mem_singleton_self s)).append _)
  · exact .computed hget (isCompute_of_else hhost htransfer (Bool.eq_false_iff.mpr hview))

/-! ## The pass -/

/-- Whether what starts on the host is read by the transfer right behind it and nothing else, and
whatever else is read is on the device. -/
structure Wrapped (is : List Instruction) : Prop where
  moved : ∀ k i, is[k]? = some i → startsOnHost i.op = true →
    (∃ j, is[k + 1]? = some j ∧ j.op = .hostToDevice ∧ j.inputs = [k]) ∧
      ∀ m, ReadsAt is m k → m = k + 1
  onDevice : ∀ i ∈ is, i.op.isTransfer = false → ∀ r ∈ i.inputs, IsOnDevice is r

theorem wrapped_nil : Wrapped [] where
  moved _ _ hi := by cases hi
  onDevice _ hi := nomatch hi

theorem readsAt_concat {k m : Nat} : ReadsAt (is ++ [i]) m k ↔
    ReadsAt is m k ∨ m = is.length ∧ k ∈ i.inputs := by
  constructor
  · rintro ⟨j, hj, hk⟩
    rcases getElem?_concat_eq hj with hj | ⟨rfl, rfl⟩
    · exact Or.inl ⟨j, hj, hk⟩
    · exact Or.inr ⟨rfl, hk⟩
  · rintro (⟨j, hj, hk⟩ | ⟨rfl, hk⟩)
    · exact ⟨j, getElem?_append_of_some hj _, hk⟩
    · exact ⟨i, List.getElem?_concat_length, hk⟩

theorem Wrapped.onDevice_append (h : Wrapped is)
    (hj : ∀ j ∈ js, j.op.isTransfer = false → ∀ r ∈ j.inputs, IsOnDevice is r) :
    ∀ i ∈ is ++ js, i.op.isTransfer = false → ∀ r ∈ i.inputs, IsOnDevice (is ++ js) r := by
  rw [List.forall_mem_append]
  exact ⟨fun i hi ht r hr => (h.onDevice i hi ht r hr).append js,
    fun j hj' ht r hr => (hj j hj' ht r hr).append js⟩

theorem Wrapped.concat (h : Wrapped is) (hhost : startsOnHost i.op = false)
    (hreads : ∀ r ∈ i.inputs, IsOnDevice is r) : Wrapped (is ++ [i]) where
  moved k j hj hop := by
    rcases getElem?_concat_eq hj with hj | ⟨-, rfl⟩
    · obtain ⟨⟨c, hc, hcop, hin⟩, honly⟩ := h.moved k j hj hop
      refine ⟨⟨c, getElem?_append_of_some hc _, hcop, hin⟩, fun m hm => ?_⟩
      rcases readsAt_concat.mp hm with hm | ⟨-, hk⟩
      · exact honly m hm
      · rw [(hreads k hk).not_startsOnHost hj] at hop
        cases hop
    · rw [hhost] at hop
      cases hop
  onDevice := h.onDevice_append (List.forall_mem_singleton.mpr fun _ => hreads)

theorem Wrapped.concat_moved (h : Wrapped is) (hb : Backward is) {c : Instruction}
    (hreads : ∀ r ∈ i.inputs, IsOnDevice is r) (hop : c.op = .hostToDevice)
    (hin : c.inputs = [is.length]) : Wrapped (is ++ [i] ++ [c]) where
  moved k j hj hhost := by
    have hlen : (is ++ [i]).length = is.length + 1 := List.length_append
    have hreader : ∀ m, ReadsAt (is ++ [i] ++ [c]) m k →
        ReadsAt is m k ∨ k ∈ i.inputs ∨ m = is.length + 1 ∧ k = is.length := by
      intro m hm
      rcases readsAt_concat.mp hm with hm | ⟨hm, hk⟩
      · exact (readsAt_concat.mp hm).imp_right fun hm => Or.inl hm.2
      · rw [hin, List.mem_singleton] at hk
        exact Or.inr (Or.inr ⟨hm.trans hlen, hk⟩)
    rcases getElem?_concat_eq hj with hj | ⟨-, rfl⟩
    · rcases getElem?_concat_eq hj with hj | ⟨rfl, rfl⟩
      · obtain ⟨⟨c', hc', hcop, hcin⟩, honly⟩ := h.moved k j hj hhost
        refine ⟨⟨c', getElem?_append_of_some (getElem?_append_of_some hc' _) _, hcop, hcin⟩,
          fun m hm => ?_⟩
        rcases hreader m hm with hm | hk | ⟨-, rfl⟩
        · exact honly m hm
        · rw [(hreads k hk).not_startsOnHost hj] at hhost
          cases hhost
        · exact absurd (List.getElem?_eq_some_iff.mp hj).1 (Nat.lt_irrefl _)
      · refine ⟨⟨c, by rw [← hlen]; exact List.getElem?_concat_length, hop, hin⟩, fun m hm => ?_⟩
        rcases hreader m hm with hm | hk | ⟨hm, -⟩
        · exact absurd (hm.lt_length.trans (hb m _ hm)) (Nat.lt_irrefl m)
        · exact absurd (hreads _ hk).lt_length (Nat.lt_irrefl _)
        · exact hm
    · rw [hop] at hhost
      cases hhost
  onDevice := by
    rw [List.append_assoc, List.singleton_append]
    refine h.onDevice_append (List.forall_mem_cons.mpr ⟨fun _ => hreads, ?_⟩)
    rw [List.forall_mem_singleton, hop]
    exact fun hfalse => nomatch hfalse

theorem getElem?_concat_of_length {α : Type} {l : List α} {n : Nat} (h : l.length = n) (a : α) :
    (l ++ [a])[n]? = some a := by
  rw [← h]
  exact List.getElem?_concat_length

structure Wrapping (done : List Instruction) (positions : List (Option Nat)) (q : Program) : Prop
    where
  wrapped : Wrapped q.instructions
  stands : ∀ k n : Nat, positions[k]? = some (some n) → IsOnDevice q.instructions n
  contracted : ∃ origins, contract q.instructions = some ⟨origins, done⟩ ∧
    ∀ k n : Nat, positions[k]? = some (some n) → origins[n]? = some k

theorem wrapping_nil (p : Program) : Wrapping [] [] { p with instructions := [] } where
  wrapped := wrapped_nil
  stands _ _ hk := by cases hk
  contracted := ⟨[], rfl, fun _ _ hk => by cases hk⟩

theorem Wrapping.step (hc : Consistent p.instructions)
    (hfree : ∀ i ∈ p.instructions, i.op.isTransfer = false)
    (hsplit : p.instructions = done ++ i :: rest) (hm : Moving p done positions q)
    (h : Wrapping done positions q) {now : Option Nat} {q' : Program}
    (hq : stepOn moveStep positions i q = .value now q') :
    Wrapping (done ++ [i]) (positions ++ [now]) q' := by
  obtain ⟨inputs, hr, hq⟩ := stepOn_eq_value hq
  rw [moveStep_apply hm.progress.target] at hq
  have htransfer : i.op.isTransfer = false := hfree i (mem_of_split hsplit)
  have hreads : ∀ r ∈ inputs, IsOnDevice q.instructions r := hr.forall_mem h.stands
  have hlen : positions.length = done.length := hm.progress.rebuilt.length
  obtain ⟨origins, hcontract, horigin⟩ := h.contracted
  have hsize : origins.length = q.size := Contraction.length_origins hcontract
  have hpushed : contract (q.instructions ++ [{ i with inputs := inputs }]) =
      some ⟨origins ++ [done.length], done ++ [i]⟩ :=
    contract_keep (i := { i with inputs := inputs }) hcontract htransfer (hr.mapM_origins horigin)
  have hnew : (origins ++ [done.length])[q.size]? = some done.length :=
    getElem?_concat_of_length hsize _
  split at hq
  · cases hq
    refine ⟨h.wrapped.concat_moved hm.consistent.backward hreads rfl rfl, fun k n hk => ?_, _,
      contract_transfer hpushed rfl rfl hnew, fun k n hk => ?_⟩
    · rcases getElem?_concat_eq hk with hk | ⟨-, hn⟩
      · exact ((h.stands k n hk).append _).append _
      · cases hn
        exact .moved (getElem?_concat_of_length List.length_append _) rfl
    · rcases getElem?_concat_eq hk with hk | ⟨rfl, hn⟩
      · exact getElem?_append_of_some (getElem?_append_of_some (horigin k n hk) _) _
      · cases hn
        rw [hlen]
        refine getElem?_concat_of_length ?_ _
        rw [List.length_append, hsize]
        rfl
  · next hhost =>
    cases hq
    have hhost' : startsOnHost i.op = false := Bool.eq_false_iff.mpr hhost
    have hfitted := hm.progress.rebuilt.fitted hr (Fitted.of_split hc hsplit)
    refine ⟨h.wrapped.concat hhost' hreads, fun k n hk => ?_, _, hpushed, fun k n hk => ?_⟩
    · rcases getElem?_concat_eq hk with hk | ⟨-, hn⟩
      · exact (h.stands k n hk).append _
      · cases hn
        exact onDevice_concat hhost' htransfer hfitted hreads
    · rcases getElem?_concat_eq hk with hk | ⟨rfl, hn⟩
      · exact getElem?_append_of_some (horigin k n hk) _
      · cases hn
        rw [hnew, hlen]

/-- What the whole pass makes of a program, before the output is brought back. -/
theorem wrapping_of_rebuild (hc : Consistent p.instructions) (ht : p.target = none)
    (hfree : ∀ i ∈ p.instructions, i.op.isTransfer = false) {r : Program}
    (hr : rebuild moveStep p = .value () r) :
    ∃ positions, Moving p p.instructions positions r ∧ Wrapping p.instructions positions r := by
  rw [rebuild_apply] at hr
  exact rebuildFrom_value
    (I := fun done positions q => Moving p done positions q ∧ Wrapping done positions q)
    (fun done i rest positions q now q' hsplit h hstep =>
      ⟨h.1.step hc hsplit hstep, h.2.step hc hfree hsplit h.1 hstep⟩)
    (List.nil_append _).symm ⟨moving_nil ht, wrapping_nil p⟩ hr

/-- Inserting transfers gives every value one place.  On a program that was built, has an output
and transfers nothing itself the pass goes through, and without its transfers the result is that
program again.  What starts on the host is read by the transfer right behind it and nothing else;
every instruction that is no transfer reads values on the device only; and the output is brought
back exactly if that was asked for, by the last instruction, from where it is on the device. -/
theorem insertTransfers_places (p : Program) (offload : Bool) (hb : Built p)
    (hne : p.instructions ≠ []) (hfree : ∀ i ∈ p.instructions, i.op.isTransfer = false) :
    ∃ q c, (Pass.insertTransfers offload).apply p = .value () q ∧
      contract q.instructions = some c ∧ c.kept = p.instructions ∧
      (∀ k i, q.instructions[k]? = some i → startsOnHost i.op = true →
        (∃ j, q.instructions[k + 1]? = some j ∧ j.op = .hostToDevice ∧ j.inputs = [k]) ∧
          ∀ m, ReadsAt q.instructions m k → m = k + 1) ∧
      (∀ i ∈ q.instructions, i.op.isTransfer = false →
        ∀ r ∈ i.inputs, IsOnDevice q.instructions r) ∧
      (offload = true → ∃ i ∈ q.instructions, i.op = .deviceToHost) ∧
      ∀ k i, q.instructions[k]? = some i → i.op = .deviceToHost →
        offload = true ∧ k + 1 = q.size ∧ ∃ n, i.inputs = [n] ∧ IsOnDevice q.instructions n ∧
          c.origins[n]? = some (p.size - 1) := by
  obtain ⟨hwell, htarget, -, -⟩ := hb.unbound
  have hends : Turn.Ends True _ (insertTransfers offload p) :=
    insertTransfers_ends offload hwell.consistent htarget
  obtain ⟨_, q, hq, -, -, -, -, -, honly⟩ := hends.exists_value_of_fits trivial
  obtain ⟨r, hr, hback⟩ := insertTransfers_eq_value hq
  obtain ⟨positions, hm, h⟩ := wrapping_of_rebuild hwell.consistent htarget hfree hr
  obtain ⟨origins, hcontract, horigin⟩ := h.contracted
  have hlen : positions.length = p.size := hm.progress.rebuilt.length
  have hpos : 0 < p.size := List.length_pos_iff.mpr hne
  -- The last position stands for the output.
  obtain ⟨n, hn⟩ := hm.total (positions.length - 1) (by omega)
  have hsize : n + 1 = r.size := hm.progress.last n (List.getLast?_eq_getElem? ▸ hn)
  have hout : origins[n]? = some (p.size - 1) := by
    rw [horigin _ n hn, hlen]
  rcases hback with ⟨rfl, hempty⟩ | ⟨rfl, -, s, rfl⟩
  · have hoff : offload ≠ true := fun ho => by
      have hzero : q.size = 0 := List.length_eq_zero_iff.mpr (hempty ho)
      omega
    exact ⟨_, _, hq, hcontract, rfl, h.wrapped.moved, h.wrapped.onDevice, fun ho => absurd ho hoff,
      fun k i hi hop => absurd (honly hfree k i hi hop).1 hoff⟩
  · have hsize' : r.size - 1 = n := by omega
    rw [hsize'] at hq honly
    have hwrapped := h.wrapped.concat
      (i := { op := .deviceToHost, inputs := [n], shape := s }) rfl
      (List.forall_mem_singleton.mpr (h.stands _ n hn))
    refine ⟨_, _, hq, contract_transfer hcontract rfl rfl hout, rfl, hwrapped.moved,
      hwrapped.onDevice, fun _ => ⟨_, List.mem_append_right _ List.mem_cons_self, rfl⟩,
      fun k i hi hop => ?_⟩
    obtain ⟨hoffload, hlast⟩ := honly hfree k i hi hop
    have hk : k = r.instructions.length := by
      have hlen' : k + 1 = r.instructions.length + 1 := hlast.trans List.length_append
      omega
    rw [hk, List.getElem?_concat_length] at hi
    cases hi
    exact ⟨hoffload, hlast, n, rfl, (h.stands _ n hn).append _, getElem?_append_of_some hout _⟩

/-- The parameter of `twiceTransposed` is moved, the rest reads what was moved, and the copy at its
end is brought back. -/
theorem insertTransfers_places_twiceTransposed :
    (Built twiceTransposed ∧ twiceTransposed.instructions ≠ [] ∧
      ∀ i ∈ twiceTransposed.instructions, i.op.isTransfer = false) ∧
    ∃ q c, (Pass.insertTransfers true).apply twiceTransposed = .value () q ∧
      contract q.instructions = some c ∧ c.kept = twiceTransposed.instructions ∧
      c.origins = [0, 0, 1, 2, 3, 3] ∧
      q.instructions.map Instruction.inputs = [[], [0], [1], [2], [3], [4]] ∧
      (∀ i ∈ q.instructions, i.op.isTransfer = false →
        ∀ r ∈ i.inputs, IsOnDevice q.instructions r) ∧
      ∃ i ∈ q.instructions, i.op = .deviceToHost := by
  have hne : twiceTransposed.instructions ≠ [] := List.cons_ne_nil _ _
  have hfree : ∀ i ∈ twiceTransposed.instructions, i.op.isTransfer = false := by decide
  obtain ⟨q, c, hq, hc, hkept, -, hreads, hbrought, -⟩ :=
    insertTransfers_places twiceTransposed true built_twiceTransposed hne hfree
  refine ⟨⟨built_twiceTransposed, hne, hfree⟩, q, c, hq, hc, hkept, ?_, ?_, hreads, hbrought rfl⟩
  · cases hq
    cases hc
    rfl
  · cases hq
    rfl

end Program
end TensorGraph
