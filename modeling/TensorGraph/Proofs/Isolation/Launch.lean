/-
Launches in two worlds.

A launch on linked operands is accepted in the second world if it is in the first, and what it is
going to write is the same, because a kernel sees shapes and bytes and no addresses.  Where the
operands go together under the operator nothing fails when it runs, however much later that is.
-/
import TensorGraph.Proofs.Isolation.Transfers

namespace TensorGraph
namespace Device

variable {d : Device} {op : Operator} {output : Operand} {inputs operands : List Operand}

def Fits (d : Device) (operand : Operand) : Prop :=
  ∃ bytes, d.memory.find? operand.address = some bytes ∧
    ∀ n, operand.shape.storageBytes = some n → n ≤ bytes.size

theorem forEach_requireFits_of_fits (h : ∀ operand ∈ operands, d.Fits operand) :
    (Action.forEach requireFits operands d = .value () d ∧
        ∀ operand ∈ operands, operand.shape.storageBytes ≠ none) ∨
      Action.forEach requireFits operands d = .halted ∧
        ∃ operand ∈ operands, operand.shape.storageBytes = none := by
  induction operands with
  | nil => exact Or.inl ⟨rfl, fun _ hmem => nomatch hmem⟩
  | cons operand operands ih =>
    rw [List.forall_mem_cons] at h
    obtain ⟨⟨bytes, hfind, hfits⟩, hrest⟩ := h
    have hfirst : requireFits operand d = (do
        if bytes.size < (← operand.shape.storageBytes) then
          Action.refuse (.device .launch (.doesNotFit operand.shape bytes.size operand.address)) :
            Action Device Unit) d := by
      unfold requireFits
      rw [Action.bind_of_value (allocation_of_some hfind _)]
    rw [Action.forEach_cons]
    rcases Option.eq_none_or_eq_some operand.shape.storageBytes with hnone | ⟨n, hn⟩
    · rw [Action.bind_lift_of_none hnone] at hfirst
      exact Or.inr ⟨Action.bind_of_halted hfirst, operand, List.mem_cons_self, hnone⟩
    · rw [Action.bind_lift_of_some hn, if_neg (Nat.not_lt.mpr (hfits n hn))] at hfirst
      rw [Action.bind_of_value hfirst, List.forall_mem_cons]
      refine (ih hrest).imp (fun ⟨hvalue, hall⟩ => ⟨hvalue, ?_, hall⟩)
        fun ⟨hhalt, o, ho, hnone⟩ => ⟨hhalt, o, List.mem_cons_of_mem _ ho, hnone⟩
      rw [hn]
      exact Option.some_ne_none n

/-- A launch on operands that fit is refused for want of a kernel only. -/
theorem launch_of_fits (hfits : ∀ operand ∈ inputs ++ [output], d.Fits operand)
    (hother : ∀ i ∈ inputs, i.address ≠ output.address) :
    (d.supports op output.shape.dtype = true ∧
        launch op output inputs d = .value () (d.queued ⟨op, output, inputs⟩) ∧
        ∀ operand ∈ inputs ++ [output], operand.shape.storageBytes ≠ none) ∨
      d.supports op output.shape.dtype = true ∧ launch op output inputs d = .halted ∨
      d.supports op output.shape.dtype = false ∧ launch op output inputs d =
        .refused (.device .launch (.noKernel op.text output.shape.dtype)) d := by
  cases hsupports : d.supports op output.shape.dtype with
  | true =>
    rw [launch_of_supports hsupports hother]
    rcases forEach_requireFits_of_fits hfits with ⟨hvalue, hall⟩ | ⟨hhalt, -⟩
    · rw [Action.bind_of_value hvalue]
      exact Or.inl ⟨rfl, rfl, hall⟩
    · exact Or.inr (Or.inl ⟨rfl, Action.bind_of_halted hhalt⟩)
  | false =>
    refine Or.inr (Or.inr ⟨rfl, ?_⟩)
    unfold launch
    rw [Action.bind_of_value Action.get_apply, hsupports]
    rfl

theorem launch_of_storageBytes (hfits : ∀ operand ∈ inputs ++ [output], d.Fits operand)
    (hother : ∀ i ∈ inputs, i.address ≠ output.address)
    (hsupports : d.supports op output.shape.dtype = true)
    (hall : ∀ operand ∈ inputs ++ [output], operand.shape.storageBytes ≠ none) :
    launch op output inputs d = .value () (d.queued ⟨op, output, inputs⟩) := by
  rw [launch_of_supports hsupports hother]
  rcases forEach_requireFits_of_fits hfits with ⟨hvalue, -⟩ | ⟨-, operand, hmem, hnone⟩
  · exact Action.bind_of_value hvalue
  · exact absurd hnone (hall operand hmem)

end Device

open Operator (Infers)

variable {c : Comparison} {ps : List Pair} {p : Pair} {w₁ w₂ : World} {op : Operator}
variable {o₁ o₂ : Operand} {ins₁ ins₂ : List Operand} {t : Shape} {d₁ d₂ : Device}
variable {m m₁ m₂ : Memory}

/-- Whether two operands stand for one tensor, each on the device for new buffers, in a pair with
room for it. -/
structure Comparison.Operands (c : Comparison) (ps : List Pair) (o₁ o₂ : Operand) (p : Pair) :
    Prop where
  mem : p ∈ ps ++ c.shared
  here : p.1.device = c.here
  there : p.2.device = c.there
  left : o₁.address = p.1.address
  right : o₂.address = p.2.address
  shape : o₂.shape = o₁.shape
  room : ∀ n, o₁.shape.storageBytes = some n → n ≤ p.1.size

theorem Comparison.map_shape_eq
    (h : List.Forall₂ (fun o₁ o₂ => ∃ p, c.Operands ps o₁ o₂ p) ins₁ ins₂) :
    ins₂.map Operand.shape = ins₁.map Operand.shape := by
  rw [← List.forall₂_eq_eq_eq, List.forall₂_map_left_iff, List.forall₂_map_right_iff]
  exact List.Forall₂.flip (h.imp fun _ _ ⟨_, hi⟩ => hi.shape)

namespace Linked

theorem fits (h : Linked c ps w₁ w₂) (ho : c.Operands ps o₁ o₂ p)
    (hd₁ : w₁.devices[c.here]? = some d₁) (hd₂ : w₂.devices[c.there]? = some d₂) :
    d₁.Fits o₁ ∧ d₂.Fits o₂ := by
  obtain ⟨e₁, he₁, hmem₁⟩ := h.left.allocated (h.mem_left ho.mem)
  obtain ⟨e₂, he₂, hmem₂⟩ := h.right.allocated (h.mem_right ho.mem)
  rw [ho.here, hd₁] at he₁
  rw [ho.there, hd₂] at he₂
  cases he₁
  cases he₂
  obtain ⟨old₁, hold₁, hsize₁⟩ := (Memory.mem_layout_iff (h.left.device_firm hd₁).nodup).mp hmem₁
  obtain ⟨old₂, hold₂, hsize₂⟩ := (Memory.mem_layout_iff (h.right.device_firm hd₂).nodup).mp hmem₂
  refine ⟨⟨old₁, ho.left ▸ hold₁, fun n hn => ?_⟩, ⟨old₂, ho.right ▸ hold₂, fun n hn => ?_⟩⟩
  · rw [hsize₁]
    exact ho.room n hn
  · rw [hsize₂, h.size_eq ho.mem]
    exact ho.room n (ho.shape ▸ hn)

theorem forall_fits (h : Linked c ps w₁ w₂)
    (hos : List.Forall₂ (fun o₁ o₂ => ∃ p, c.Operands ps o₁ o₂ p) ins₁ ins₂)
    (hd₁ : w₁.devices[c.here]? = some d₁) (hd₂ : w₂.devices[c.there]? = some d₂) :
    (∀ o ∈ ins₁, d₁.Fits o) ∧ ∀ o ∈ ins₂, d₂.Fits o := by
  refine ⟨fun o hmem => ?_, fun o hmem => ?_⟩
  · obtain ⟨_, -, _, ho⟩ := exists_of_mem_left hos hmem
    exact (h.fits ho hd₁ hd₂).1
  · obtain ⟨_, -, _, ho⟩ := exists_of_mem_right hos hmem
    exact (h.fits ho hd₁ hd₂).2

/-- Operands in other pairs than one that was allocated in the course of the comparison are not
where it is. -/
theorem forall_address_ne (h : Linked c ps w₁ w₂) (hfresh : c.Fresh p)
    (hout : c.Operands ps o₁ o₂ p)
    (hins : List.Forall₂ (fun i₁ i₂ => ∃ q, q ≠ p ∧ c.Operands ps i₁ i₂ q) ins₁ ins₂) :
    (∀ i ∈ ins₁, i.address ≠ o₁.address) ∧ ∀ i ∈ ins₂, i.address ≠ o₂.address := by
  refine ⟨fun i hmem heq => ?_, fun i hmem heq => ?_⟩
  · obtain ⟨_, -, q, hne, hi⟩ := exists_of_mem_left hins hmem
    rw [hi.left, hout.left] at heq
    exact hne (h.eq_of_left hout.mem hfresh hi.mem hi.here heq)
  · obtain ⟨_, -, q, hne, hi⟩ := exists_of_mem_right hins hmem
    rw [hi.right, hout.right] at heq
    exact hne (h.eq_of_right hout.mem hfresh hi.mem hi.there heq)

theorem readsAlike (h : Linked c ps w₁ w₂) (ho : c.Operands ps o₁ o₂ p)
    (hd₁ : w₁.devices[c.here]? = some d₁) (hd₂ : w₂.devices[c.there]? = some d₂)
    (hm₁ : d₁.final? = some m₁) (hm₂ : d₂.final? = some m₂) : Memory.ReadsAlike m₁ m₂ o₁ o₂ := by
  rw [← ho.here] at hd₁
  obtain ⟨e₂, m, bytes, he₂, hm, hfind₁, hfind₂, -⟩ := h.exists_final? ho.mem hd₁ hm₁
  rw [ho.there, hd₂] at he₂
  cases he₂
  rw [hm₂] at hm
  cases hm
  refine ⟨ho.shape, ?_, Or.inr ?_⟩
  · rw [ho.left, ho.right, hfind₁, hfind₂]
  · rw [ho.left, hfind₁]
    exact Option.some_ne_none _

/-- A launch on linked operands writes the same in both worlds. -/
theorem result_eq (h : Linked c ps w₁ w₂) (hout : ∃ p, c.Operands ps o₁ o₂ p)
    (hins : List.Forall₂ (fun i₁ i₂ => ∃ p, c.Operands ps i₁ i₂ p) ins₁ ins₂)
    (hd₁ : w₁.devices[c.here]? = some d₁) (hd₂ : w₂.devices[c.there]? = some d₂)
    (hm₁ : d₁.final? = some m₁) (hm₂ : d₂.final? = some m₂) :
    m₂.result ⟨op, o₂, ins₂⟩ = m₁.result ⟨op, o₁, ins₁⟩ := by
  obtain ⟨p, ho⟩ := hout
  refine Memory.result_congr rfl (h.readsAlike ho hd₁ hd₂ hm₁ hm₂) (hins.imp ?_)
  rintro i₁ i₂ ⟨q, hi⟩
  exact h.readsAlike hi hd₁ hd₂ hm₁ hm₂

/-- Where the first queue runs to its end behind a launch the second does, and the two launches
write the same bytes. -/
theorem exists_final?_queued (h : Linked c ps w₁ w₂) (hout : ∃ p, c.Operands ps o₁ o₂ p)
    (hins : List.Forall₂ (fun i₁ i₂ => ∃ p, c.Operands ps i₁ i₂ p) ins₁ ins₂)
    (hd₁ : w₁.devices[c.here]? = some d₁) (hd₂ : w₂.devices[c.there]? = some d₂)
    (hm : (d₁.queued ⟨op, o₁, ins₁⟩).final? = some m) :
    ∃ m₁ m₂ bytes, d₁.final? = some m₁ ∧ m = m₁.replace o₁.address bytes ∧
      d₂.final? = some m₂ ∧
      (d₂.queued ⟨op, o₂, ins₂⟩).final? = some (m₂.replace o₂.address bytes) := by
  obtain ⟨e₂, he₂, hkin, hfirm₁, hfirm₂⟩ := h.exists_devices hd₁
  rw [hd₂] at he₂
  cases he₂
  obtain ⟨m₁, bytes, hm₁, hresult, rfl⟩ := hfirm₁.clear.final?_queued.mp hm
  obtain ⟨m₂, hm₂⟩ := hkin.final? m₁ hm₁
  have heq : m₂.result ⟨op, o₂, ins₂⟩ = m₁.result ⟨op, o₁, ins₁⟩ :=
    h.result_eq hout hins hd₁ hd₂ hm₁ hm₂
  exact ⟨m₁, m₂, bytes, hm₁, rfl, hm₂, hfirm₂.clear.final?_queued.mpr
    ⟨m₂, bytes, hm₂, heq.trans hresult, rfl⟩⟩

/-- Once both launches are queued, the pairs are linked as before: in the pair that is written the
bytes will be the same, and no other pair is touched. -/
theorem queued (h : Linked c ps w₁ w₂) (hp : p ∈ ps) (hfresh : c.Fresh p)
    (hout : c.Operands ps o₁ o₂ p)
    (hins : List.Forall₂ (fun i₁ i₂ => ∃ q, c.Operands ps i₁ i₂ q) ins₁ ins₂)
    (hinfers : Infers op (ins₁.map Operand.shape) o₁.shape) (hc : op.isCompute = true)
    (hd₁ : w₁.devices[c.here]? = some d₁) (hd₂ : w₂.devices[c.there]? = some d₂) :
    Linked c ps (w₁.setDevice c.here (d₁.queued ⟨op, o₁, ins₁⟩))
      (w₂.setDevice c.there (d₂.queued ⟨op, o₂, ins₂⟩)) := by
  obtain ⟨e₂, he₂, hkin, hfirm₁, hfirm₂⟩ := h.exists_devices hd₁
  rw [hd₂] at he₂
  cases he₂
  have hall : List.Forall₂ (fun o₁ o₂ => ∃ q, c.Operands ps o₁ o₂ q) (ins₁ ++ [o₁])
      (ins₂ ++ [o₂]) := List.rel_append hins (.cons ⟨p, hout⟩ .nil)
  obtain ⟨hfits₁, hfits₂⟩ := h.forall_fits hall hd₁ hd₂
  have hsure₁ : Launch.Sure ⟨op, o₁, ins₁⟩ := Launch.sure_of_infers hinfers hc
  have hsure₂ : Launch.Sure ⟨op, o₂, ins₂⟩ := by
    refine Launch.sure_of_infers ?_ hc
    rwa [Comparison.map_shape_eq hins, hout.shape]
  have hfind₁ : ∀ operand ∈ ins₁ ++ [o₁], ∃ bytes,
      d₁.memory.find? operand.address = some bytes :=
    fun operand hmem => (hfits₁ operand hmem).imp fun _ hfits => hfits.1
  have hfind₂ : ∀ operand ∈ ins₂ ++ [o₂], ∃ bytes,
      d₂.memory.find? operand.address = some bytes :=
    fun operand hmem => (hfits₂ operand hmem).imp fun _ hfits => hfits.1
  have hlater₁ := (h.left.own p.1 (List.mem_map_of_mem hp)).resolve_left hfresh.left
  have hlater₂ := (h.right.own p.2 (List.mem_map_of_mem hp)).resolve_left hfresh.right
  refine h.update hd₁ hd₂ rfl rfl ?_ ?_ h.pairs h.one (hfirm₁.clear.changes_queued _)
    (hfirm₂.clear.changes_queued _)
    ⟨fun m hm => ?_, hkin.next, hkin.unsupported, hkin.memory⟩ fun q hq => ?_
  · rw [← hout.here] at hd₁ ⊢
    exact h.left.queued hlater₁ hd₁ hsure₁ hfind₁ hout.left
  · rw [← hout.there] at hd₂ ⊢
    exact h.right.queued hlater₂ hd₂ hsure₂ hfind₂ hout.right
  · obtain ⟨_, _, _, -, -, -, hm₂⟩ := h.exists_final?_queued ⟨p, hout⟩ hins hd₁ hd₂ hm
    exact ⟨_, hm₂⟩
  · by_cases heq : q = p
    · subst heq
      refine Or.inl ⟨hout.here, hout.there, fun x hx => ?_⟩
      obtain ⟨m, hm, hfind⟩ := Device.read?_eq_some.mp hx
      obtain ⟨m₁, m₂, bytes, hm₁, rfl, hm₂, hm₂'⟩ :=
        h.exists_final?_queued ⟨q, hout⟩ hins hd₁ hd₂ hm
      have halike := h.readsAlike hout hd₁ hd₂ hm₁ hm₂
      rw [← hout.left, Memory.find?_replace, if_pos rfl, ← halike.bytes] at hfind
      rw [Device.read?_of_final? hm₂', ← hout.right, Memory.find?_replace, if_pos rfl, hfind]
    · refine Or.inr ⟨hq, fun hdevice haddress => heq ?_, fun hdevice haddress => heq ?_⟩
      · exact h.eq_of_left hout.mem hfresh hq hdevice (haddress.trans hout.left)
      · exact h.eq_of_right hout.mem hfresh hq hdevice (haddress.trans hout.right)

/-- A launch that writes to a pair that was allocated in the course of the comparison. -/
theorem launch (h : Linked c ps w₁ w₂) (hp : p ∈ ps) (hfresh : c.Fresh p)
    (hout : c.Operands ps o₁ o₂ p)
    (hins : List.Forall₂ (fun i₁ i₂ => ∃ q, q ≠ p ∧ c.Operands ps i₁ i₂ q) ins₁ ins₂)
    (hinfers : Infers op (ins₁.map Operand.shape) o₁.shape) (hc : op.isCompute = true)
    {short : Prop} :
    (World.onDevice c.here (Device.launch op o₁ ins₁) w₁).Foretells short
      (fun _ w₁ _ w₂ => Linked c ps w₁ w₂) (Linked c ps)
      (World.onDevice c.there (Device.launch op o₂ ins₂) w₂) := by
  obtain ⟨d₁, hd₁, -⟩ := h.left.allocated (h.mem_left hout.mem)
  rw [hout.here] at hd₁
  obtain ⟨d₂, hd₂, hkin, hfirm₁, hfirm₂⟩ := h.exists_devices hd₁
  have hinputs := hins.imp fun _ _ ⟨q, _, hi⟩ => (⟨q, hi⟩ : ∃ q, c.Operands ps _ _ q)
  have hall : List.Forall₂ (fun o₁ o₂ => ∃ q, c.Operands ps o₁ o₂ q) (ins₁ ++ [o₁])
      (ins₂ ++ [o₂]) := List.rel_append hinputs (.cons ⟨p, hout⟩ .nil)
  obtain ⟨hfits₁, hfits₂⟩ := h.forall_fits hall hd₁ hd₂
  obtain ⟨hother₁, hother₂⟩ := h.forall_address_ne hfresh hout hins
  have hsame : d₂.supports op o₂.shape.dtype = d₁.supports op o₁.shape.dtype := by
    unfold Device.supports
    rw [hkin.unsupported, hout.shape]
  rcases Device.launch_of_fits hfits₁ hother₁ with ⟨hsupports, hvalue₁, hbytes₁⟩ |
    ⟨-, hhalt⟩ | ⟨hsupports, hrefused₁⟩
  · have hbytes₂ : ∀ operand ∈ ins₂ ++ [o₂], operand.shape.storageBytes ≠ none := by
      rw [← List.forall_mem_map (f := Operand.shape)
        (P := fun s => s.storageBytes ≠ none)] at hbytes₁ ⊢
      rwa [Comparison.map_shape_eq hall]
    have hvalue₂ := Device.launch_of_storageBytes hfits₂ hother₂ (hsame.trans hsupports) hbytes₂
    rw [World.onDevice_of_value hd₁ hvalue₁, World.onDevice_of_value hd₂ hvalue₂]
    exact ⟨(), _, rfl, h.queued hp hfresh hout hinputs hinfers hc hd₁ hd₂⟩
  · rw [World.onDevice_of_halted hd₁ hhalt]
    exact trivial
  · have hrefused₂ : Device.launch op o₂ ins₂ d₂ =
        .refused (.device .launch (.noKernel op.text o₁.shape.dtype)) d₂ := by
      rcases Device.launch_of_fits hfits₂ hother₂ with ⟨htrue, -⟩ | ⟨htrue, -⟩ | ⟨-, hrefused₂⟩
      · rw [hsame, hsupports] at htrue
        cases htrue
      · rw [hsame, hsupports] at htrue
        cases htrue
      · rw [hrefused₂, hout.shape]
    rw [World.onDevice_of_refused hd₁ hrefused₁, World.onDevice_of_refused hd₂ hrefused₂]
    exact Or.inl ⟨_, rfl, h.quiet
      (World.quiet_setDevice h.left.devices_firm hd₁ (Device.quiet_refl hfirm₁))
      (World.quiet_setDevice h.right.devices_firm hd₂ (Device.quiet_refl hfirm₂))⟩

end Linked
end TensorGraph
