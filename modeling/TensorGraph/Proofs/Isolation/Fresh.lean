/-
Evaluations on a device of their own.

A program that was compiled for a device at some time is evaluated later in a world that others
have used since.  Beside it the same program is compiled for a fresh device and evaluated there:
the constants hold the same on both devices, and so do all values from then on, so both runs end
alike (`Program.run_beside_fresh`).
-/
import TensorGraph.Proofs.Isolation.Compile
import TensorGraph.Proofs.Isolation.Evaluate
import TensorGraph.Proofs.Isolation.Follows
import TensorGraph.Proofs.Isolation.Restore

namespace TensorGraph

/-! ## One device more -/

namespace World

variable {v w : World} {bs : List DeviceBuffer} {b : DeviceBuffer} {d d' : Device} {id : DeviceId}

def withDevice (w : World) (d : Device) : World := { w with devices := w.devices ++ [d] }

theorem getElem?_withDevice_self (w : World) (d : Device) :
    (w.withDevice d).devices[w.devices.length]? = some d := List.getElem?_concat_length

theorem getElem?_withDevice (hd : w.devices[id]? = some d) (d' : Device) :
    (w.withDevice d').devices[id]? = some d :=
  (List.getElem?_append_left (List.getElem?_eq_some_iff.mp hd).1).trans hd

theorem Firm.withDevice (h : w.Firm) (hd : d.Firm) : (w.withDevice d).Firm where
  devices e he := by
    rcases List.mem_append.mp he with he | he
    · exact h.devices e he
    · rw [List.mem_singleton.mp he]
      exact hd
  held b hb := by
    obtain ⟨e, he, hmem⟩ := h.held b hb
    exact ⟨e, getElem?_withDevice he d, hmem⟩

theorem Firm.device_ne (h : w.Firm) (hb : b ∈ w.held) : b.device ≠ w.devices.length := by
  obtain ⟨d, hd, -⟩ := h.held b hb
  exact Nat.ne_of_lt (List.getElem?_eq_some_iff.mp hd).1

theorem Firm.read?_withDevice (h : w.Firm) (hb : b ∈ w.held) (d : Device) :
    (w.withDevice d).read? b = w.read? b := by
  obtain ⟨e, he, -⟩ := h.held b hb
  rw [read?_of_device he, read?_of_device (getElem?_withDevice he d)]

/-- A device on which nothing was allocated later is as it was. -/
theorem Grown.restored_device (h : v.Grown bs w) (hd : w.devices[id]? = some d)
    (hbs : ∀ b ∈ bs, b.device ≠ id) : ∃ d₀, v.devices[id]? = some d₀ ∧ d₀.Restored d := by
  obtain ⟨d₀, hd₀, hgrown, hused⟩ := h.devices id d hd
  refine ⟨d₀, hd₀, hgrown.restored (h.base.device hd₀) fun e he => ?_⟩
  exact Nat.not_le.mp fun hle => hbs _ (hused e he hle) rfl

theorem Grown.read?_of_device_ne (h : v.Grown bs w) (hb : b ∈ v.held)
    (hbs : ∀ b' ∈ bs, b'.device ≠ b.device) : w.read? b = v.read? b := by
  obtain ⟨d₀, hd₀, -⟩ := h.base.held b hb
  obtain ⟨d, hd, -⟩ := h.exists_device hd₀
  obtain ⟨d₁, hd₁, hrestored⟩ := h.restored_device hd hbs
  rw [read?_of_device hd, read?_of_device hd₁, hrestored.read?]

end World

namespace Device

def fresh (unsupported : List Dtype) : Device := { unsupported := unsupported }

theorem firm_fresh (unsupported : List Dtype) : (fresh unsupported).Firm :=
  firm_of_reached ⟨none, unsupported, .refl⟩ (clear_of_queue_nil rfl rfl)

theorem final?_fresh (unsupported : List Dtype) : (fresh unsupported).final? = some [] :=
  final?_of_queue_nil rfl

end Device

/-! ## Compiling beside -/

namespace Program

variable {v v' u x : World} {id : DeviceId} {offload : Bool} {p q q' : Program} {d : Device}
variable {params : Parameters}

def besideFresh (v u : World) (id : DeviceId) (unsupported : List Dtype) : Comparison :=
  ⟨v, u.withDevice (.fresh unsupported), id, u.devices.length, [], True⟩

theorem linked_besideFresh (hv : v.Tidy) (hu : u.Tidy) (h : v.Follows u)
    (hd : u.devices[id]? = some d) :
    Linked (besideFresh v u id d.unsupported) [] v (u.withDevice (.fresh d.unsupported)) where
  fair := ⟨h.settings, (fun _ hp => nomatch hp), (fun _ hp => nomatch hp), (fun _ hp => nomatch hp)⟩
  left := World.grown_refl hv.firm
  right := World.grown_refl (hu.firm.withDevice (Device.firm_fresh _))
  pairs _ hp := nomatch hp
  one _ hp := nomatch hp
  reads _ hp := nomatch hp
  devices d₁ hd₁ := by
    obtain ⟨-, hunsupported⟩ := h.devices id d₁ d hd₁ hd
    exact ⟨_, World.getElem?_withDevice_self u _, fun _ _ => ⟨_, Device.final?_fresh _⟩,
      hv.next d₁ (List.mem_of_getElem? hd₁), hunsupported, Or.inr ⟨trivial, rfl⟩⟩

/-- Two compilations of a program and the world in which the first is evaluated later. -/
structure Beside (v v' u x : World) (id : DeviceId) (unsupported : List Dtype) (q q' : Program) :
    Prop where
  resembles : q.Resembles id u.devices.length q'
  linked : Linked (besideFresh v u id unsupported) (q.links q') v' x
  follows : v'.Follows u
  tidy : u.Tidy
  residents : q.residents ⊆ u.held

namespace Beside

/-- The buffers of both programs, and all that is held beside itself. -/
def comparison (u x : World) (id : DeviceId) (q q' : Program) : Comparison :=
  ⟨u, x, id, u.devices.length, q.links q' ++ u.held.map fun b => (b, b), True⟩

variable {unsupported : List Dtype} {r : Pair} {b : DeviceBuffer} {bytes : Bytes}

theorem fresh (h : Beside v v' u x id unsupported q q') (hr : r ∈ q.links q') :
    (besideFresh v u id unsupported).Fresh r :=
  (h.linked.pairs r hr).resolve_left fun hmem => nomatch hmem

theorem held_left (h : Beside v v' u x id unsupported q q') (hr : r ∈ q.links q') :
    r.1 ∈ u.held := by
  refine h.residents ?_
  rw [← h.resembles.residents.1]
  exact List.mem_map_of_mem hr

theorem held_right (h : Beside v v' u x id unsupported q q') (hr : r ∈ q.links q') : r.2 ∈ x.held :=
  h.linked.right.held.symm.subset (List.mem_append_left _ (List.mem_map_of_mem hr))

theorem held_self (h : Beside v v' u x id unsupported q q') (hb : b ∈ u.held) : b ∈ x.held :=
  h.linked.right.held.symm.subset (List.mem_append_right _ hb)

/-- The constants of both programs hold the same, whatever happened in between. -/
theorem reads_links (h : Beside v v' u x id unsupported q q') (hr : r ∈ q.links q')
    (hread : u.read? r.1 = some bytes) : x.read? r.2 = some bytes := by
  have hheld : r.1 ∈ v'.held :=
    h.linked.left.held.symm.subset (List.mem_append_left _ (List.mem_map_of_mem hr))
  exact h.linked.reads r (List.mem_append_left _ hr) bytes
    (h.follows.read? h.linked.left.firm hheld (h.held_left hr) hread)

/-- Compiling for the fresh device left all other devices alone. -/
theorem reads_self (h : Beside v v' u x id unsupported q q') (hb : b ∈ u.held) :
    x.read? b = u.read? b := by
  have hbs : ∀ b' ∈ (q.links q').map Prod.snd, b'.device ≠ b.device := by
    intro b' hb'
    obtain ⟨r, hr, rfl⟩ := List.mem_map.mp hb'
    rw [(h.fresh hr).there]
    exact (h.tidy.firm.device_ne hb).symm
  exact (h.linked.right.read?_of_device_ne hb hbs).trans (h.tidy.firm.read?_withDevice hb _)

/-- The device of a constant that can be read has run its queue to the end. -/
theorem exists_final? (h : Beside v v' u x id unsupported q q') (hr : r ∈ q.links q')
    {d₁ d₂ : Device} (hd₁ : u.devices[id]? = some d₁) (hd₂ : x.devices[u.devices.length]? = some d₂)
    {m₁ : Memory} (hm₁ : d₁.final? = some m₁) : ∃ m₂, d₂.final? = some m₂ := by
  obtain ⟨d, hd, hmem⟩ := h.tidy.firm.held r.1 (h.held_left hr)
  have hhere : r.1.device = id := (h.fresh hr).here
  have hthere : r.2.device = u.devices.length := (h.fresh hr).there
  rw [← hhere, hd] at hd₁
  cases hd₁
  obtain ⟨bytes, hfind, -⟩ := (h.tidy.firm.device hd).find?_of_final? hm₁ hmem
  have hread : x.read? r.2 = some bytes := by
    refine h.reads_links hr ?_
    rw [World.read?_of_device hd, Device.read?_of_final? hm₁, hfind]
  rw [← hthere] at hd₂
  rw [World.read?_of_device hd₂] at hread
  obtain ⟨m₂, hm₂, -⟩ := Device.read?_eq_some.mp hread
  exact ⟨m₂, hm₂⟩

theorem kin (h : Beside v v' u x id unsupported q q') {d₁ : Device}
    (hd₁ : u.devices[id]? = some d₁) :
    ∃ d₂, x.devices[u.devices.length]? = some d₂ ∧ (comparison u x id q q').Kin d₁ d₂ := by
  have hfresh : (besideFresh v u id unsupported).right.devices[u.devices.length]? =
      some (.fresh unsupported) := World.getElem?_withDevice_self u _
  obtain ⟨d₂, hd₂, hgrown⟩ := h.linked.right.exists_device hfresh
  obtain ⟨d, hd⟩ := h.follows.exists_earlier hd₁
  obtain ⟨d₂', hd₂', hkin⟩ := h.linked.devices d hd
  rw [show (besideFresh v u id unsupported).there = u.devices.length from rfl, hd₂] at hd₂'
  cases hd₂'
  obtain ⟨hnext, hunsupported⟩ := h.follows.devices id d d₁ hd hd₁
  refine ⟨d₂, hd₂, fun m₁ hm₁ => ?_, hkin.next.trans hnext,
    hkin.unsupported.trans hunsupported.symm, Or.inr ⟨trivial, hgrown.capacity⟩⟩
  cases hlinks : q.links q' with
  | nil =>
    have hbs : ∀ b ∈ (q.links q').map Prod.snd, b.device ≠ u.devices.length := by
      rw [hlinks]
      exact fun _ hb => nomatch hb
    obtain ⟨d₀, hd₀, hrestored⟩ := h.linked.right.restored_device hd₂ hbs
    rw [hfresh] at hd₀
    cases hd₀
    exact hrestored.exists_final?_symm (Device.final?_fresh _)
  | cons r rs =>
    have hr : r ∈ q.links q' := hlinks ▸ List.mem_cons_self
    exact h.exists_final? hr hd₁ hd₂ hm₁

theorem linked_comparison (h : Beside v v' u x id unsupported q q') :
    Linked (comparison u x id q q') [] u x where
  fair := by
    refine ⟨h.linked.right.settings, fun r hr => ?_, fun r hr => ?_, fun r hr hdevice => ?_⟩
    · rcases List.mem_append.mp hr with hr | hr
      · exact ⟨h.held_left hr, h.held_right hr⟩
      · obtain ⟨b, hb, rfl⟩ := List.mem_map.mp hr
        exact ⟨hb, h.held_self hb⟩
    · rcases List.mem_append.mp hr with hr | hr
      · exact (h.fresh hr).size
      · obtain ⟨b, hb, rfl⟩ := List.mem_map.mp hr
        rfl
    · rcases List.mem_append.mp hr with hr | hr
      · exact (h.fresh hr).here
      · obtain ⟨b, hb, rfl⟩ := List.mem_map.mp hr
        exact absurd hdevice (h.tidy.firm.device_ne hb)
  left := World.grown_refl h.tidy.firm
  right := World.grown_refl h.linked.right.firm
  pairs _ hp := nomatch hp
  one _ hp := nomatch hp
  reads r hr bytes hread := by
    rw [List.nil_append] at hr
    rcases List.mem_append.mp hr with hr | hr
    · exact h.reads_links hr hread
    · obtain ⟨b, hb, rfl⟩ := List.mem_map.mp hr
      rw [h.reads_self hb]
      exact hread
  devices _ hd₁ := h.kin hd₁

theorem twins (h : Beside v v' u x id unsupported q q') (hq : q.OnDevice id)
    (hq' : q'.OnDevice u.devices.length) : Twins (comparison u x id q q') q q' :=
  ⟨h.resembles, hq, hq', List.subset_append_left _ _⟩

theorem given (h : ∀ name a, params.lookup name = some a → a.holds ⊆ u.held) :
    Given (comparison u x id q q') params := fun name a ha =>
  List.subset_append_of_subset_right _ (Argument.links_self_subset (h name a ha))

end Beside

/-- A program that was compiled at some time is evaluated later as on a fresh device, as far as
the memory of its own suffices. -/
theorem run_beside_fresh (hp : Sound p) (hv : v.Tidy)
    (hcompile : p.compile (.device id offload) v = .value q v') (hfollows : v'.Follows u)
    (hu : u.Tidy) (hd : u.devices[id]? = some d) (hresidents : q.residents ⊆ u.held) :
    ∃ q' x, p.compile (.device u.devices.length offload)
        (u.withDevice (.fresh d.unsupported)) = .value q' x ∧
      ∀ params : Parameters, (∀ name a, params.lookup name = some a → a.holds ⊆ u.held) →
        ((q.run params >>= World.toHost) u).Foretells True (fun a _ b _ => a.Alike b)
          (fun _ _ => True) ((q'.run params >>= World.toHost) x) := by
  have hopen : p.target = none → p.residents = [] := fun ht => residents_eq_nil (hp.unbound ht)
  -- the compilation once more beside itself says what it added to its world
  have hself := compile_foretells (Target.alike_device id id offload) (hv.firm.linked_self id) hopen
  rw [hcompile] at hself
  obtain ⟨_, _, heq, -, hgrown⟩ := hself
  cases heq
  have hbeside := compile_foretells (Target.alike_device id u.devices.length offload)
    (linked_besideFresh hv hu (hgrown.left.follows.trans hfollows) hd) hopen
  rw [hcompile] at hbeside
  obtain ⟨q', x, hcompile', hresembles, hlinked⟩ := hbeside
  have h : Beside v v' u x id d.unsupported q q' :=
    ⟨hresembles, hlinked, hfollows, hu, hresidents⟩
  have htwins := h.twins (onDevice_of_compile hp hcompile) (onDevice_of_compile hp hcompile')
  refine ⟨q', x, hcompile', fun params hparams => ?_⟩
  refine Action.foretells_bind ((run_foretells h.linked_comparison htwins
    (Beside.given hparams)).mono
    (fun _ => trivial) (fun _ _ _ _ hr => hr) fun _ _ _ => trivial) ?_
  rintro a₁ w₁ a₂ w₂ ⟨hlinked, halike⟩
  exact (hlinked.toHost halike (List.subset_append_left _ _)).mono False.elim
    (fun _ _ _ _ hr => hr.2.1) fun _ _ _ => trivial

end Program
end TensorGraph
