/-
Refused compilations and runs.

A compilation or a run that is refused, at whatever point, leaves the world that it found but for
the addresses that it used up, so it may as well not have been made: `Session.compile_refused`
and `Program.run_refused`.
-/
import TensorGraph.Proofs.Isolation.Compile
import TensorGraph.Proofs.Isolation.Evaluate
import TensorGraph.Proofs.Isolation.Parameters
import TensorGraph.Proofs.Isolation.Restore
import TensorGraph.Proofs.Program.Residence
import TensorGraph.Session

namespace TensorGraph

variable {v w w' w₁ w₂ : World} {id : DeviceId} {e : Error} {a a₁ a₂ : Argument}
variable {p q q₁ q₂ : Program} {t : Target} {params : Parameters} {offload : Bool} {ps : List Pair}

namespace World

def ReadsAlike (ps : List Pair) (w₁ w₂ : World) : Prop :=
  ∀ p ∈ ps, ∀ bytes, w₁.read? p.1 = some bytes → w₂.read? p.2 = some bytes

end World

theorem Linked.readsAlike_pairs {c : Comparison} (h : Linked c ps w₁ w₂) :
    World.ReadsAlike ps w₁ w₂ := fun p hp => h.reads p (List.mem_append_left _ hp)

/-! ## Compilations -/

/-- Whether two programs are the same but for the addresses of their constants, and their
constants are the same. -/
def Program.Copies (q₁ : Program) (w₁ : World) (q₂ : Program) (w₂ : World) : Prop :=
  (∃ id, q₁.Resembles id id q₂) ∧ World.ReadsAlike (q₁.links q₂) w₁ w₂

theorem Target.exists_alike_self (t : Target) : ∃ id, Target.Alike id id t t := by
  obtain ⟨name, passes, backend⟩ := t
  cases backend with
  | host refused => exact ⟨0, rfl, rfl, .host refused⟩
  | device id => exact ⟨id, rfl, rfl, .device⟩

namespace Program

theorem compile_restored (hw : w.Firm) (hp : p.target = none → p.residents = [])
    (h : p.compile t w = .refused e w') : w.Restored w' := by
  obtain ⟨id, ht⟩ := t.exists_alike_self
  exact World.restored_of_refused (compile_foretells ht (hw.linked_self id) hp) h

theorem compile_asBefore (h : v.Restored w) (hv : v.Firm)
    (hp : p.target = none → p.residents = []) : World.AsBefore Copies (p.compile t) v w := by
  obtain ⟨id, ht⟩ := t.exists_alike_self
  refine h.asBefore hv id fun v₁ v₂ _ hlinked => ?_
  refine (compile_foretells ht hlinked hp).mono False.elim ?_ fun _ _ _ => trivial
  rintro q₁ w₁ q₂ w₂ ⟨hresembles, hlinked⟩
  exact ⟨⟨id, hresembles⟩, hlinked.readsAlike_pairs⟩

end Program

namespace Session

variable {s s' : Session} {name : String}

theorem inWorld_apply {α : Type} (x : Action World α) (s : Session) :
    inWorld x s = match x s.world with
      | .value a w => .value a { s with world := w }
      | .refused e w => .refused e { s with world := w }
      | .halted => .halted := by
  unfold inWorld Action.zoom
  cases x s.world <;> rfl

theorem compile_eq_refused (hp : s.programs.lookup name = some p)
    (h : compile name t s = .refused e s') :
    ∃ w', p.compile t s.world = .refused e w' ∧ s' = { s with world := w' } := by
  have hprogram : program name s = .value p s := by
    unfold Session.program
    rw [Action.bind_of_value Action.get_apply, hp]
    rfl
  have hlift : (liftM (p.compile t) : Action Session Program) s = inWorld (p.compile t) s := rfl
  unfold compile at h
  rw [Action.bind_of_value hprogram, Action.bind_apply, hlift, inWorld_apply] at h
  cases hcompile : p.compile t s.world with
  | value q w' =>
    rw [hcompile] at h
    cases h
  | refused e' w' =>
    rw [hcompile] at h
    cases h
    exact ⟨w', rfl, rfl⟩
  | halted =>
    rw [hcompile] at h
    cases h

/-- A compilation that is refused, in whatever pass or at whatever instruction, leaves all
programs and all device memory as they were, and later compilations for any target end as if it
had not been made. -/
theorem compile_refused (hp : s.programs.lookup name = some p)
    (hopen : p.target = none → p.residents = []) (hs : s.world.Calm)
    (h : compile name t s = .refused e s') :
    s'.programs = s.programs ∧ s'.arguments = s.arguments ∧ s'.devices = s.devices ∧
    s.world.Unchanged s'.world ∧
    ∀ (q : Program) (u : Target), (q.target = none → q.residents = []) →
      World.AsBefore Program.Copies (q.compile u) s.world s'.world := by
  obtain ⟨w', hcompile, rfl⟩ := compile_eq_refused hp h
  have hrestored := Program.compile_restored hs.firm hopen hcompile
  exact ⟨rfl, rfl, rfl, hrestored.unchanged hs.firm,
    fun q u hq => Program.compile_asBefore hrestored hs.firm hq⟩

def twoNumbers : Program where
  instructions :=
    [{ op := .literal ⟨⟨.float, [⟨2, 1⟩]⟩, .ofBytes 0 #[0, 0, 0x80, 0x3f, 0, 0, 0, 0x40]⟩,
       inputs := [], shape := ⟨.float, [⟨2, 1⟩]⟩ },
     { op := .add, inputs := [0, 0], shape := ⟨.float, [⟨2, 1⟩]⟩ }]

/-- On a device that cannot add them the numbers are moved there and given back again. -/
theorem compile_refused_twoNumbers :
    ∃ e s' d, compile "p" (.device 0 true)
        { world := { devices := [.withoutDtype .float] }, programs := [("p", twoNumbers)] } =
      .refused e s' ∧ s'.programs = [("p", twoNumbers)] ∧
      World.Unchanged { devices := [.withoutDtype .float] } s'.world ∧
      s'.world.devices = [d] ∧ d.stats.allocations = 1 ∧ d.stats.live = 0 := by
  let s : Session :=
    { world := { devices := [.withoutDtype .float] }, programs := [("p", twoNumbers)] }
  obtain ⟨e, s', h, htest⟩ := Turn.exists_of_refusedIn
    (show (compile "p" (.device 0 true) s).refusedIn (fun s' =>
      decide (s'.world.devices.map (fun d => d.stats.allocations) = [1])) = true by decide +kernel)
  obtain ⟨hprograms, -, -, hunchanged, -⟩ :=
    compile_refused rfl (fun _ => rfl) (World.calm_untouched none [.float]) h
  obtain ⟨d, hd, hallocations⟩ := List.map_eq_singleton_iff.mp (of_decide_eq_true htest)
  refine ⟨e, s', d, h, hprograms, hunchanged, hd, hallocations, ?_⟩
  have hdevices := hunchanged.devices
  rw [hd] at hdevices
  exact (List.forall₂_cons.mp hdevices).1.live

end Session

/-! ## Runs -/

/-- Whether two arguments are the same but for where they are, with the same elements. -/
def Argument.Copies (a₁ : Argument) (w₁ : World) (a₂ : Argument) (w₂ : World) : Prop :=
  a₁.Alike a₂ ∧ World.ReadsAlike (a₁.links a₂) w₁ w₂

structure World.Keeps (w : World) (q : Program) (params : Parameters) : Prop where
  residents : q.residents ⊆ w.held
  arguments : ∀ name a, params.lookup name = some a → a.holds ⊆ w.held

theorem World.Keeps.mono (h : v.Keeps q params) (hheld : v.held ⊆ w.held) : w.Keeps q params where
  residents := List.Subset.trans h.residents hheld
  arguments name a ha := List.Subset.trans (h.arguments name a ha) hheld

namespace Program

theorem twins_self (hq : q.OnDevice id) (h : q.residents ⊆ w.held) :
    Twins (.same v w id) q q := ⟨resembles_self id id q, hq, hq, links_self_subset h⟩

theorem given_same (h : ∀ name a, params.lookup name = some a → a.holds ⊆ w.held) :
    Given (.same v w id) params := fun name a ha => Argument.links_self_subset (h name a ha)

/-- Runs of one program on the same arguments end alike where addresses differ only. -/
theorem run_foretells_self (h : Linked (.same v w id) [] v w) (hq : q.OnDevice id)
    (hkeeps : w.Keeps q params) :
    (q.run params v).Foretells False
      (fun a₁ w₁ a₂ w₂ => Linked (.same v w id) (a₁.links a₂) w₁ w₂ ∧ a₁.Alike a₂)
      (Linked (.same v w id) []) (q.run params w) :=
  run_foretells h (twins_self hq hkeeps.residents) (given_same hkeeps.arguments)

theorem run_restored (hw : w.Firm) (hq : q.OnDevice id) (hkeeps : w.Keeps q params)
    (h : q.run params w = .refused e w') : w.Restored w' :=
  World.restored_of_refused (run_foretells_self (hw.linked_self id) hq hkeeps) h

theorem run_asBefore (h : v.Restored w) (hv : v.Firm) (hq : q.OnDevice id)
    (hkeeps : v.Keeps q params) : World.AsBefore Argument.Copies (q.run params) v w := by
  refine h.asBefore hv id fun v₁ v₂ hheld hlinked => ?_
  refine (run_foretells_self hlinked hq (hkeeps.mono hheld)).mono False.elim ?_
    fun _ _ _ => trivial
  rintro a₁ w₁ a₂ w₂ ⟨hlinked, halike⟩
  exact ⟨halike, hlinked.readsAlike_pairs⟩

theorem runToHost_asBefore (h : v.Restored w) (hv : v.Firm) (hq : q.OnDevice id)
    (hkeeps : v.Keeps q params) :
    World.AsBefore (fun a₁ _ a₂ _ => a₁.Alike a₂) (q.run params >>= World.toHost) v w := by
  refine h.asBefore hv id fun v₁ v₂ hheld hlinked => ?_
  refine Action.foretells_bind ((run_foretells_self hlinked hq (hkeeps.mono hheld)).mono
    False.elim (fun _ _ _ _ hr => hr) fun _ _ _ => trivial) ?_
  rintro a₁ w₁ a₂ w₂ ⟨hlinked, halike⟩
  exact (hlinked.toHost halike (List.subset_append_left _ _)).mono False.elim
    (fun _ _ _ _ hr => hr.2.1) fun _ _ _ => trivial

/-- A run that is refused, at whatever instruction, leaves all device memory as it was with no
launch that failed or is going to, and later runs end as if it had not been made.  If it is refused
for a parameter it ends so in any world, one without devices included. -/
theorem run_refused (hq : Reached q) (ht : q.target = some (.device id offload)) (hw : w.Calm)
    (hkeeps : w.Keeps q params) (h : q.run params w = .refused e w') :
    w.Unchanged w' ∧
    (e.kind = .parameter → ∀ u, q.run params u = .refused e u) ∧
    ∀ (p : Program) (id' : DeviceId) (offload' : Bool) (params' : Parameters), Reached p →
      p.target = some (.device id' offload') → w.Keeps p params' →
      World.AsBefore Argument.Copies (p.run params') w w' ∧
      World.AsBefore (fun a₁ _ a₂ _ => a₁.Alike a₂) (p.run params' >>= World.toHost) w w' := by
  have hrestored := run_restored hw.firm (hq.onDevice ht) hkeeps h
  have hspared : w.Spared := by
    intro d hd e he
    rw [(hw.firm.devices d hd).clear.failure] at he
    cases he
  refine ⟨hrestored.unchanged hw.firm, run_refused_parameter hspared (hq.onDevice ht) h, ?_⟩
  intro p id' offload' params' hp ht' hkeeps'
  exact ⟨run_asBefore hrestored hw.firm (hp.onDevice ht') hkeeps',
    runToHost_asBefore hrestored hw.firm (hp.onDevice ht') hkeeps'⟩

/-- Where there is room for a matrix but not for a sum of it besides, the matrix is moved there
twice and given back each time. -/
theorem run_refused_movedAgain :
    ∃ q w₀ e w' d, movedAgain.compile (.device 0 true) { devices := [.ofCapacity 30] } =
        .value q w₀ ∧ q.run [("x", oneToSix)] { devices := [.ofCapacity 30] } = .refused e w' ∧
      World.Unchanged { devices := [.ofCapacity 30] } w' ∧ w'.devices = [d] ∧
      d.stats.allocations = 2 ∧ d.stats.live = 0 := by
  let w : World := { devices := [.ofCapacity 30] }
  obtain ⟨q, w₀, hq, htest⟩ := Turn.exists_of_passes
    (show (movedAgain.compile (.device 0 true) w).passes (fun q _ => decide (q.residents = []) &&
      (q.run [("x", oneToSix)] w).refusedIn fun w' =>
        decide (w'.devices.map (fun d => d.stats.allocations) = [2])) = true by decide +kernel)
  rw [Bool.and_eq_true, decide_eq_true_iff] at htest
  obtain ⟨e, w', h, hallocations⟩ := Turn.exists_of_refusedIn htest.2
  have hreached : Reached q :=
    built_movedAgain.reached.tail (.compile (Or.inr ⟨0, true, rfl⟩) hq)
  have hcalm : w.Calm := World.calm_untouched (some 30) []
  have hkeeps : w.Keeps q [("x", oneToSix)] := by
    refine ⟨by rw [htest.1]; exact List.Subset.refl _, fun name a ha => ?_⟩
    obtain ⟨b, hb, -⟩ := hostParameters_oneToSix name a ha
    rw [Argument.holds, Argument.deviceBuffer?, hb]
    exact List.nil_subset _
  obtain ⟨hunchanged, -⟩ := run_refused hreached (compile_eq_value hq).2.1 hcalm hkeeps h
  obtain ⟨d, hd, hallocations⟩ := List.map_eq_singleton_iff.mp (of_decide_eq_true hallocations)
  refine ⟨q, w₀, e, w', d, hq, h, hunchanged, hd, hallocations, ?_⟩
  have hdevices := hunchanged.devices
  rw [hd] at hdevices
  exact (List.forall₂_cons.mp hdevices).1.live

end Program
end TensorGraph
