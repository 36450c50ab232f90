/-
Programs and arguments that share devices.

A `Usage` is what is in use at one time: programs that were compiled for devices, with what they
were compiled from, and arguments.  Programs are compiled, evaluated and dropped, and arguments
are moved, shared and dropped, in any order.  Each call leads to a world that follows
(`World.Follows`), so what a program or an argument holds stays as it is, and an evaluation ends
as it would on a device that nobody else has used (`Usage.evaluations_isolated`).
-/
import TensorGraph.Proofs.Isolation.Fresh
import TensorGraph.Proofs.Isolation.Refused

namespace TensorGraph

/-- Whether a call for an argument ends as another one does, unless it halts or, where it may,
runs short of memory. -/
def Turn.EndsAs (short : Prop) (x y : Turn World Argument) : Prop :=
  x.Foretells short (fun a _ b _ => a.Alike b) (fun _ _ => True) y

/-! ## What calls add -/

theorem Argument.Alike.map_fst_links {a₁ a₂ : Argument} (h : a₁.Alike a₂) :
    (a₁.links a₂).map Prod.fst = a₁.holds := by cases h <;> rfl

namespace World

variable {w w' : World} {id : DeviceId} {a : Argument} {α β : Type}

/-- Whether a call adds buffers to what is held if it gives a value, and nothing if it is
refused. -/
def Adds (w : World) (gives : α → List DeviceBuffer) (x : Turn World α) : Prop :=
  x.Meets (fun a w' => w.Grown (gives a) w') fun w' => w.Grown [] w'

theorem adds_of_foretells {R : α → World → β → World → Prop} {gives : α → List DeviceBuffer}
    {x : Turn World α} {y : Turn World β}
    (h : x.Foretells False R (Linked (.same w w id) []) y)
    (hR : ∀ a w₁ b w₂, R a w₁ b w₂ → w.Grown (gives a) w₁) : Adds w gives x := by
  cases x with
  | value a w₁ =>
    obtain ⟨b, w₂, -, hr⟩ := h
    exact hR a w₁ b w₂ hr
  | refused e w₁ =>
    rcases h with ⟨w₂, -, hlinked⟩ | ⟨hfalse, -⟩
    · exact hlinked.left
    · exact hfalse.elim
  | halted => exact trivial

theorem Firm.adds_toHost (h : w.Firm) (ha : a.holds ⊆ w.held) :
    Adds w Argument.holds (toHost a w) := by
  refine adds_of_foretells ((h.linked_self 0).toHost a.alike_self
    (Argument.links_self_subset ha)) ?_
  rintro b w₁ _ _ ⟨hlinked, -, -, hhost⟩
  have hnil : b.holds = [] := by
    obtain ⟨s, _ | _ | _⟩ := b
    · rfl
    · rfl
    · cases hhost
  rw [hnil]
  exact hlinked.left

theorem Firm.adds_toDevice (h : w.Firm) (id : DeviceId) (ha : a.holds ⊆ w.held) :
    Adds w Argument.holds (toDevice id a w) := by
  refine adds_of_foretells ((h.linked_self id).toDevice a.alike_self
    (Argument.links_self_subset ha)) ?_
  rintro _ w₁ _ _ ⟨p, rfl, -, -, -, hlinked⟩
  exact hlinked.left

theorem Firm.adds_share (h : w.Firm) (ha : a.holds ⊆ w.held) :
    Adds w Argument.holds ((do retain a; return a : Action World Argument) w) := by
  have hretain : (retain a w).Foretells False
      (fun _ w₁ _ w₂ => Linked (.same w w 0) (a.links a ++ []) w₁ w₂)
      (Linked (.same w w 0) []) (retain a w) :=
    ((h.linked_self 0).retain a.alike_self (Argument.links_self_subset ha)).of_never
  refine adds_of_foretells (Action.foretells_bind (S := fun b w₁ _ w₂ => b = a ∧
    Linked (.same w w 0) (a.links a ++ []) w₁ w₂) hretain
    fun _ _ _ _ hlinked => ⟨a, _, rfl, rfl, hlinked⟩) ?_
  rintro b w₁ _ w₂ ⟨hb, hlinked⟩
  rw [List.append_nil] at hlinked
  rw [hb, ← a.alike_self.map_fst_links]
  exact hlinked.left

end World

namespace Program

variable {p q : Program} {w : World} {id : DeviceId} {params : Parameters}

theorem adds_compile (hp : Sound p) (h : w.Firm) (id : DeviceId) (offload : Bool) :
    World.Adds w Program.residents (p.compile (.device id offload) w) := by
  refine World.adds_of_foretells (compile_foretells (Target.alike_device id id offload)
    (h.linked_self id) fun ht => residents_eq_nil (hp.unbound ht)) ?_
  rintro q w₁ _ _ ⟨hq, hlinked⟩
  rw [← hq.residents.1]
  exact hlinked.left

theorem adds_run (hq : q.OnDevice id) (h : w.Firm) (hkeeps : w.Keeps q params) :
    World.Adds w Argument.holds (q.run params w) := by
  refine World.adds_of_foretells (run_foretells (h.linked_self id)
    (twins_self hq hkeeps.residents) (given_same hkeeps.arguments)) ?_
  rintro a w₁ _ _ ⟨hlinked, halike⟩
  rw [← halike.map_fst_links]
  exact hlinked.left

end Program

/-! ## What is in use -/

/-- A program that was compiled for a device, with what it was compiled from. -/
structure Deployment where
  source : Program
  device : DeviceId
  offload : Bool
  program : Program

namespace Deployment

variable {c : Deployment} {w w' : World}

def Compiled (c : Deployment) (w : World) : Prop :=
  ∃ v v', Program.Sound c.source ∧ v.Tidy ∧
    c.source.compile (.device c.device c.offload) v = .value c.program v' ∧ v'.Follows w

theorem Compiled.follows (h : c.Compiled w) (hfollows : w.Follows w') : c.Compiled w' := by
  obtain ⟨v, v', hsound, htidy, hcompile, h⟩ := h
  exact ⟨v, v', hsound, htidy, hcompile, h.trans hfollows⟩

theorem Compiled.onDevice (h : c.Compiled w) : c.program.OnDevice c.device := by
  obtain ⟨v, v', hsound, -, hcompile, -⟩ := h
  exact Program.onDevice_of_compile hsound hcompile

end Deployment

/-- The compiled programs and the arguments that are in use, and the world that they are in. -/
structure Usage where
  world : World
  programs : List Deployment := []
  arguments : List Argument := []

namespace Usage

variable {u u' : Usage} {w : World} {a : Argument} {c : Deployment} {x : Action World Argument}
variable {cs : List Deployment} {as : List Argument} {bs : List DeviceBuffer}

def holdings (u : Usage) : List DeviceBuffer :=
  u.arguments.flatMap Argument.holds ++ u.programs.flatMap fun c => c.program.residents

inductive Makes (u : Usage) : Action World Argument → Prop
  | eval {c : Deployment} {params : Parameters} : c ∈ u.programs →
      (∀ name a, params.lookup name = some a → a ∈ u.arguments) → Makes u (c.program.run params)
  | toHost {a : Argument} : a ∈ u.arguments → Makes u (World.toHost a)
  | toDevice {id : DeviceId} {a : Argument} : a ∈ u.arguments → Makes u (World.toDevice id a)
  | share {a : Argument} : a ∈ u.arguments → Makes u (do World.retain a; return a)

inductive Step : Usage → Usage → Prop
  | compile {u : Usage} {p q : Program} {id : DeviceId} {offload : Bool} {w : World} :
      Program.Reached p → p.compile (.device id offload) u.world = .value q w →
      Step u { u with world := w, programs := ⟨p, id, offload, q⟩ :: u.programs }
  | compileRefused {u : Usage} {p : Program} {id : DeviceId} {offload : Bool} {e : Error}
      {w : World} : Program.Reached p → p.compile (.device id offload) u.world = .refused e w →
      Step u { u with world := w }
  | host {u : Usage} {a : Argument} :
      a.holds = [] → Step u { u with arguments := a :: u.arguments }
  | make {u : Usage} {x : Action World Argument} {a : Argument} {w : World} :
      u.Makes x → x u.world = .value a w →
      Step u { u with world := w, arguments := a :: u.arguments }
  | makeRefused {u : Usage} {x : Action World Argument} {e : Error} {w : World} :
      u.Makes x → x u.world = .refused e w → Step u { u with world := w }
  | drop {u : Usage} {a : Argument} {as : List Argument} {w : World} :
      u.arguments.Perm (a :: as) → World.release a u.world = .value () w →
      Step u { u with world := w, arguments := as }
  | dropProgram {u : Usage} {c : Deployment} {cs : List Deployment} {w : World} :
      u.programs.Perm (c :: cs) → World.releaseProgram c.program u.world = .value () w →
      Step u { u with world := w, programs := cs }

/-- A world of new devices in which nothing is held. -/
structure New (w : World) : Prop where
  devices : ∀ d ∈ w.devices, ∃ capacity unsupported,
    d = { capacity := capacity, unsupported := unsupported }
  held : w.held = []

/-- What comes to be in use by calls, from nothing. -/
def Reached (u : Usage) : Prop := ∃ w, New w ∧ Relation.ReflTransGen Step { world := w } u

/-! ## One call -/

/-- What holds at every point: all that is held is held by what is in use, and every program was
compiled in an earlier world. -/
structure Steady (u : Usage) : Prop where
  tidy : u.world.Tidy
  held : u.world.held.Perm u.holdings
  compiled : ∀ c ∈ u.programs, c.Compiled u.world

theorem holds_subset (ha : a ∈ u.arguments) : a.holds ⊆ u.holdings := fun _ hb =>
  List.mem_append_left _ (List.mem_flatMap.mpr ⟨a, ha, hb⟩)

theorem residents_subset (hc : c ∈ u.programs) : c.program.residents ⊆ u.holdings := fun _ hb =>
  List.mem_append_right _ (List.mem_flatMap.mpr ⟨c, hc, hb⟩)

theorem Steady.subset_held (h : u.Steady) (hbs : bs ⊆ u.holdings) : bs ⊆ u.world.held :=
  List.Subset.trans hbs h.held.symm.subset

theorem New.steady (h : New w) : Steady { world := w } where
  tidy := by
    refine ⟨⟨fun d hd => ?_, fun b hb => ?_⟩, fun d hd => ?_⟩
    · obtain ⟨capacity, unsupported, rfl⟩ := h.devices d hd
      exact Device.firm_of_reached ⟨capacity, unsupported, .refl⟩
        (Device.clear_of_queue_nil rfl rfl)
    · rw [h.held] at hb
      cases hb
    · obtain ⟨capacity, unsupported, rfl⟩ := h.devices d hd
      exact le_rfl
  held := by
    rw [h.held]
    exact .refl _
  compiled _ hc := nomatch hc

/-- What is kept of the programs, and what is new, in a world that follows. -/
theorem Steady.next (h : u.Steady) (htidy : u'.world.Tidy) (hfollows : u.world.Follows u'.world)
    (hheld : u'.world.held.Perm u'.holdings)
    (hprograms : ∀ c ∈ u'.programs, c ∈ u.programs ∨ c.Compiled u'.world) : u'.Steady where
  tidy := htidy
  held := hheld
  compiled c hc := (hprograms c hc).elim (fun hc => (h.compiled c hc).follows hfollows) id

theorem Makes.adds (hx : u.Makes x) (h : u.Steady) :
    World.Adds u.world Argument.holds (x u.world) := by
  have hfirm := h.tidy.firm
  cases hx with
  | eval hc hparams =>
    refine Program.adds_run (h.compiled _ hc).onDevice hfirm ⟨h.subset_held (residents_subset hc),
      fun name a ha => h.subset_held (holds_subset (hparams name a ha))⟩
  | toHost ha => exact hfirm.adds_toHost (h.subset_held (holds_subset ha))
  | toDevice ha => exact hfirm.adds_toDevice _ (h.subset_held (holds_subset ha))
  | share ha => exact hfirm.adds_share (h.subset_held (holds_subset ha))

/-- A call that is refused changes nothing of what is in use. -/
theorem Steady.refused (h : u.Steady) (hgrown : u.world.Grown [] w) :
    Steady { u with world := w } ∧ u.world.Follows w :=
  ⟨h.next (hgrown.tidy h.tidy) hgrown.follows (hgrown.held.trans h.held) fun _ => Or.inl,
    hgrown.follows⟩

/-- Every call leaves the holders that can be named, in a world that follows. -/
theorem Step.steady (hstep : Step u u') (h : u.Steady) :
    u'.Steady ∧ u.world.Follows u'.world := by
  cases hstep with
  | @compile p q id offload w hp hcompile =>
    have hadds := Program.adds_compile hp.sound h.tidy.firm id offload
    rw [hcompile] at hadds
    have hgrown : u.world.Grown q.residents w := hadds
    refine ⟨h.next (hgrown.tidy h.tidy) hgrown.follows ?_ fun c hc => ?_, hgrown.follows⟩
    · refine hgrown.held.trans ((h.held.append_left _).trans ?_)
      exact List.perm_append_comm_assoc _ _ _
    · rcases List.mem_cons.mp hc with rfl | hc
      · exact Or.inr ⟨u.world, w, hp.sound, h.tidy, hcompile, World.follows_refl w⟩
      · exact Or.inl hc
  | @compileRefused p id offload e w hp hcompile =>
    have hadds := Program.adds_compile hp.sound h.tidy.firm id offload
    rw [hcompile] at hadds
    exact h.refused hadds
  | host ha =>
    refine ⟨h.next h.tidy (World.follows_refl _) ?_ fun _ => Or.inl, World.follows_refl _⟩
    show u.world.held.Perm (_ ++ _)
    rw [List.flatMap_cons, ha]
    exact h.held
  | @make x a w hx hvalue =>
    have hadds := hx.adds h
    rw [hvalue] at hadds
    have hgrown : u.world.Grown a.holds w := hadds
    refine ⟨h.next (hgrown.tidy h.tidy) hgrown.follows ?_ fun _ => Or.inl, hgrown.follows⟩
    show w.held.Perm (_ ++ _)
    rw [List.flatMap_cons, List.append_assoc]
    exact hgrown.held.trans (h.held.append_left _)
  | @makeRefused x e w hx hrefused =>
    have hadds := hx.adds h
    rw [hrefused] at hadds
    exact h.refused hadds
  | @drop a as w hperm hrelease =>
    have hheld : u.world.held.Perm (a.holds ++ holdings { u with arguments := as }) := by
      refine h.held.trans ?_
      rw [holdings, holdings, ← List.append_assoc]
      exact (hperm.flatMap_right Argument.holds).append_right _
    have hmeets := h.tidy.forEach_releaseBuffer hheld
    rw [← World.release_eq_forEach, hrelease] at hmeets
    obtain ⟨htidy, hfollows, hkept⟩ := hmeets
    exact ⟨h.next htidy hfollows hkept fun _ => Or.inl, hfollows⟩
  | @dropProgram c cs w hperm hrelease =>
    have hheld : u.world.held.Perm
        (c.program.residents ++ holdings { u with programs := cs }) := by
      refine h.held.trans (((hperm.flatMap_right _).append_left _).trans ?_)
      exact List.perm_append_comm_assoc _ _ _
    have hmeets := h.tidy.forEach_releaseBuffer hheld
    rw [show Action.forEach _ _ u.world = _ from hrelease] at hmeets
    obtain ⟨htidy, hfollows, hkept⟩ := hmeets
    refine ⟨h.next htidy hfollows hkept fun c' hc' => Or.inl ?_, hfollows⟩
    exact hperm.symm.subset (List.mem_cons_of_mem _ hc')

/-! ## All calls -/

theorem steady_of_steps (hsteps : Relation.ReflTransGen Step u u') (h : u.Steady) :
    u'.Steady ∧ u.world.Follows u'.world := by
  induction hsteps with
  | refl => exact ⟨h, World.follows_refl _⟩
  | tail _ hstep ih =>
    obtain ⟨hsteady, hfollows⟩ := ih
    obtain ⟨hsteady', hfollows'⟩ := hstep.steady hsteady
    exact ⟨hsteady', hfollows.trans hfollows'⟩

theorem Reached.steady (h : u.Reached) : u.Steady := by
  obtain ⟨w, hw, hsteps⟩ := h
  exact (steady_of_steps hsteps hw.steady).1

def kept (u u' : Usage) (bs : List DeviceBuffer) : Comparison :=
  ⟨u'.world, u.world, u'.world.devices.length, u'.world.devices.length, bs.map fun b => (b, b),
    False⟩

theorem linked_kept (h : u.Steady) (h' : u'.Steady) (hfollows : u.world.Follows u'.world)
    (hbs : bs ⊆ u.holdings) (hbs' : bs ⊆ u'.holdings) :
    Linked (kept u u' bs) [] u'.world u.world where
  fair := by
    refine ⟨hfollows.settings.symm, fun p hp => ?_, fun p hp => ?_, fun p hp hdevice => ?_⟩
    · obtain ⟨b, hb, rfl⟩ := List.mem_map.mp hp
      exact ⟨h'.subset_held hbs' hb, h.subset_held hbs hb⟩
    · obtain ⟨b, -, rfl⟩ := List.mem_map.mp hp
      rfl
    · obtain ⟨b, -, rfl⟩ := List.mem_map.mp hp
      exact hdevice
  left := World.grown_refl h'.tidy.firm
  right := World.grown_refl h.tidy.firm
  pairs _ hp := nomatch hp
  one _ hp := nomatch hp
  reads p hp bytes hread := by
    obtain ⟨b, hb, rfl⟩ := List.mem_map.mp hp
    exact hfollows.read? h.tidy.firm (h.subset_held hbs hb) (h'.subset_held hbs' hb) hread
  devices d hd := by
    -- the comparison is on a device that does not exist, for nothing new is allocated
    have hnone : u'.world.devices[u'.world.devices.length]? = none :=
      List.getElem?_eq_none_iff.mpr le_rfl
    rw [show (kept u u' bs).here = u'.world.devices.length from rfl, hnone] at hd
    cases hd

/-- An evaluation ends as on a fresh device, whatever else is in use and was used before, and what
is kept is downloaded as before, however many calls follow. -/
theorem evaluations_isolated (h : u.Reached) :
    (∀ c ∈ u.programs, ∀ d : Device, u.world.devices[c.device]? = some d →
      ∃ q w, c.source.compile (.device u.world.devices.length c.offload)
          (u.world.withDevice (.fresh d.unsupported)) = .value q w ∧
        ∀ params : Parameters,
          (∀ name a, params.lookup name = some a → a.holds ⊆ u.holdings) →
          ((c.program.run params >>= World.toHost) u.world).EndsAs True
            ((q.run params >>= World.toHost) w)) ∧
    ∀ u', Relation.ReflTransGen Step u u' → ∀ a : Argument, a.holds ⊆ u.holdings →
      a.holds ⊆ u'.holdings →
      (World.toHost a u'.world).EndsAs False (World.toHost a u.world) := by
  have hsteady := h.steady
  refine ⟨fun c hc d hd => ?_, fun u' hsteps a ha ha' => ?_⟩
  · obtain ⟨v, v', hsound, hv, hcompile, hfollows⟩ := hsteady.compiled c hc
    obtain ⟨q, w, hfresh, hruns⟩ := Program.run_beside_fresh hsound hv hcompile hfollows
      hsteady.tidy hd (hsteady.subset_held (residents_subset hc))
    exact ⟨q, w, hfresh, fun params hparams =>
      hruns params fun name a ha => hsteady.subset_held (hparams name a ha)⟩
  · obtain ⟨hsteady', hfollows⟩ := steady_of_steps hsteps hsteady
    have hlinked := linked_kept hsteady hsteady' hfollows ha ha'
    exact (hlinked.toHost a.alike_self (Argument.links_self_subset (List.Subset.refl _))).mono id
      (fun _ _ _ _ hr => hr.2.1) fun _ _ _ => trivial

def byte : Shape := ⟨.uint8, [⟨1, 1⟩]⟩

def five : Argument := ⟨byte, some (.host (.ofBytes 0 #[5]))⟩

def copied : Program where
  instructions :=
    [{ op := .parameter "x" byte, inputs := [], shape := byte },
     { op := .contiguous, inputs := [0], shape := byte }]
  parameters := [("x", byte)]

theorem reached_copied : Program.Reached copied := by
  have hx : Program.addParameter "x" byte {} = .value 0
      { instructions := copied.instructions.take 1, parameters := [("x", byte)] } := rfl
  have hcopy : Program.addInstruction .contiguous [0]
      { instructions := copied.instructions.take 1, parameters := [("x", byte)] } =
        .value 1 copied := rfl
  exact (Relation.ReflTransGen.single (.addParameter (Or.inl ⟨_, hx⟩))).tail
    (.addInstruction (Or.inl ⟨_, hcopy⟩))

theorem new_default : New { devices := [{}] } where
  devices _ hd := ⟨none, [], List.mem_singleton.mp hd⟩
  held := rfl

theorem lookup_five {name : String} (h : List.lookup name [("x", five)] = some a) : a = five := by
  rw [List.lookup_cons] at h
  split at h
  · cases h
    rfl
  · cases h

/-- A copy that is kept on the device beside a second one. -/
theorem evaluations_isolated_copied :
    ∃ u u' c q w a b w₁ b' w₂ e w₃ e' w₄, Reached u ∧ Relation.ReflTransGen Step u u' ∧
      c ∈ u.programs ∧ a ∈ u.arguments ∧ a.location = some .device ∧
      c.source.compile (.device 1 c.offload) (u.world.withDevice (.fresh [])) = .value q w ∧
      (c.program.run [("x", five)] >>= World.toHost) u.world = .value b w₁ ∧
      (q.run [("x", five)] >>= World.toHost) w = .value b' w₂ ∧ b.Alike b' ∧
      World.toHost a u'.world = .value e w₃ ∧ World.toHost a u.world = .value e' w₄ ∧
      e.Alike e' := by
  let params : Parameters := [("x", five)]
  obtain ⟨q, w₁, hq, htest⟩ := Turn.exists_of_passes
    (show (copied.compile (.device 0 false) { devices := [{}] }).passes (fun q w₁ =>
      (q.run params w₁).passes fun a w₂ => decide (a.location = some .device) &&
        decide (w₂.devices.map Device.unsupported = [[]]) &&
        (((q.run params >>= World.toHost) w₂).passes fun _ _ => true) &&
        (q.run params w₂).passes fun _ w₃ => (World.toHost a w₃).passes fun _ _ => true) = true by
      decide +kernel)
  obtain ⟨a, w₂, ha, htest⟩ := Turn.exists_of_passes htest
  simp only [Bool.and_eq_true, decide_eq_true_iff] at htest
  obtain ⟨⟨⟨hlocation, hunsupported⟩, htwice⟩, hagain⟩ := htest
  obtain ⟨b, w₄, hb, -⟩ := Turn.exists_of_passes htwice
  obtain ⟨a', w₃, ha', hagain⟩ := Turn.exists_of_passes hagain
  obtain ⟨e, w₅, he, -⟩ := Turn.exists_of_passes hagain
  let c : Deployment := ⟨copied, 0, false, q⟩
  let u : Usage := ⟨w₂, [c], [a, five]⟩
  have hc : c ∈ [c] := List.mem_cons_self
  have hfirst : Reached u := by
    refine ⟨{ devices := [{}] }, new_default, ?_⟩
    exact ((Relation.ReflTransGen.single (.compile reached_copied hq)).tail
      (@Step.host _ five rfl)).tail (.make (.eval hc fun name a ha =>
        List.mem_singleton.mpr (lookup_five ha)) ha)
  have hsecond : Relation.ReflTransGen Step u ⟨w₃, [c], [a', a, five]⟩ :=
    .single (.make (.eval hc fun name a ha => lookup_five ha ▸ List.mem_cons_of_mem _
      List.mem_cons_self) ha')
  obtain ⟨d, hdevices, hd⟩ := List.map_eq_singleton_iff.mp hunsupported
  obtain ⟨heval, hkept⟩ := evaluations_isolated hfirst
  obtain ⟨q', w, hq', hruns⟩ := heval c hc d (by rw [hdevices]; rfl)
  have hends := hruns params fun name a ha => by
    rw [lookup_five ha]
    exact List.nil_subset _
  rw [hb] at hends
  obtain ⟨b', w₆, hb', halike⟩ := hends
  have hsame := hkept _ hsecond a (holds_subset List.mem_cons_self)
    (holds_subset (List.mem_cons_of_mem _ List.mem_cons_self))
  rw [he] at hsame
  obtain ⟨e', w₇, he', halike'⟩ := hsame
  refine ⟨u, _, c, q', w, a, b, w₄, b', w₆, e, w₅, e', w₇, hfirst, hsecond, hc,
    List.mem_cons_self, hlocation, ?_, hb, hb', halike, he, he', halike'⟩
  rw [hdevices, hd] at hq'
  exact hq'

/-- A constant at a stride out of all reach, and a copy of it. -/
def outOfReach : Program where
  instructions :=
    [{ op := .literal ⟨⟨.uint8, [⟨1, 2 ^ 63⟩]⟩, .ofBytes 0 #[7]⟩, inputs := [],
       shape := ⟨.uint8, [⟨1, 2 ^ 63⟩]⟩ },
     { op := .contiguous, inputs := [0], shape := byte }]

theorem reached_outOfReach : Program.Reached outOfReach := by
  have hliteral : Program.addLiteral {} ⟨⟨.uint8, [⟨1, 2 ^ 63⟩]⟩, .ofBytes 0 #[7]⟩ {} =
      .value ({ instructions := outOfReach.instructions.take 1 }, 0) {} := rfl
  have hcopy : Program.addInstruction .contiguous [0]
      { instructions := outOfReach.instructions.take 1 } = .value 1 outOfReach := rfl
  exact (Relation.ReflTransGen.single (.addLiteral hliteral)).tail
    (.addInstruction (Or.inl ⟨_, hcopy⟩))

/-- A copy that is queued and cannot be made stops the evaluation of another program, which gives
a value on a fresh device. -/
theorem evaluation_stopped_outOfReach :
    ∃ u c d q w b w', Reached u ∧ c ∈ u.programs ∧ five ∈ u.arguments ∧
      u.world.devices = [d] ∧ d.capacity = none ∧
      Program.checkParameters [("x", five)] c.program.parameters = .value () ∧
      c.source.compile (.device 1 c.offload) (u.world.withDevice (.fresh d.unsupported)) =
        .value q w ∧
      (c.program.run [("x", five)] >>= World.toHost) u.world = .halted ∧
      (q.run [("x", five)] >>= World.toHost) w = .value b w' := by
  let params : Parameters := [("x", five)]
  obtain ⟨stopped, w₁, hstopped, htest⟩ := Turn.exists_of_passes
    (show (outOfReach.compile (.device 0 false) { devices := [{}] }).passes (fun stopped w₁ =>
      (copied.compile (.device 0 true) w₁).passes fun p w₂ =>
      (stopped.run [] w₂).passes fun _ w₃ =>
        decide (p.parameters = [("x", byte)]) &&
        decide (w₃.devices.map (fun d => (d.capacity, d.unsupported)) = [(none, [])]) &&
        ((p.run params >>= World.toHost) w₃).halts &&
        (copied.compile (.device 1 true) (w₃.withDevice (.fresh []))).passes fun q w =>
          ((q.run params >>= World.toHost) w).passes fun _ _ => true) = true by decide +kernel)
  obtain ⟨p, w₂, hp, htest⟩ := Turn.exists_of_passes htest
  obtain ⟨a, w₃, ha, htest⟩ := Turn.exists_of_passes htest
  simp only [Bool.and_eq_true, decide_eq_true_iff] at htest
  obtain ⟨⟨⟨hparameters, hdevices⟩, hhalted⟩, hfresh⟩ := htest
  obtain ⟨q, w, hq, hvalue⟩ := Turn.exists_of_passes hfresh
  obtain ⟨b, w', hb, -⟩ := Turn.exists_of_passes hvalue
  obtain ⟨d, hdevices, hd⟩ := List.map_eq_singleton_iff.mp hdevices
  rw [Prod.mk.injEq] at hd
  let c : Deployment := ⟨copied, 0, true, p⟩
  let other : Deployment := ⟨outOfReach, 0, false, stopped⟩
  have hreached : Reached ⟨w₃, [c, other], [five, a]⟩ := by
    refine ⟨{ devices := [{}] }, new_default, ?_⟩
    exact (((Relation.ReflTransGen.single (.compile reached_outOfReach hstopped)).tail
      (.compile reached_copied hp)).tail (.make (.eval (List.mem_cons_of_mem c
        (List.mem_cons_self : other ∈ [other])) fun _ _ h => by cases h) ha)).tail
      (@Step.host _ five rfl)
  refine ⟨_, c, d, q, w, b, w', hreached, List.mem_cons_self, List.mem_cons_self, hdevices, hd.1,
    ?_, ?_, ?_, hb⟩
  · show Program.checkParameters _ p.parameters = _
    rw [hparameters]
    rfl
  · rw [hd.2]
    exact hq
  · exact Turn.eq_halted_of_halts hhalted

end Usage
end TensorGraph
