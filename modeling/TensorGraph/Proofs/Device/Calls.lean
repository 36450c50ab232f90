/-
What calls do to the tensors on a device.

`Holds` says that a device keeps given tensors: once the queue has run they are in its memory.
Whether the queue runs to its end may depend on sizes, like everything else, so `Holds` has
the condition under which it does.  Each call has one specification, in terms of the tensors
that are kept before and after it.
-/
import TensorGraph.Proofs.Device.Reached

namespace TensorGraph

/-! ## Runs of launches -/

namespace Memory

variable {m : Memory} {launches : List Launch} {launch : Launch} {F : Prop} {P Q : Memory → Prop}

/-- Whether launches end in memory that is right, or halt where sizes do not fit. -/
def Settles (F : Prop) (m : Memory) (launches : List Launch) (post : Memory → Prop) : Prop :=
  match m.runAll launches with
  | some (m', none) => post m'
  | some (_, some _) => False
  | none => ¬F

theorem Settles.mono {F' : Prop} (h : m.Settles F launches P) (hF : F' → F)
    (hpq : ∀ m', m.SameSizes m' → P m' → Q m') : m.Settles F' launches Q := by
  unfold Settles at h ⊢
  rcases hrun : m.runAll launches with _ | ⟨m', _ | stop⟩
  · rw [hrun] at h
    exact fun hf => h (hF hf)
  · rw [hrun] at h
    exact hpq m' (sameSizes_of_runAll hrun) h
  · rw [hrun] at h
    exact h

theorem Settles.concat (h : m.Settles F launches P)
    (hl : ∀ m', m.SameSizes m' → P m' → (m'.execute launch).Ends F Q) :
    m.Settles F (launches ++ [launch]) Q := by
  unfold Settles at h ⊢
  rw [runAll_concat]
  rcases hrun : m.runAll launches with _ | ⟨m', _ | stop⟩
  · rw [hrun] at h
    exact h
  · rw [hrun] at h
    have hends := hl m' (sameSizes_of_runAll hrun) h
    dsimp only
    rw [runAll_cons]
    cases he : m'.execute launch with
    | value next =>
      rw [he] at hends
      exact hends
    | refused e =>
      rw [he] at hends
      exact hends
    | halted =>
      rw [he] at hends
      exact hends
  · rw [hrun] at h
    exact h

theorem Settles.cons {address : Nat} (h : m.Settles F launches P) (b : Bytes)
    (hl : ∀ launch ∈ launches, address ∉ launch.addresses)
    (hpq : ∀ m', P m' → Q ((address, b) :: m')) :
    Settles F ((address, b) :: m) launches Q := by
  unfold Settles at h ⊢
  rw [runAll_cons_of_notMem hl]
  rcases hrun : m.runAll launches with _ | ⟨m', _ | stop⟩
  · rw [hrun] at h
    exact h
  · rw [hrun] at h
    exact hpq m' h
  · rw [hrun] at h
    exact h

end Memory

/-! ## Tensors that a device keeps -/

def Resident.Roomy (r : Resident) : Prop := r.shape.space * r.shape.dtype.size ≤ r.buffer.size

namespace Device

/-- Whether a device is refused no memory that it can address, and has all kernels. -/
def Unlimited (d : Device) : Prop := d.capacity = none ∧ d.unsupported = []

/-- What is known of a device that keeps tensors, and makes new ones under a condition. -/
structure Holds (makes F : Prop) (d : Device) (rs : List Resident) : Prop where
  failure : d.failure = none
  unlimited : makes → d.Unlimited
  ordered : d.Ordered
  roomy : ∀ r ∈ rs, r.Roomy
  sizes : ∀ r ∈ rs, (d.memory.find? r.buffer.address).map Array.size = some r.buffer.size
  settles : d.memory.Settles F d.queue fun m => ∀ r ∈ rs, m.Keeps r

/-- Whether calls have led to a device and no launch has failed there, nor will. -/
structure Healthy (d : Device) : Prop where
  reached : d.Reached
  failure : d.failure = none
  settles : ∃ m, d.memory.runAll d.queue = some (m, none)

variable {makes F fits : Prop} {d d' : Device} {r : Resident} {rs rs' : List Resident}

/-- A healthy device keeps what can be read there once the queue has run. -/
theorem Healthy.holds {m : Memory} (h : d.Healthy) (hrun : d.memory.runAll d.queue = some (m, none))
    (hunlimited : makes → d.Unlimited) (hroomy : ∀ r ∈ rs, r.Roomy)
    (hsizes : ∀ r ∈ rs, (d.memory.find? r.buffer.address).map Array.size = some r.buffer.size)
    (hkeeps : ∀ r ∈ rs, m.Keeps r) : Holds makes F d rs where
  failure := h.failure
  unlimited := hunlimited
  ordered := h.reached.ordered
  roomy := hroomy
  sizes := hsizes
  settles := by
    unfold Memory.Settles
    rw [hrun]
    exact hkeeps

theorem Holds.subset (h : Holds makes F d rs) (hsub : rs' ⊆ rs) : Holds makes F d rs' :=
  { h with
    roomy := fun r hr => h.roomy r (hsub hr)
    sizes := fun r hr => h.sizes r (hsub hr)
    settles := h.settles.mono id fun _ _ hk r hr => hk r (hsub hr) }

theorem Holds.makes_of {makes' : Prop} (h : Holds makes F d rs) (hm : makes' → makes) :
    Holds makes' F d rs :=
  { h with unlimited := fun h' => h.unlimited (hm h') }

/-- Only memory, queue, addresses and the failure count. -/
theorem Holds.collect (h : Holds makes F d rs) : Holds makes F { d with notices := [] } rs :=
  ⟨h.failure, h.unlimited,
    ⟨h.ordered.memory, h.ordered.holdable, h.ordered.queue, h.ordered.liveBytes⟩, h.roomy, h.sizes,
    h.settles⟩

theorem Holds.find? (h : Holds makes F d rs) (hr : r ∈ rs) :
    ∃ bytes, d.memory.find? r.buffer.address = some bytes ∧ bytes.size = r.buffer.size :=
  Option.map_eq_some_iff.mp (h.sizes r hr)

theorem Holds.address_lt (h : Holds makes F d rs) (hr : r ∈ rs) : r.buffer.address < d.next := by
  obtain ⟨bytes, hfind, -⟩ := h.find? hr
  exact h.ordered.memory _ bytes hfind

theorem Holds.holdable (h : Holds makes F d rs) (hr : r ∈ rs) :
    (r.buffer.size + 7) / 8 * 8 ≤ Word.maxSigned := by
  obtain ⟨bytes, hfind, hsize⟩ := h.find? hr
  exact hsize ▸ h.ordered.holdable _ bytes hfind

theorem Holds.cons_of_mem (h : Holds makes F d rs) (hr : r ∈ rs) {r' : Resident}
    (hbuffer : r'.buffer = r.buffer) (hroom : r'.shape.space * r'.shape.dtype.size ≤ r.buffer.size)
    (hreads : ∀ bytes, (View.ofBytes r.shape r.shape.dtype.size bytes).Agrees r.tensor →
      (View.ofBytes r'.shape r'.shape.dtype.size bytes).Agrees r'.tensor) :
    Holds makes F d (r' :: rs) where
  failure := h.failure
  unlimited := h.unlimited
  ordered := h.ordered
  roomy := by
    rw [List.forall_mem_cons, Resident.Roomy, hbuffer]
    exact ⟨hroom, h.roomy⟩
  sizes := by
    rw [List.forall_mem_cons, hbuffer]
    exact ⟨h.sizes r hr, h.sizes⟩
  settles := by
    refine h.settles.mono id fun m _ hk => ?_
    rw [List.forall_mem_cons]
    obtain ⟨bytes, hfind, hsize, hagrees⟩ := hk r hr
    refine ⟨⟨bytes, ?_, ?_, hreads bytes hagrees⟩, hk⟩
    · rw [hbuffer]
      exact hfind
    · rw [hbuffer]
      exact hsize

/-! ## Running the queue -/

/-- Whether a device is the same but for its queue, which has run. -/
structure Drained (makes F : Prop) (d : Device) (rs : List Resident) (d' : Device) : Prop where
  holds : Holds makes F d' rs
  queue : d'.queue = []
  next : d'.next = d.next

theorem Drained.keeps (h : Drained makes F d rs d') : ∀ r ∈ rs, d'.memory.Keeps r := by
  have hsettles := h.holds.settles
  unfold Memory.Settles at hsettles
  rw [h.queue, Memory.runAll_nil] at hsettles
  exact hsettles

theorem flush_ends (h : Holds makes F d rs) (hF : fits → F) :
    (flush d).Ends fits fun _ d' => Drained makes F d rs d' := by
  have hsettles := h.settles
  unfold Memory.Settles at hsettles
  unfold flush
  rcases hrun : d.memory.runAll d.queue with _ | ⟨m, _ | stop⟩
  · rw [hrun] at hsettles
    exact fun hf => hsettles (hF hf)
  · rw [hrun] at hsettles
    have hsizes := Memory.sameSizes_of_runAll hrun
    exact ⟨⟨h.failure, h.unlimited,
      h.ordered.rewritten hsizes rfl (List.nil_subset _) rfl rfl, h.roomy,
      fun r hr => (hsizes r.buffer.address).trans (h.sizes r hr), hsettles⟩, rfl, rfl⟩
  · rw [hrun] at hsettles
    exact hsettles.elim

theorem settle_ends (h : Holds makes F d rs) (hF : fits → F) :
    (settle d).Ends fits fun _ d' => Drained makes F d rs d' := by
  refine Action.ends_bind (flush_ends h hF) fun _ d₁ h₁ => ?_
  rw [Action.bind_of_value Action.get_apply, h₁.holds.failure]
  exact h₁

/-! ## The calls -/

theorem synchronize_ends (h : Holds makes F d rs) (hF : fits → F) :
    (synchronize d).Ends fits fun _ d' => Holds makes F d' rs ∧ d'.next = d.next := by
  have h₁ : Holds makes F { d with stats := { d.stats with syncs := d.stats.syncs + 1 } } rs :=
    ⟨h.failure, h.unlimited,
      ⟨h.ordered.memory, h.ordered.holdable, h.ordered.queue, h.ordered.liveBytes⟩, h.roomy,
      h.sizes, h.settles⟩
  exact (settle_ends h₁ hF).mono fun _ d' h' => ⟨h'.holds, h'.next⟩

/-- A new allocation holds zeros, and lies apart from those that are there. -/
theorem alloc_ends (h : Holds makes F d rs) (hmakes : makes) {bytes : Nat}
    (hroom : fits → d.next + footprint bytes ≤ Word.maxUnsigned ∧
      (bytes + 7) / 8 * 8 ≤ Word.maxSigned) :
    (alloc bytes d).Ends fits fun address d' => address = d.next ∧
      d'.next = d.next + footprint bytes ∧
      ∀ (id : DeviceId) (t : Shape), t.space * t.dtype.size ≤ bytes →
        Holds makes F d' (⟨⟨id, address, bytes⟩, t,
          View.ofBytes t t.dtype.size (Bytes.zeros bytes)⟩ :: rs) := by
  rcases alloc_cases d bytes with ⟨hvalue, hroomy, -⟩ | ⟨_, hlimited, -⟩ | ⟨hhalt, hnot, -⟩
  · rw [hvalue]
    refine ⟨rfl, rfl, fun id t hsize => ⟨h.failure, h.unlimited,
      h.ordered.granted hroomy, ?_, ?_, ?_⟩⟩
    · rw [List.forall_mem_cons]
      exact ⟨hsize, h.roomy⟩
    · rw [List.forall_mem_cons]
      constructor
      · show (Memory.find? ((d.next, Bytes.zeros bytes) :: d.memory) d.next).map Array.size = _
        rw [Memory.find?_cons, if_pos rfl]
        exact congrArg some (Bytes.size_zeros bytes)
      · intro r hr
        show (Memory.find? ((d.next, Bytes.zeros bytes) :: d.memory) _).map Array.size = _
        rw [Memory.find?_cons, if_neg (Nat.ne_of_lt (h.address_lt hr))]
        exact h.sizes r hr
    · refine h.settles.cons (Bytes.zeros bytes) (fun launch hl hmem =>
        Nat.lt_irrefl _ (h.ordered.queue launch hl _ hmem)) fun m' hk => ?_
      rw [List.forall_mem_cons]
      constructor
      · refine ⟨Bytes.zeros bytes, ?_, Bytes.size_zeros bytes, .refl _⟩
        rw [Memory.find?_cons, if_pos rfl]
      · intro r hr
        obtain ⟨b, hfind, hrest⟩ := hk r hr
        refine ⟨b, ?_, hrest⟩
        rw [Memory.find?_cons, if_neg (Nat.ne_of_lt (h.address_lt hr))]
        exact hfind
  · rw [(h.unlimited hmakes).1] at hlimited
    cases hlimited
  · rw [hhalt]
    intro hf
    obtain ⟨hnext, hsize⟩ := hroom hf
    have hlive := h.ordered.liveBytes
    have hle := le_footprint bytes
    exact hnot ⟨hnext, hsize, by omega⟩

theorem free_ends (h : Holds makes F d rs) (hF : fits → F) {address : Nat}
    (hother : ∀ r ∈ rs, r.buffer.address ≠ address) :
    (Action.attempt (free address) d).Ends fits fun _ d' => Holds makes F d' rs ∧ d'.next = d.next := by
  have hflush := flush_ends h hF
  unfold Action.attempt free
  rw [Action.bind_apply]
  cases hrun : flush d with
  | halted =>
    rw [hrun] at hflush
    exact hflush
  | refused e d₁ =>
    rw [hrun] at hflush
    exact hflush.elim
  | value _ d₁ =>
    rw [hrun] at hflush
    have h₁ : Drained makes F d rs d₁ := hflush
    dsimp only
    rw [Action.bind_of_value Action.get_apply]
    cases hfind : d₁.memory.find? address with
    | none =>
      exact ⟨⟨h₁.holds.failure, h₁.holds.unlimited,
        ⟨h₁.holds.ordered.memory, h₁.holds.ordered.holdable, h₁.holds.ordered.queue,
          h₁.holds.ordered.liveBytes⟩, h.roomy,
        h₁.holds.sizes, h₁.holds.settles⟩, h₁.next⟩
    | some bytes =>
      have hfound : ∀ r ∈ rs, (d₁.memory.remove address).find? r.buffer.address =
          d₁.memory.find? r.buffer.address := fun r hr => by
        rw [Memory.find?_remove, if_neg (hother r hr)]
      refine ⟨⟨h₁.holds.failure, h₁.holds.unlimited,
        h₁.holds.ordered.remove rfl rfl rfl (Nat.sub_le _ _), h.roomy, fun r hr => ?_, ?_⟩, h₁.next⟩
      · exact (congrArg (Option.map Array.size) (hfound r hr)).trans (h₁.holds.sizes r hr)
      · show Memory.Settles F _ d₁.queue _
        rw [h₁.queue]
        intro r hr
        obtain ⟨b, hb, hrest⟩ := h₁.keeps r hr
        exact ⟨b, (hfound r hr).trans hb, hrest⟩

theorem copyin_ends (h : Holds makes F d (r :: rs)) (hF : fits → F)
    (hother : ∀ r' ∈ rs, r'.buffer.address ≠ r.buffer.address) {bytes : Bytes}
    (hsize : bytes.size = r.buffer.size) :
    (copyin bytes r.buffer.address d).Ends fits fun _ d' => d'.next = d.next ∧
      Holds makes F d' (⟨r.buffer, r.shape, View.ofBytes r.shape r.shape.dtype.size bytes⟩ :: rs) := by
  unfold copyin
  refine Action.ends_bind (settle_ends h hF) fun _ d₁ h₁ => ?_
  obtain ⟨old, hold, holdSize⟩ := h₁.holds.find? List.mem_cons_self
  have hsame : bytes.size = old.size := hsize.trans holdSize.symm
  rw [Action.bind_of_value (allocation_of_some hold _), if_neg (by omega),
    Bytes.overwrite_of_size_eq hsame]
  have hself : (d₁.memory.replace r.buffer.address bytes).find? r.buffer.address = some bytes := by
    rw [Memory.find?_replace, if_pos rfl, hold]
    rfl
  have hsizes := Memory.sameSizes_replace hold hsame
  refine ⟨h₁.next, h₁.holds.failure, h₁.holds.unlimited,
    h₁.holds.ordered.rewritten hsizes rfl (List.Subset.refl _) rfl rfl, ?_, ?_, ?_⟩
  · rw [List.forall_mem_cons]
    exact ⟨h.roomy r List.mem_cons_self, fun r' hr' => h.roomy r' (List.mem_cons_of_mem _ hr')⟩
  · rw [List.forall_mem_cons]
    exact ⟨(hsizes _).trans (h₁.holds.sizes r List.mem_cons_self),
      fun r' hr' => (hsizes _).trans (h₁.holds.sizes r' (List.mem_cons_of_mem _ hr'))⟩
  · show Memory.Settles F _ d₁.queue _
    rw [h₁.queue]
    show ∀ r' ∈ _, Memory.Keeps _ r'
    rw [List.forall_mem_cons]
    refine ⟨⟨bytes, hself, hsize, .refl _⟩, fun r' hr' => ?_⟩
    obtain ⟨b, hb, hrest⟩ := h₁.keeps r' (List.mem_cons_of_mem _ hr')
    refine ⟨b, ?_, hrest⟩
    rw [Memory.find?_replace, if_neg (hother r' hr')]
    exact hb

/-- The whole of a buffer reads as the tensor that is kept there. -/
theorem copyout_ends (h : Holds makes F d rs) (hF : fits → F) (hr : r ∈ rs) :
    (copyout r.buffer.address r.buffer.size d).Ends fits fun bytes d' =>
      Holds makes F d' rs ∧ d'.next = d.next ∧ bytes.size = r.buffer.size ∧
        (View.ofBytes r.shape r.shape.dtype.size bytes).Agrees r.tensor := by
  unfold copyout
  refine Action.ends_bind (settle_ends h hF) fun _ d₁ h₁ => ?_
  obtain ⟨bytes, hfind, hsize, hagrees⟩ := h₁.keeps r hr
  have hwhole : bytes.extract 0 r.buffer.size = bytes := by
    rw [← hsize]
    exact Array.extract_size
  rw [Action.bind_of_value (allocation_of_some hfind _), if_neg (by omega), hwhole]
  exact ⟨h₁.holds, h₁.next, hsize, hagrees⟩

/-! ## Launches -/

open Operator (Infers)

variable {op : Operator} {t : Shape} {v v' : View} {b : DeviceBuffer} {args : List Resident}

theorem supports_of_infers {shapes : List Shape} (h : Infers op shapes t)
    (hc : op.isCompute = true) (hd : d.unsupported = []) : d.supports op t.dtype = true := by
  unfold supports
  rw [hd, if_neg List.not_mem_nil]
  by_cases hn : op = .contiguous
  · rw [hn]
  · have hboth : (op.isCompute && t.dtype.isFloat) = true := by
      rw [hc, (h.isFloat hc hn).1]
      rfl
    cases op with
    | contiguous => exact absurd rfl hn
    | _ => exact hboth

theorem requireFits_ends {operand : Operand} {bytes : Bytes}
    (hfind : d.memory.find? operand.address = some bytes) (hp : operand.shape.Populated)
    (hsize : operand.shape.space * operand.shape.dtype.size ≤ bytes.size)
    (hfit : fits → operand.shape.Addressable) :
    (requireFits operand d).Ends fits fun _ d' => d' = d := by
  unfold requireFits
  rw [Action.bind_of_value (allocation_of_some hfind _)]
  refine Action.ends_bind (P := fun n d' => n = operand.shape.space * operand.shape.dtype.size ∧
    d' = d) (Action.ends_ofOutcome (Outcome.ends_ofOption (fun hf => ?_) fun n hn => ?_)) ?_
  · rw [(hfit hf).storageBytes hp]
    rfl
  · exact ⟨((Shape.storageBytes_eq_some hp).mp hn).1, rfl⟩
  · rintro _ _ ⟨rfl, rfl⟩
    rw [if_neg (Nat.not_lt.mpr hsize)]
    exact rfl

/-- A launch is queued, and when it has run its output is what the operator denotes. -/
theorem launch_ends (h : Holds makes F d (⟨b, t, v'⟩ :: rs)) (hmakes : makes) (hF : fits → F)
    (hother : ∀ r ∈ rs, r.buffer.address ≠ b.address) (hargs : args ⊆ rs)
    (hinfers : Infers op (args.map Resident.shape) t) (hc : op.isCompute = true)
    (hp : ∀ s ∈ args.map Resident.shape, s.Populated) (hpt : t.Populated)
    (hfit : F → t.Addressable ∧ op.Roomy (args.map Resident.shape)) (hlist : F → t.Listable)
    (hfits : F → ∀ s ∈ args.map Resident.shape, s.Addressable)
    (hd : op.denote t (args.map Resident.tensor) = some v) :
    (launch op ⟨b.address, t⟩ (args.map Resident.operand) d).Ends fits fun _ d' =>
      Holds makes F d' (⟨b, t, v⟩ :: rs) ∧ d'.next = d.next := by
  have hapart : ∀ i ∈ args.map Resident.operand, i.address ≠ b.address := by
    rw [List.forall_mem_map]
    exact fun r hr => hother r (hargs hr)
  have houtput := h.roomy _ List.mem_cons_self
  rw [launch_of_supports (supports_of_infers hinfers hc (h.unlimited hmakes).2) hapart]
  refine Action.ends_bind (Action.ends_forEach fun operand hmem => ?_) ?_
  · rcases List.mem_append.mp hmem with hmem | hmem
    · obtain ⟨r, hr, rfl⟩ := List.mem_map.mp hmem
      have hr' : r ∈ ⟨b, t, v'⟩ :: rs := List.mem_cons_of_mem _ (hargs hr)
      obtain ⟨bytes, hfind, hsize⟩ := h.find? hr'
      have hshape := List.mem_map_of_mem (f := Resident.shape) hr
      exact requireFits_ends hfind (hp _ hshape) (hsize ▸ h.roomy r hr')
        fun hf => hfits (hF hf) _ hshape
    · rw [List.mem_singleton.mp hmem]
      obtain ⟨bytes, hfind, hsize⟩ := h.find? List.mem_cons_self
      exact requireFits_ends hfind hpt (hsize ▸ houtput) fun hf => (hfit (hF hf)).1
  rintro _ _ rfl
  refine ⟨⟨h.failure, h.unlimited, ?_, ?_, ?_, ?_⟩, rfl⟩
  · refine h.ordered.queued fun operand hmem => ?_
    rcases List.mem_append.mp hmem with hmem | hmem
    · obtain ⟨r, hr, rfl⟩ := List.mem_map.mp hmem
      obtain ⟨bytes, hfind, -⟩ := h.find? (List.mem_cons_of_mem _ (hargs hr))
      exact ⟨bytes, hfind⟩
    · rw [List.mem_singleton.mp hmem]
      obtain ⟨bytes, hfind, -⟩ := h.find? List.mem_cons_self
      exact ⟨bytes, hfind⟩
  · rw [List.forall_mem_cons]
    exact ⟨houtput, fun r hr => h.roomy r (List.mem_cons_of_mem _ hr)⟩
  · rw [List.forall_mem_cons]
    exact ⟨h.sizes ⟨b, t, v'⟩ List.mem_cons_self,
      fun r hr => h.sizes r (List.mem_cons_of_mem _ hr)⟩
  · refine h.settles.concat fun m hsizes hk => ?_
    obtain ⟨old, hold, holdSize, -⟩ := hk _ List.mem_cons_self
    refine (Memory.execute_ends hinfers hc (fun r hr => hk r (List.mem_cons_of_mem _ (hargs hr))) hp
      hold (holdSize ▸ houtput) hfit hlist hfits hd).mono ?_
    rintro m' ⟨bytes, rfl, hsize, hagrees⟩
    rw [List.forall_mem_cons]
    refine ⟨⟨bytes, ?_, hsize.trans holdSize, hagrees⟩, fun r hr => ?_⟩
    · rw [Memory.find?_replace, if_pos rfl, hold]
      rfl
    · obtain ⟨bytes', hfind, hrest⟩ := hk r (List.mem_cons_of_mem _ hr)
      refine ⟨bytes', ?_, hrest⟩
      rw [Memory.find?_replace, if_neg (hother r hr)]
      exact hfind

end Device
end TensorGraph
