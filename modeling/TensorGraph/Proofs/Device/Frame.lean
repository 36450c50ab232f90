/-
What a launch leaves as it was.

A launch writes the words of its output's elements and nothing besides.  `execute_frame` says
so of one launch and `runAll_frame` of launches in a row, each byte at a time: a byte that
differs afterwards lies under an element of the output of a launch that ran.
`frame_of_queued` is the statement for devices: the check that was made when a launch was
accepted puts all those bytes inside the output's allocation, whatever the strides, and a launch
that fails leaves the memory that it found.
-/
import TensorGraph.Proofs.Device.Discipline
import TensorGraph.Proofs.Storage.Backed

namespace TensorGraph

/-- Whether a place among the bytes of an allocation belongs to an element of a shape. -/
def Shape.Covers (s : Shape) (place : Nat) : Prop :=
  ∃ idx ∈ Index.indices s.lens, Index.offset idx s.axes * s.dtype.size ≤ place ∧
    place < Index.offset idx s.axes * s.dtype.size + s.dtype.size

instance (s : Shape) (place : Nat) : Decidable (s.Covers place) :=
  inferInstanceAs (Decidable (∃ idx ∈ Index.indices s.lens, _ ∧ _))

/-- Whether a byte of a device belongs to an element of an operand. -/
def Operand.Covers (o : Operand) (address place : Nat) : Prop :=
  address = o.address ∧ o.shape.Covers place

/-- The elements of a shape lie inside every allocation that is large enough for it. -/
theorem Shape.lt_of_covers {s : Shape} {n place : Nat} (hn : s.storageBytes = some n)
    (h : s.Covers place) : place < n := by
  obtain ⟨idx, hidx, -, hlt⟩ := h
  have hi := Index.mem_indices.mp hidx
  have hend := offset_add_size_le hi
  rw [((storageBytes_eq_some (populated_of_within hi)).mp hn).1]
  omega

theorem Bytes.getElem?_setWord_of_disjoint {b : Bytes} {offset value n k : Nat}
    (h : k < offset ∨ offset + n ≤ k) : (setWord b offset value n)[k]? = b[k]? := by
  induction n generalizing b offset value with
  | zero => rfl
  | succ n ih =>
    rw [setWord, ih (by omega)]
    exact Array.getElem?_setIfInBounds_ne (by omega)

namespace Memory

variable {m m' next : Memory} {l : Launch} {launches : List Launch} {operand : Operand}
  {d : Dtype} {t : Tensor} {bytes new : Bytes} {axes : List Axis} {size address place : Nat}

def byte? (m : Memory) (address place : Nat) : Option UInt8 := do (← m.find? address)[place]?

theorem byte?_of_find? (h : m.find? address = some bytes) (place : Nat) :
    m.byte? address place = bytes[place]? := by
  rw [byte?, h]
  rfl

theorem byte?_replace_of_ne {other : Nat} (h : other ≠ address) (place : Nat) :
    (m.replace address new).byte? other place = m.byte? other place := by
  rw [byte?, find?_replace, if_neg h, byte?]

theorem byte?_replace_self (h : m.find? address = some bytes) (place : Nat) :
    (m.replace address new).byte? address place = new[place]? := by
  apply byte?_of_find?
  rw [find?_replace, if_pos rfl, h]
  rfl

/-! ## One launch -/

/-- Elements that are scattered change the bytes of their own words only. -/
theorem getElem?_scatter {indices : List (List Nat)} {values : List Nat}
    (h : ∀ idx ∈ indices, place < Index.offset idx axes * size ∨
      Index.offset idx axes * size + size ≤ place) :
    (scatter bytes axes size indices values)[place]? = bytes[place]? := by
  induction indices generalizing bytes values with
  | nil => rfl
  | cons idx indices ih =>
    cases values with
    | nil => rfl
    | cons v values =>
      rw [List.forall_mem_cons] at h
      rw [scatter, ih h.2]
      exact Bytes.getElem?_setWord_of_disjoint h.1

/-- What is written to an operand lies under its elements. -/
theorem inscribe_frame (hold : m.find? operand.address = some bytes)
    (h : m.inscribe operand operand.shape.dtype t = .value new)
    (hcovers : ¬operand.shape.Covers place) : new[place]? = bytes[place]? := by
  unfold inscribe at h
  obtain ⟨_, hlens, h⟩ := Outcome.bind_eq_value.mp h
  have hlens := Outcome.require_eq_value.mp hlens
  rw [hold] at h
  dsimp only at h
  split at h
  · cases h
    apply getElem?_scatter
    intro idx hidx
    rw [hlens] at hidx
    have hout : ¬(_ ≤ place ∧ place < _) := fun hin => hcovers ⟨idx, hidx, hin⟩
    omega
  · cases h

/-- A launch changes bytes of its output's elements only. -/
theorem execute_frame (h : m.execute l = .value m') (hcovers : ¬l.output.Covers address place) :
    m'.byte? address place = m.byte? address place := by
  rw [execute_eq] at h
  obtain ⟨new, hresult, h⟩ := Outcome.bind_eq_value.mp h
  cases h
  by_cases ha : address = l.output.address
  · subst ha
    obtain ⟨t, -, hinscribe⟩ := Outcome.bind_eq_value.mp hresult
    cases hfind : m.find? l.output.address with
    | none => rw [byte?, byte?, find?_replace, if_pos rfl, hfind]; rfl
    | some bytes =>
      rw [byte?_replace_self hfind, byte?_of_find? hfind]
      apply inscribe_frame hfind hinscribe
      intro hin
      exact hcovers ⟨rfl, hin⟩
  · exact byte?_replace_of_ne ha place

/-! ## Launches in a row -/

/-- A byte that launches in a row change lies under an element of the output of one that ran. -/
theorem runAll_frame {stop : Option Stop} (h : m.runAll launches = some (m', stop))
    (hcovers : ∀ l ∈ launches, ¬l.output.Covers address place) :
    m'.byte? address place = m.byte? address place := by
  induction launches generalizing m with
  | nil =>
    cases h
    rfl
  | cons l launches ih =>
    rw [List.forall_mem_cons] at hcovers
    rw [runAll_cons] at h
    cases he : m.execute l with
    | value next =>
      rw [he] at h
      rw [ih h hcovers.2]
      exact execute_frame he hcovers.1
    | refused e =>
      rw [he] at h
      cases h
      rfl
    | halted =>
      rw [he] at h
      cases h

/-- What launches come to once those in front are done. -/
theorem runAll_append_of_done {before behind : List Launch}
    (h : m.runAll before = some (m', none)) :
    m.runAll (before ++ behind) = m'.runAll behind := by
  induction before generalizing m with
  | nil =>
    cases h
    rfl
  | cons l before ih =>
    rw [List.cons_append]
    rw [runAll_cons] at h ⊢
    cases he : m.execute l with
    | value next =>
      rw [he] at h
      exact ih h
    | refused e =>
      rw [he] at h
      cases h
    | halted =>
      rw [he] at h
      cases h

/-- The elements of a launch's output are where its output is allocated. -/
theorem exists_of_backed (hnd : (m.map Prod.fst).Nodup)
    (h : l.Backed m.layout) : ∃ old, m.find? l.output.address = some old ∧
      ∀ place, l.output.shape.Covers place → place < old.size := by
  have hlast : l.output ∈ l.inputs ++ [l.output] := by simp
  obtain ⟨size, n, hlive, hn, hle⟩ := h.fits l.output hlast
  obtain ⟨old, hold, hsize⟩ := (mem_layout_iff hnd).mp hlive
  refine ⟨old, hold, fun place hplace => ?_⟩
  have hlt := Shape.lt_of_covers hn hplace
  omega

end Memory

namespace Device

variable {d : Device}

/-! ## A device's queue -/

/-- What a launch that was accepted does to memory, at its turn in the queue.  The bytes under
the elements of its output are inside the output's allocation.  If it runs, no other byte of the
device changes, and nothing is moved or resized; if it fails, the queue leaves the memory that the
launch found. -/
theorem frame_of_queued (capacity : Option Nat) (unsupported : List Dtype) (calls : List Call)
    {before behind : List Launch} {l : Launch} {m : Memory}
    (hafter : after launch calls { capacity := capacity, unsupported := unsupported } = some d)
    (hqueue : d.queue = before ++ l :: behind) (hturn : d.memory.runAll before = some (m, none)) :
    (∃ old, m.find? l.output.address = some old ∧
      ∀ place, l.output.shape.Covers place → place < old.size) ∧
    match m.execute l with
    | .value m' => d.memory.runAll d.queue = m'.runAll behind ∧ m'.layout = m.layout ∧
        ∀ address place, ¬l.output.Covers address place →
          m'.byte? address place = m.byte? address place
    | .refused e => d.memory.runAll d.queue = some (m, some ⟨l, e, behind.length⟩) ∧
        ∃ d', flush d = .value () d' ∧ d'.memory = m
    | .halted => flush d = .halted := by
  have hrecorded := (recorded_new capacity unsupported).run
    (Reached.ordered ⟨capacity, unsupported, .refl⟩) hafter
  have hlayout := Memory.layout_of_runAll hrecorded.nodup hturn
  have hnd : (m.map Prod.fst).Nodup := by
    rw [← Memory.map_fst_layout, hlayout, Memory.map_fst_layout]
    exact hrecorded.nodup
  have hbacked : l.Backed m.layout := by
    rw [hlayout]
    apply hrecorded.queue
    simp [hqueue]
  have hrest : d.memory.runAll d.queue = m.runAll (l :: behind) := by
    rw [hqueue]
    exact Memory.runAll_append_of_done hturn
  rw [Memory.runAll_cons] at hrest
  refine ⟨Memory.exists_of_backed hnd hbacked, ?_⟩
  cases he : m.execute l with
  | value m' =>
    rw [he] at hrest
    exact ⟨hrest, Memory.layout_of_execute hnd he, fun _ _ => Memory.execute_frame he⟩
  | refused e =>
    rw [he] at hrest
    refine ⟨hrest, ?_⟩
    rw [flush, hrest]
    exact ⟨_, rfl, rfl⟩
  | halted =>
    rw [he] at hrest
    show flush d = .halted
    rw [flush, hrest]

def spread : Launch := ⟨.contiguous, ⟨4352, ⟨.uint8, [⟨2, 3⟩]⟩⟩, [⟨4096, pair⟩]⟩

def overlong : Launch := ⟨.contiguous, ⟨4352, ⟨.uint8, [⟨3, 1⟩]⟩⟩, [⟨4096, pair⟩]⟩

def spreading : List Call :=
  [.alloc 2, .alloc 6, .copyin #[7, 8] 4096, .launch spread.op spread.output spread.inputs,
    .launch overlong.op overlong.output overlong.inputs]

theorem frame_of_queued_spread : ∃ d m', after launch spreading {} = some d ∧
    d.queue = [] ++ spread :: [overlong] ∧ d.memory.execute spread = .value m' ∧
    m'.find? 4352 = some #[7, 0, 0, 8, 0, 0] ∧
    ∀ address place, ¬spread.output.Covers address place →
      m'.byte? address place = d.memory.byte? address place := by
  have hafter : ∃ d, after launch spreading {} = some d := ⟨_, rfl⟩
  obtain ⟨d, hd⟩ := hafter
  have hqueue : d.queue = [] ++ spread :: [overlong] := by
    cases hd
    rfl
  have hrun : ∃ m', d.memory.execute spread = .value m' ∧
      m'.find? 4352 = some #[7, 0, 0, 8, 0, 0] := by
    cases hd
    exact ⟨_, rfl, rfl⟩
  obtain ⟨m', hm', hfind⟩ := hrun
  have hframe := (frame_of_queued none [] spreading hd hqueue rfl).2
  rw [hm'] at hframe
  exact ⟨d, m', hd, hqueue, hm', hfind, hframe.2.2⟩

/-- A byte that a flush changes lies under an element of the output of a queued launch. -/
theorem flush_frame {d' : Device} {address place : Nat} (h : flush d = .value () d')
    (hcovers : ∀ l ∈ d.queue, ¬l.output.Covers address place) :
    d'.memory.byte? address place = d.memory.byte? address place := by
  rw [flush] at h
  cases hrun : d.memory.runAll d.queue with
  | none =>
    rw [hrun] at h
    cases h
  | some ran =>
    rw [hrun] at h
    have hframe := Memory.runAll_frame hrun hcovers
    obtain ⟨m, _ | stop⟩ := ran <;>
      · cases h
        exact hframe

end Device
end TensorGraph
