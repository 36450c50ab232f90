/-
What an exported description describes.

An array library that is handed a description knows nothing of element types.  It starts at an
address, goes along the axes in steps of bytes, and reads at every index as many bytes as the
element code says.  `BufferInfo.consume` is such a reader, over memory that holds nothing besides
one buffer, so that it has an answer only if it never leaves the buffer.

The result is `export_exact`: which arguments have a description, and that its reader finds the
elements that the argument itself is read as.
-/
import TensorGraph.Export
import TensorGraph.Proofs.Ownership.Backed
import TensorGraph.Proofs.Storage.RoundTrip
import Mathlib.Data.Nat.Digits.Defs

namespace TensorGraph

/-! ## Encodings -/

/-- A number as it is read from storage: the pattern of a floating-point number of so many bytes,
or an integer. -/
inductive Scalar where
  | pattern (size word : Nat)
  | integer (value : Int)
  deriving DecidableEq, Repr

inductive Encoding where
  | floating (size : Nat)
  | signed (size : Nat)
  | unsigned (size : Nat)
  deriving DecidableEq, Repr

namespace Encoding

def size : Encoding → Nat
  | floating size | signed size | unsigned size => size

def scalar : Encoding → Nat → Scalar
  | floating size, word => .pattern size word
  | signed size, word => .integer (BitVec.ofNat (8 * size) word).toInt
  | unsigned _, word => .integer word

/-- The encoding that array libraries know under a letter. -/
def ofCode : String → Option Encoding
  | "f" => some (floating 4)
  | "d" => some (floating 8)
  | "b" => some (signed 1)
  | "h" => some (signed 2)
  | "i" => some (signed 4)
  | "q" => some (signed 8)
  | "B" => some (unsigned 1)
  | "H" => some (unsigned 2)
  | "I" => some (unsigned 4)
  | "Q" => some (unsigned 8)
  | _ => none

/-- The number in a list of bytes, the least significant first, if there are as many as it
takes. -/
def decode (e : Encoding) (bytes : List UInt8) : Option Scalar :=
  if bytes.length = e.size then some (e.scalar (Nat.ofDigits 256 (bytes.map UInt8.toNat)))
  else none

end Encoding

def Dtype.encoding (d : Dtype) : Encoding :=
  if d.isFloat then .floating d.size else if d.isSigned then .signed d.size else .unsigned d.size

theorem Dtype.size_encoding (d : Dtype) : d.encoding.size = d.size := by
  cases d <;> rfl

theorem Dtype.exists_exportCode {d : Dtype} (h : d ≠ .half) : ∃ code, d.exportCode = some code :=
  Option.ne_none_iff_exists'.mp fun hnone => h (exportCode_eq_none.mp hnone)

/-- Every exported letter stands for the encoding of its element type. -/
theorem Dtype.ofCode_exportCode {d : Dtype} {code : String} (h : d.exportCode = some code) :
    Encoding.ofCode code = some d.encoding := by
  cases d <;> cases h <;> rfl

/-! ## Memory -/

/-- The bytes from an address on, if memory holds all of them. -/
def BufferInfo.cells (memory : Nat → Option UInt8) (address : Nat) : Nat → Option (List UInt8)
  | 0 => some []
  | n + 1 => do
    let byte ← memory address
    some (byte :: (← BufferInfo.cells memory (address + 1) n))

def HostBuffer.memory (b : HostBuffer) (address : Nat) : Option UInt8 :=
  if b.address ≤ address then b.bytes[address - b.address]? else none

theorem HostBuffer.memory_add {b : HostBuffer} {offset : Nat} (h : offset < b.size) :
    b.memory (b.address + offset) = some (b.bytes.getD offset 0) := by
  have hlt : offset < b.bytes.size := h
  rw [memory, if_pos (Nat.le_add_right _ _), Nat.add_sub_cancel_left, Array.getD_eq_getD_getElem?,
    Array.getElem?_eq_getElem hlt, Option.getD_some]

/-- The bytes of a word inside a buffer, and the word they make. -/
theorem HostBuffer.exists_cells {b : HostBuffer} {offset n : Nat} (h : offset + n ≤ b.size) :
    ∃ bytes, BufferInfo.cells b.memory (b.address + offset) n = some bytes ∧ bytes.length = n ∧
      Nat.ofDigits 256 (bytes.map UInt8.toNat) = b.bytes.wordAt offset n := by
  induction n generalizing offset with
  | zero => exact ⟨[], rfl, rfl, rfl⟩
  | succ n ih =>
    obtain ⟨bytes, hbytes, hlength, hword⟩ := ih (show offset + 1 + n ≤ b.size by omega)
    refine ⟨b.bytes.getD offset 0 :: bytes, ?_, congrArg (· + 1) hlength, ?_⟩
    · rw [BufferInfo.cells, memory_add (by omega), Nat.add_assoc, hbytes]
      rfl
    · rw [List.map_cons, Nat.ofDigits_cons, hword, Bytes.wordAt_succ]

/-! ## Readers of descriptions -/

namespace BufferInfo

def place (info : BufferInfo) (idx : List Nat) : Nat :=
  info.address + (List.zipWith (· * ·) idx info.strides).sum

/-- The elements of a description in row-major order, read from memory. -/
def consume (info : BufferInfo) (memory : Nat → Option UInt8) : Option (List Scalar) := do
  let encoding ← Encoding.ofCode info.code
  (Index.indices info.lens).mapM fun idx => do
    encoding.decode (← cells memory (info.place idx) info.itemSize)

end BufferInfo

/-- Strides in bytes lead as far as the strides in elements. -/
theorem Index.sum_zipWith_mul (size : Nat) (idx : List Nat) (axes : List Axis) :
    (List.zipWith (· * ·) idx (axes.map fun a => a.stride * size)).sum =
      offset idx axes * size := by
  induction axes generalizing idx with
  | nil => cases idx <;> simp [offset]
  | cons a as ih =>
    cases idx with
    | nil => simp [offset]
    | cons i is =>
      rw [List.map_cons, List.zipWith_cons_cons, List.sum_cons, ih, offset_cons, Nat.add_mul,
        Nat.mul_assoc]

theorem Shape.bytes_eq_fit {s : Shape} (hp : s.Populated) :
    s.bytes = Word.fit (s.lens.prod * s.dtype.size) := by
  rw [bytes, elements_eq_fit hp]
  by_cases hle : s.lens.prod ≤ Word.maxUnsigned
  · rw [Word.fit_of_le hle]
    rfl
  · have hmul : s.lens.prod ≤ s.lens.prod * s.dtype.size :=
      Nat.le_mul_of_pos_right _ s.dtype.size_pos
    rw [Word.fit_of_gt (by omega), Word.fit_of_gt (by omega)]
    rfl

/-- Whether the strides and all elements have sizes in bytes that are words. -/
structure Shape.ByteSized (s : Shape) : Prop where
  strides : ∀ n ∈ s.strides, n * s.dtype.size ≤ Word.maxUnsigned
  bytes : s.lens.prod * s.dtype.size ≤ Word.maxUnsigned

/-! ## Descriptions of arguments -/

namespace Argument

variable {s : Shape} {b : HostBuffer} {code : String}

def described (s : Shape) (b : HostBuffer) (code : String) : BufferInfo where
  address := b.address
  itemSize := s.dtype.size
  code := code
  rank := s.rank
  lens := s.lens
  strides := s.strides.map (· * s.dtype.size)
  elements := s.lens.prod
  bytes := s.lens.prod * s.dtype.size

theorem mapM_mul (size : Nat) (ns : List Nat) :
    (ns.mapM fun n => (liftM (Word.mul n size) : Outcome Nat)) =
      if ∀ n ∈ ns, n * size ≤ Word.maxUnsigned then .value (ns.map (· * size)) else .halted := by
  induction ns with
  | nil => rfl
  | cons n ns ih =>
    rw [List.mapM_cons, ih, Outcome.lift_eq, Word.mul]
    simp only [List.forall_mem_cons]
    by_cases hn : n * size ≤ Word.maxUnsigned
    · rw [Word.fit_of_le hn, Outcome.ofOption_some, Outcome.value_bind]
      by_cases hns : ∀ m ∈ ns, m * size ≤ Word.maxUnsigned
      · rw [if_pos hns, if_pos ⟨hn, hns⟩]
        rfl
      · rw [if_neg hns, if_neg fun h => hns h.2]
        rfl
    · have hall : ¬(n * size ≤ Word.maxUnsigned ∧ ∀ m ∈ ns, m * size ≤ Word.maxUnsigned) :=
        fun h => hn h.1
      rw [Word.fit_of_gt (Nat.lt_of_not_le hn), if_neg hall]
      rfl

theorem bufferInfo_of_half {a : Argument} (h : a.shape.dtype = .half) :
    a.bufferInfo = .refused (.type .noExportCode) := by
  unfold bufferInfo Dtype.requireExportCode
  rw [h]
  rfl

theorem bufferInfo_of_location_ne {a : Argument} (hcode : a.shape.dtype.exportCode = some code)
    (h : a.location ≠ some .host) :
    a.bufferInfo = .refused (.storage (.notExportable a.text)) := by
  unfold bufferInfo Dtype.requireExportCode
  rw [hcode, Outcome.require_neg h]
  rfl

/-- The sizes of a host argument are all that its description can fail for. -/
theorem bufferInfo_onHost (hcode : s.dtype.exportCode = some code) :
    bufferInfo ⟨s, some (.host b)⟩ = (do
      let strides ← s.strides.mapM fun n => (liftM (Word.mul n s.dtype.size) : Outcome Nat)
      let elements ← (liftM s.elements : Outcome Nat)
      let bytes ← (liftM s.bytes : Outcome Nat)
      return { described s b code with strides, elements, bytes }) := by
  unfold bufferInfo Dtype.requireExportCode
  dsimp only
  rw [hcode]
  rfl

theorem bufferInfo_of_byteSized (hcode : s.dtype.exportCode = some code) (hp : s.Populated)
    (h : s.ByteSized) : bufferInfo ⟨s, some (.host b)⟩ = .value (described s b code) := by
  have hle : s.lens.prod ≤ Word.maxUnsigned :=
    (Nat.le_mul_of_pos_right _ s.dtype.size_pos).trans h.bytes
  rw [bufferInfo_onHost hcode, mapM_mul, if_pos h.strides, Shape.elements_eq_fit hp,
    Word.fit_of_le hle, Shape.bytes_eq_fit hp, Word.fit_of_le h.bytes]
  rfl

theorem bufferInfo_of_not_byteSized (hcode : s.dtype.exportCode = some code) (hp : s.Populated)
    (h : ¬s.ByteSized) : bufferInfo ⟨s, some (.host b)⟩ = .halted := by
  rw [bufferInfo_onHost hcode, mapM_mul]
  by_cases hstrides : ∀ n ∈ s.strides, n * s.dtype.size ≤ Word.maxUnsigned
  · have hbytes := Nat.lt_of_not_le fun hbytes => h ⟨hstrides, hbytes⟩
    rw [if_pos hstrides, Shape.bytes_eq_fit hp, Word.fit_of_gt hbytes]
    cases s.elements <;> rfl
  · rw [if_neg hstrides]
    rfl

/-! ## The reader of a description -/

theorem place_described (s : Shape) (b : HostBuffer) (code : String) (idx : List Nat) :
    (described s b code).place idx = b.address + Index.offset idx s.axes * s.dtype.size := by
  rw [← Index.sum_zipWith_mul]
  simp only [BufferInfo.place, described, Shape.strides, List.map_map]
  rfl

/-- Where a buffer backs a tensor, the reader finds the tensor's words and stays inside. -/
theorem consume_described (hcode : s.dtype.exportCode = some code) (hbacked : s.BackedBy b.size) :
    (described s b code).consume b.memory =
      some ((View.ofBytes s s.dtype.size b.bytes).elements.map s.dtype.encoding.scalar) := by
  unfold BufferInfo.consume
  rw [show (described s b code).code = code from rfl, Dtype.ofCode_exportCode hcode,
    Option.bind_eq_bind, Option.bind_some, mapM_eq_some, View.elements, List.map_map]
  refine List.forall₂_map_right_iff.mpr (List.forall₂_same.mpr fun idx hidx => ?_)
  obtain ⟨bytes, hbytes, hlength, hword⟩ :=
    HostBuffer.exists_cells (hbacked.within idx (Index.mem_indices.mp hidx))
  rw [place_described]
  show (BufferInfo.cells b.memory _ s.dtype.size).bind _ = _
  rw [hbytes, Option.bind_some, Encoding.decode, if_pos (hlength.trans s.dtype.size_encoding.symm),
    hword]
  rfl

end Argument

/-- What an exported description describes.  There is none of a tensor of half numbers, and
otherwise none of one that is not on the host.  A client that holds a host tensor with positive
extents has a description of it exactly if its strides and its elements can be counted in bytes.
Every element is then inside the buffer of the tensor, and a reader of the description obtains the
elements of the tensor in row-major order, which are also what the tensor is read as unless its
shape cannot be addressed or memory does not hold the list. -/
theorem export_exact (a : Argument) :
    (a.shape.dtype = .half → a.bufferInfo = .refused (.type .noExportCode)) ∧
    (a.shape.dtype ≠ .half → a.location ≠ some .host →
      a.bufferInfo = .refused (.storage (.notExportable a.text))) ∧
    ∀ (c : Client) (slot : String) (b : HostBuffer), Client.Used c →
      c.session.arguments.lookup slot = some a → a.storage = some (.host b) →
      a.shape.dtype ≠ .half → a.shape.Populated →
      (¬a.shape.ByteSized → a.bufferInfo = .halted) ∧
      (a.shape.ByteSized → ∃ info words, a.bufferInfo = .value info ∧
        info.lens = a.shape.lens ∧ info.elements = words.length ∧
        info.bytes = words.length * info.itemSize ∧
        (∀ idx, Index.Within idx info.lens →
          b.address ≤ info.place idx ∧ info.place idx + info.itemSize ≤ b.address + b.size) ∧
        info.consume b.memory = some (words.map a.shape.dtype.encoding.scalar) ∧
        (a.shape.Addressable → a.shape.Listable → a.elementsAs a.shape.dtype = .value words) ∧
        (¬(a.shape.Addressable ∧ a.shape.Listable) → a.elementsAs a.shape.dtype = .halted)) := by
  refine ⟨Argument.bufferInfo_of_half, fun hd hlocation => ?_, ?_⟩
  · obtain ⟨code, hcode⟩ := Dtype.exists_exportCode hd
    exact Argument.bufferInfo_of_location_ne hcode hlocation
  · intro c slot b hused hheld hstorage hd hp
    obtain ⟨code, hcode⟩ := Dtype.exists_exportCode hd
    have hbacked : a.shape.BackedBy b.size := hused.backed.lookup hheld _ hstorage
    obtain ⟨s, storage⟩ := a
    subst hstorage
    refine ⟨Argument.bufferInfo_of_not_byteSized hcode hp, fun hsized => ?_⟩
    have hlength := View.length_elements (View.ofBytes s s.dtype.size b.bytes)
    refine ⟨_, _, Argument.bufferInfo_of_byteSized hcode hp hsized, rfl, hlength.symm,
      congrArg (· * s.dtype.size) hlength.symm, fun idx hidx => ?_,
      Argument.consume_described hcode hbacked, Argument.elementsAs_onHost,
      fun hnot => ?_⟩
    · have hwithin := hbacked.within idx hidx
      rw [Argument.place_described, Nat.add_assoc]
      exact ⟨Nat.le_add_right _ _, Nat.add_le_add_left hwithin _⟩
    · rcases not_and_or.mp hnot with haddressable | hlistable
      · exact Argument.elementsAs_of_not_addressable haddressable b
      · exact Argument.elementsAs_of_not_listable hlistable b

/-- Two rows of two signed words, stored column by column with a word between the columns. -/
def BufferInfo.columns : Shape := ⟨.int16, [⟨2, 1⟩, ⟨2, 3⟩]⟩

def BufferInfo.columnsBuffer : HostBuffer := .ofBytes 0 #[1, 0, 2, 0, 9, 9, 255, 255, 4, 1]

def BufferInfo.columnsTensor : Argument := ⟨columns, some (.host columnsBuffer)⟩

/-- The word between the columns is read by no one, and the second column starts with a negative
number. -/
theorem export_exact_columns :
    ∃ c info, Client.Used c ∧
      c.session.arguments.lookup "x" = some BufferInfo.columnsTensor ∧
      BufferInfo.columnsTensor.bufferInfo = .value info ∧ info.strides = [2, 6] ∧
      info.consume BufferInfo.columnsBuffer.memory =
        some [.integer 1, .integer (-1), .integer 2, .integer 260] ∧
      BufferInfo.columnsTensor.elementsAs .int16 = .value [1, 65535, 2, 260] := by
  have hmake : Argument.make BufferInfo.columns (.host BufferInfo.columnsBuffer) =
    .value BufferInfo.columnsTensor := rfl
  have hused : Client.Used ⟨_, []⟩ := Relation.ReflTransGen.single
    (.call (@Session.Uses.make {} _ (some "x") (.constructed (.make hmake))) (.inl ⟨_, rfl⟩))
  obtain ⟨-, -, h⟩ := export_exact BufferInfo.columnsTensor
  obtain ⟨-, h⟩ := h _ "x" BufferInfo.columnsBuffer hused rfl rfl (by decide)
    (by unfold Shape.Populated; decide)
  obtain ⟨info, words, hinfo, -, -, -, -, hconsume, hread, -⟩ := h ⟨by decide, by decide⟩
  have hwords : BufferInfo.columnsTensor.elementsAs .int16 = .value [1, 65535, 2, 260] := rfl
  obtain rfl : words = [1, 65535, 2, 260] := by
    have hvalue := (hread (by decide) (by decide)).symm.trans hwords
    injection hvalue
  refine ⟨_, info, hused, rfl, hinfo, ?_, hconsume, hwords⟩
  cases hinfo
  rfl

/-- A tensor whose one axis of one position has a stride that is not a signed word has a
description, and its reader obtains the element, but no array view of the tensor is formed.  So
has a number of eight bytes that is repeated `2 ^ 60` times, and memory holds no list of that.  A
number that is repeated `2 ^ 62` times has strides that can be counted in bytes and elements that
cannot, and so no description. -/
theorem export_not_exact :
    (∃ a info, Argument.make ⟨.uint8, [⟨1, 2 ^ 63⟩]⟩ (.host (.ofBytes 0 #[7])) = .value a ∧
      a.bufferInfo = .value info ∧
      info.consume (HostBuffer.ofBytes 0 #[7]).memory = some [.integer 7] ∧
      a.elementsAs .uint8 = .halted) ∧
    (∃ a info, Argument.make ⟨.double, [⟨2 ^ 60, 0⟩]⟩ (.host (.ofBytes 0 (Bytes.zeros 8))) =
        .value a ∧
      a.bufferInfo = .value info ∧ a.elementsAs .double = .halted) ∧
    ∃ a, Argument.make ⟨.float, [⟨2 ^ 62, 0⟩]⟩ (.host (.ofBytes 0 #[0, 0, 128, 63])) = .value a ∧
      a.bufferInfo = .halted :=
  ⟨⟨_, _, rfl, rfl, rfl, rfl⟩,
    ⟨_, _, rfl, rfl, Argument.elementsAs_of_not_listable (by decide) _⟩, _, rfl, rfl⟩

end TensorGraph
