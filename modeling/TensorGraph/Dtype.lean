/-
Element types.

A tensor stores elements of one of eleven types.  Each has a fixed size, a name
in C-like kernel source from which its own text is built, and, `half` apart, a
one-letter code under which array libraries know it.
-/

namespace TensorGraph

inductive Dtype where
  | half
  | float
  | double
  | int8
  | int16
  | int32
  | int64
  | uint8
  | uint16
  | uint32
  | uint64
  deriving DecidableEq, Repr

namespace Dtype

def all : List Dtype :=
  [half, float, double, int8, int16, int32, int64, uint8, uint16, uint32, uint64]

def size : Dtype → Nat
  | int8 | uint8 => 1
  | half | int16 | uint16 => 2
  | float | int32 | uint32 => 4
  | double | int64 | uint64 => 8

def cName : Dtype → String
  | half => "half"
  | float => "float"
  | double => "double"
  | int8 => "char"
  | int16 => "short"
  | int32 => "int"
  | int64 => "long long"
  | uint8 => "unsigned char"
  | uint16 => "unsigned short"
  | uint32 => "unsigned int"
  | uint64 => "unsigned long long"

/-- The text of the type: its source name with underscores for blanks. -/
def text (d : Dtype) : String :=
  String.ofList (d.cName.toList.map fun c => if c = ' ' then '_' else c) ++ "_type"

/-- The letter under which a strided view is exported.  Half has none. -/
def exportCode : Dtype → Option String
  | half => none
  | float => some "f"
  | double => some "d"
  | int8 => some "b"
  | int16 => some "h"
  | int32 => some "i"
  | int64 => some "q"
  | uint8 => some "B"
  | uint16 => some "H"
  | uint32 => some "I"
  | uint64 => some "Q"

def isFloat : Dtype → Bool
  | half | float | double => true
  | _ => false

def isSigned : Dtype → Bool
  | int8 | int16 | int32 | int64 => true
  | _ => false

theorem size_pos (d : Dtype) : 0 < d.size := by
  cases d <;> decide

/-- Only half is left out of the export codes. -/
theorem exportCode_eq_none {d : Dtype} : d.exportCode = none ↔ d = half := by
  cases d <;> simp [exportCode]

end Dtype

end TensorGraph
