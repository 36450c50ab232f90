/-
The operators of a program.

Operators fall into kinds that decide how a target treats them: elementwise ones
act index by index, views only reinterpret the storage of their input, and
computing operators read their inputs and write a fresh buffer.
-/
import TensorGraph.Binary.Elementary
import TensorGraph.Decimal.Layout
import TensorGraph.Literal

namespace TensorGraph

/-- Every operation a program can contain.  The factor of `gemm` is a
single-precision bit pattern. -/
inductive Operator where
  | literal (value : Literal)
  | parameter (name : String) (shape : Shape)
  | elementary (fn : Elementary)
  | add
  | mul
  | reshape (dims : List Int)
  | transpose (permutation : List Nat)
  | contiguous
  | gemm (factor : Nat)
  | softmax (axis : Nat)
  | convolution (parameters : Convolution)
  | hostToDevice
  | deviceToHost
  deriving Repr

namespace Operator

def name : Operator → String
  | literal _ => "@literal"
  | parameter .. => "@param"
  | elementary fn => fn.name
  | add => "add"
  | mul => "mul"
  | reshape _ => "reshape"
  | transpose _ => "transpose"
  | contiguous => "contiguous"
  | gemm _ => "gemm"
  | softmax _ => "softmax"
  | convolution _ => "convolution"
  | hostToDevice => "host_to_device"
  | deviceToHost => "device_to_host"

/-- A factor is written without an exponent, and without a point when it is
whole. -/
def factorLayout : Decimal.Layout := ⟨false, none⟩

def text (op : Operator) : String :=
  match op with
  | literal l => op.name ++ l.text
  | parameter name _ => op.name ++ ":" ++ name
  | reshape dims => "reshape[dims=\x7b" ++ Text.listed (dims.map toString) ++ "\x7d]"
  | transpose permutation => "transpose[permutation=\x7b" ++ Text.numbers permutation ++ "\x7d]"
  | gemm factor => "gemm[alpha=" ++ Format.single.text factorLayout factor ++ "]"
  | softmax axis => s!"softmax[axis={axis}]"
  | convolution c =>
    s!"convolution[padding={c.padding.text},stride={c.stride.text},dilation={c.dilation.text}]"
  | _ => op.name

def isElementwise : Operator → Bool
  | elementary _ | add | mul => true
  | _ => false

def isView : Operator → Bool
  | reshape _ | transpose _ => true
  | _ => false

def isCompute : Operator → Bool
  | elementary _ | add | mul | contiguous | gemm _ | softmax _ | convolution _ => true
  | _ => false

def isTransfer : Operator → Bool
  | hostToDevice | deviceToHost => true
  | _ => false

def isParameter : Operator → Bool
  | parameter .. => true
  | _ => false

/-- Whether two operators are the same.  Factors are compared as numbers: the two
zeros are equal, and a NaN equals nothing. -/
def same : Operator → Operator → Bool
  | literal a, literal b => a.same b
  | parameter n s, parameter m t => n = m && s = t
  | elementary f, elementary g => f = g
  | add, add | mul, mul | contiguous, contiguous => true
  | reshape a, reshape b => a = b
  | transpose a, transpose b => a = b
  | gemm a, gemm b => Format.single.equal a b
  | softmax a, softmax b => a = b
  | convolution a, convolution b => a = b
  | hostToDevice, hostToDevice | deviceToHost, deviceToHost => true
  | _, _ => false

theorem isCompute_of_isView {op : Operator} (h : op.isView = true) : op.isCompute = false := by
  cases op <;> first | rfl | cases h

end Operator

end TensorGraph
