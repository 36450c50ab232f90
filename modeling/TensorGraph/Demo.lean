/-
A small network evaluated on the host and on a device: a convolution of a random
image followed by a softmax over channels.
-/
import TensorGraph.Eval

namespace TensorGraph
namespace Demo

def network : Action World Program := do
  let image ← Shape.standard .float [1, 3, 8, 8]
  let weights ← Literal.generate (← World.freshKey) (← Shape.standard .float [4, 3, 3, 3]) 0
  let declared : Program :=
    { instructions := [{ op := .parameter "x" image, inputs := [], shape := image }]
      parameters := [("x", image)] }
  let (p, w) ← declared.addLiteral weights
  let layers : Action Program Unit := do
    let conv ← Program.addInstruction (.convolution { padding := ⟨1, 1⟩ }) [0, w]
    let _ ← Program.addInstruction (.softmax 1) [conv]
  match layers p with
  | .value () q => return q
  | .refused e _ => Action.refuse e
  | .halted => Action.halt

def largestDifference (xs ys : List Nat) : Nat :=
  let f := Format.single
  (List.zipWith (fun x y => f.magnitude (f.sub x y)) xs ys).foldl f.maximum 0

def report : Action World String := do
  let p ← network
  let image ← Shape.standard .float [1, 3, 8, 8]
  let input ← Literal.generate (← World.freshKey) image 1
  let params : Parameters := [("x", .ofLiteral input)]
  let onHost ← p.compile .host
  let id ← World.addDevice .unlimited
  let onDevice ← p.compile (.device id true)
  let expected ← (← onHost.run params).elementsAs .float
  let actual ← (← onDevice.run params).elementsAs .float
  let difference := Format.single.text Operator.factorLayout (largestDifference expected actual)
  return onDevice.text ++ s!"{actual.length} outputs, max difference {difference}\n"

def text : Outcome String :=
  match report {} with
  | .value s _ => .value s
  | .refused e _ => .refused e
  | .halted => .halted

end Demo
end TensorGraph
