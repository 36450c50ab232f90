/-
Programs.

A program is a list of instructions, each reading earlier ones by position; the
last is the output.  The shape of an instruction is inferred when it is added and
fixed from then on.  A program that was compiled has a target and takes no new
instructions except literals.
-/
import TensorGraph.Operator.Infer
import TensorGraph.Target

namespace TensorGraph

structure Instruction where
  op : Operator
  inputs : List Nat
  shape : Shape
  kernel : Option BoundKernel := none

/-- A graph of instructions in an order in which they can be run, with the shapes
of its parameters in the order of their names. -/
structure Program where
  instructions : List Instruction := []
  parameters : List (String × Shape) := []
  target : Option Target := none

namespace Instruction

def isParameter (i : Instruction) : Bool := i.op.isParameter

/-- Whether two instructions are the same, kernels being compared by name. -/
def same (a b : Instruction) : Bool :=
  a.op.same b.op && a.inputs = b.inputs && a.shape = b.shape
    && a.kernel.map BoundKernel.name = b.kernel.map BoundKernel.name

def reference (position : Nat) : String := s!"@{position}"

def line (position : Nat) (i : Instruction) : String :=
  let inputs := if i.inputs.isEmpty then "" else "(" ++ Text.listed (i.inputs.map reference) ++ ")"
  reference position ++ " = " ++ i.op.text ++ inputs ++ " -> " ++ i.shape.text ++ "\n"

end Instruction

namespace Program

def size (p : Program) : Nat := p.instructions.length

def output? (p : Program) : Option Nat :=
  if p.instructions.isEmpty then none else some (p.size - 1)

def isCompiled (p : Program) : Bool := p.target.isSome

def get (p : Program) (position : Nat) : Outcome Instruction :=
  match p.instructions[position]? with
  | some i => .value i
  | none => .refused (.noInstruction position p.size)

def textFrom (position : Nat) : List Instruction → String
  | [] => ""
  | i :: rest => i.line position ++ textFrom (position + 1) rest

def text (p : Program) : String := textFrom 0 p.instructions

def sameInstructions : List Instruction → List Instruction → Bool
  | [], [] => true
  | a :: as, b :: bs => a.same b && sameInstructions as bs
  | _, _ => false

/-- The device buffers that kernels of the program hold, in order. -/
def residents (p : Program) : List DeviceBuffer :=
  p.instructions.filterMap fun i => i.kernel.bind BoundKernel.resident?

def push (i : Instruction) : Action Program Nat := fun p =>
  .value p.size { p with instructions := p.instructions ++ [i] }

def requireOpen (op : String) : Action Program Unit := do
  match (← MonadState.get).target with
  | some target => Action.refuse (.lowering op target.name .closed)
  | none => pure ()

def insertParameter (name : String) (shape : Shape) :
    List (String × Shape) → List (String × Shape)
  | [] => [(name, shape)]
  | (n, s) :: rest =>
    if name < n then (name, shape) :: (n, s) :: rest
    else (n, s) :: insertParameter name shape rest

def addParameter (name : String) (shape : Shape) : Action Program Nat := do
  requireOpen "@param"
  let p ← MonadState.get
  if p.parameters.any fun q => q.1 = name then
    Action.refuse (.parameter name .declaredTwice)
  set { p with parameters := insertParameter name shape p.parameters }
  push { op := .parameter name shape, inputs := [], shape := shape }

/-- Appends an operator applied to earlier instructions.  A program that refuses it
stays as it was. -/
def addInstruction (op : Operator) (inputs : List Nat) : Action Program Nat := do
  if let .parameter name _ := op then
    Action.refuse (.parameter name .notAnInstruction)
  requireOpen op.name
  let p ← MonadState.get
  let shapes ← inputs.mapM fun r => do return (← p.get r).shape
  let shape ← op.infer shapes
  push { op := op, inputs := inputs, shape := shape }

theorem push_apply (i : Instruction) (p : Program) :
    push i p = .value p.size { p with instructions := p.instructions ++ [i] } := rfl

theorem get_of_lt {p : Program} {position : Nat} (h : position < p.size) :
    p.get position = .value (p.instructions[position]) := by
  unfold get
  rw [List.getElem?_eq_getElem h]

theorem get_of_size_le {p : Program} {position : Nat} (h : p.size ≤ position) :
    p.get position = .refused (.noInstruction position p.size) := by
  unfold get
  rw [List.getElem?_eq_none h]

end Program

end TensorGraph
