/-
The passes over a program.

`rebuild` goes through the instructions in order and hands each, with its inputs
renumbered, to a step that appends what now stands for it.  A pass that is
refused leaves the program as far as it was rebuilt.
-/
import TensorGraph.Program.Basic

namespace TensorGraph
namespace Program

/-- Inputs by their new positions.  `positions` says for every old position what
now stands for it. -/
def renumber (positions : List (Option Nat)) : List Nat → Outcome (List Nat)
  | [] => .value []
  | r :: rest =>
    match positions[r]? with
    | some (some n) => do return n :: (← renumber positions rest)
    | _ => .refused (.noInstruction r positions.length)

def rebuildFrom (step : Nat → Instruction → Action Program (Option Nat))
    (positions : List (Option Nat)) : List Instruction → Action Program Unit
  | [] => pure ()
  | i :: rest => do
    let inputs ← renumber positions i.inputs
    let now ← step positions.length { i with inputs := inputs }
    rebuildFrom step (positions ++ [now]) rest

/-- Rebuilds the instruction list.  `step` is given the old position and the
instruction, and answers with the position that stands for it, or with none to
drop it. -/
def rebuild (step : Nat → Instruction → Action Program (Option Nat)) : Action Program Unit := do
  let p ← MonadState.get
  set { p with instructions := [] }
  rebuildFrom step [] p.instructions

/-! ## Dead code -/

def mark (live : List Bool) : List Nat → Option (List Bool)
  | [] => some live
  | r :: rest => if r < live.length then mark (live.set r true) rest else none

/-- Marks what live instructions read.  The instructions are given from the last
to the first, so those left give the position of the next. -/
def sweep (live : List Bool) : List Instruction → Option (List Bool)
  | [] => some live
  | i :: earlier => do
    if live.getD earlier.length false then sweep (← mark live i.inputs) earlier
    else sweep live earlier

def liveTable (p : Program) : Option (List Bool) :=
  sweep ((List.replicate p.size false).set (p.size - 1) true) p.instructions.reverse

/-- Drops instructions that the output does not depend on.  Parameters stay. -/
def eliminateDeadCode : Action Program Unit := do
  let p ← MonadState.get
  if p.instructions.isEmpty then pure ()
  else do
    let live ← liveTable p
    rebuild fun old i => do
      if live.getD old false || i.isParameter then return some (← push i)
      else return none

/-! ## Row-major inputs -/

def contiguousInputs : List Nat → Action Program (List Nat)
  | [] => pure []
  | r :: rest => do
    let i ← (← MonadState.get).get r
    if ← i.shape.isStandard then return r :: (← contiguousInputs rest)
    else do
      let copy ← addInstruction .contiguous [r]
      return copy :: (← contiguousInputs rest)

def isReshape : Operator → Bool
  | .reshape _ => true
  | _ => false

/-- Gives row-major inputs to the operators that need them, and to every reshape,
which only reinterprets row-major storage. -/
def insertContiguous (needs : Operator → Bool) : Action Program Unit :=
  rebuild fun _ i => do
    if needs i.op || isReshape i.op then do
      let inputs ← contiguousInputs i.inputs
      return some (← push { i with inputs := inputs })
    else return some (← push i)

/-! ## Transfers -/

def startsOnHost : Operator → Bool
  | .literal _ | .parameter .. => true
  | _ => false

/-- Moves literals and parameters to the device right after they are produced and,
with `offload`, the output back to the host. -/
def insertTransfers (offload : Bool) : Action Program Unit := do
  rebuild fun _ i => do
    let host := startsOnHost i.op
    let r ← push i
    if host then return some (← addInstruction .hostToDevice [r])
    else return some r
  match offload, (← MonadState.get).output? with
  | true, some output => discard (addInstruction .deviceToHost [output])
  | _, _ => pure ()

end Program

def Pass.apply : Pass → Action Program Unit
  | eliminateDeadCode => Program.eliminateDeadCode
  | insertContiguous needs => Program.insertContiguous needs
  | insertTransfers offload => Program.insertTransfers offload

def Pass.report (pass : Pass) (before after : Program) : Option String :=
  match pass with
  | eliminateDeadCode =>
    if before.instructions.isEmpty then none
    else some s!"{pass.name}: removed {before.size - after.size}"
  | _ => none

end TensorGraph
