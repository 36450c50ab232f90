/-
Lowering a program for a target.

Compiling runs the passes of the target on a copy of the program and then binds
a kernel to every instruction that is no parameter.  When something is refused on
the way, what the copy held is given back and the program stays as it was.
-/
import TensorGraph.Program.Pass
import TensorGraph.World

namespace TensorGraph

def World.releaseProgram (p : Program) : Action World Unit :=
  Action.forEach World.releaseBuffer p.residents

def World.surrendered (before after : List DeviceBuffer) : List DeviceBuffer :=
  after.foldl List.erase before

def World.retainProgram (p : Program) : Action World Unit :=
  Action.forEach World.retainBuffer p.residents

namespace Backend

def bindHost (op : Operator) : Outcome BoundKernel :=
  if op.isTransfer then .refused (.lowering op.name Target.hostName .hostHasNoDevice)
  else .value (.host op)

/-- The kernel of a device for an instruction.  A literal that is moved to the
device is moved now, once for all evaluations. -/
def bindDevice (id : DeviceId) (target : String) (p : Program) (i : Instruction) :
    Action World BoundKernel := do
  match i.op with
  | .literal l => return .literal l
  | .hostToDevice =>
    match i.inputs with
    | [] => Action.halt
    | r :: _ => do
      match (← p.get r).op with
      | .literal l => return .resident (← World.toDevice id (.ofLiteral l))
      | _ => return .upload id
  | .deviceToHost => return .download
  | op =>
    if op.isView then return .view op.name
    else do
      let some d := (← MonadState.get).devices[id]? | Action.halt
      if op.isCompute && d.supports op i.shape.dtype then return .launch op id
      else
        Action.refuse (.lowering op.name (target ++ ":" ++ deviceName)
          (.noKernelProducing i.shape.dtype))

end Backend

def Target.bind (t : Target) (p : Program) (position : Nat) : Action World BoundKernel := do
  let i ← p.get position
  match t.backend with
  | .host refused =>
    if i.op.name ∈ refused then Action.refuse (.lowering i.op.name t.name .refused)
    else Backend.bindHost i.op
  | .device id => Backend.bindDevice id t.name p i

/-- What a pass makes of a program, and why it stopped if it did.  What the
program held and no longer holds is given back. -/
def Pass.run (pass : Pass) (p : Program) : Action World (Program × Option Error) := do
  match pass.apply p with
  | .halted => Action.halt
  | .value () q => do
    Action.forEach World.releaseBuffer (World.surrendered p.residents q.residents)
    if let some report := pass.report p q then World.note .debug report
    return (q, none)
  | .refused e q => do
    Action.forEach World.releaseBuffer (World.surrendered p.residents q.residents)
    return (q, some e)

namespace Program

def setKernel (p : Program) (position : Nat) (k : BoundKernel) : Program :=
  { p with
    instructions := p.instructions.modify position fun i => { i with kernel := some k } }

def lower (t : Target) (p : Program) : List Pass → Action World Program
  | [] => pure p
  | pass :: rest => do
    let (q, stopped) ← pass.run p
    match stopped with
    | some e => do
      World.releaseProgram q
      Action.refuse e
    | none => do
      if (← MonadState.get).settings.traceCompile then
        World.note .debug s!"after {pass.name} for {t.name}:\n{q.text}"
      lower t q rest

/-- The program with kernels bound at the given positions, parameters aside. -/
def bindAll (t : Target) (p : Program) : List Nat → Action World Program
  | [] => pure p
  | position :: rest => do
    let i ← p.get position
    if i.isParameter then bindAll t p rest
    else do
      let k ← (t.bind p position).onRefusal (World.releaseProgram p)
      bindAll t (p.setKernel position k) rest

def compile (p : Program) (t : Target) : Action World Program := do
  match p.target with
  | some current =>
    Action.refuse (.lowering "program" t.name (.alreadyCompiled current.name))
  | none => do
    let lowered ← lower t p t.passes
    let bound ← bindAll t lowered (List.range lowered.size)
    World.note .debug s!"compiled {bound.size} instructions for {t.name}"
    return { bound with target := some t }

/-- Appends a constant.  On a compiled program its kernel is bound at once; a
target that refuses leaves it unbound, and that is only logged. -/
def addLiteral (p : Program) (l : Literal) : Action World (Program × Nat) := do
  let r := p.size
  let q : Program :=
    { p with instructions := p.instructions ++ [{ op := .literal l, inputs := [], shape := l.shape }] }
  match p.target with
  | none => return (q, r)
  | some t => do
    match ← Action.attempt (t.bind q r) with
    | .ok k => return (q.setKernel r k, r)
    | .error e => do
      World.note .error s!"binding literal @{r} for {t.name}: {e.message}"
      return (q, r)

/-- A program that was compiled is not compiled again. -/
theorem compile_of_isCompiled {p : Program} {current : Target} (h : p.target = some current)
    (t : Target) :
    p.compile t = Action.refuse (.lowering "program" t.name (.alreadyCompiled current.name)) := by
  unfold compile
  rw [h]

end Program

end TensorGraph
