/-
Sessions: named programs, kept arguments and named devices.

A session is where the holders of device memory are: its kept arguments and the
kernels of its programs.  Every operation here takes care that a value that is
replaced or dropped gives back what it held.  An operation that makes an argument
hands it to its caller, who either keeps it under a name or lets it go, both with
`settle`.
-/
import TensorGraph.Eval

namespace TensorGraph

structure Session where
  world : World := {}
  programs : List (String × Program) := []
  arguments : List (String × Argument) := []
  devices : List (String × DeviceId) := []

namespace Session

def assign (name : String) (value : α) : List (String × α) → List (String × α)
  | [] => [(name, value)]
  | (n, v) :: rest => if n = name then (name, value) :: rest else (n, v) :: assign name value rest

def unassign (name : String) (values : List (String × α)) : List (String × α) :=
  values.filter fun q => q.1 ≠ name

theorem lookup_assign_self (name : String) (value : α) (values : List (String × α)) :
    (assign name value values).lookup name = some value := by
  induction values with
  | nil => simp [assign]
  | cons q rest ih =>
    obtain ⟨n, v⟩ := q
    unfold assign
    by_cases h : n = name
    · simp [h]
    · rw [if_neg h, List.lookup_cons, show (name == n) = false from beq_false_of_ne (Ne.symm h)]
      exact ih

def inWorld (x : Action World α) : Action Session α :=
  x.zoom Session.world fun w s => { s with world := w }

instance : MonadLift (Action World) (Action Session) := ⟨inWorld⟩

/-! ## Devices -/

/-- Adds a device under a name.  A device that had the name lives on as long as
its buffers do. -/
def addDevice (name : String) (d : Device) : Action Session DeviceId := do
  let id ← World.addDevice d
  modify fun s => { s with devices := assign name id s.devices }
  return id

def onDevice (name : String) (call : DeviceId → Action World α) : Action Session α := do
  match (← get).devices.lookup name with
  | some id => inWorld (call id)
  | none => Action.halt

/-! ## Arguments -/

def argument? (name : String) : Action Session (Option Argument) := do
  return (← get).arguments.lookup name

def drop (name : String) : Action Session Bool := do
  match (← get).arguments.lookup name with
  | some a => do
    modify fun s => { s with arguments := unassign name s.arguments }
    inWorld (World.release a)
    return true
  | none => return false

def keep (name : String) (a : Argument) : Action Session Unit := do
  let old := (← get).arguments.lookup name
  modify fun s => { s with arguments := assign name a s.arguments }
  match old with
  | some b => inWorld (World.release b)
  | none => pure ()

/-- Keeps an argument if there is a name for it, and lets it go otherwise. -/
def settle (name : Option String) (a : Argument) : Action Session Unit :=
  match name with
  | some n => keep n a
  | none => inWorld (World.release a)

def share (a : Argument) : Action Session Argument := do
  inWorld (World.retain a)
  return a

def withShape (a : Argument) (shape : Shape) : Action Session Argument := do
  let b ← a.withShape shape
  share b

/-! ## Programs -/

/-- The program under a name, empty when it is first named. -/
def program (name : String) : Action Session Program := do
  match (← get).programs.lookup name with
  | some p => return p
  | none => do
    let p : Program := {}
    modify fun s => { s with programs := assign name p s.programs }
    return p

def setProgram (name : String) (p : Program) : Action Session Unit :=
  modify fun s => { s with programs := assign name p s.programs }

def onProgram (name : String) (x : Action Program α) : Action Session α := do
  let _ ← program name
  x.zoom (fun s => (s.programs.lookup name).getD {})
    (fun p s => { s with programs := assign name p s.programs })

def addLiteral (name : String) (l : Literal) : Action Session Nat := do
  let (p, r) ← (← program name).addLiteral l
  setProgram name p
  return r

def compile (name : String) (t : Target) : Action Session Unit := do
  let p ← (← program name).compile t
  setProgram name p

/-- Runs a pass on a program as it is.  When that is refused the program stays as far as
it was rebuilt. -/
def runPass (name : String) (pass : Pass) : Action Session Unit := do
  let (p, stopped) ← pass.run (← program name)
  setProgram name p
  match stopped with
  | some e => Action.refuse e
  | none => pure ()

/-- Copies a program.  Both share what its kernels hold. -/
def copyProgram (source target : String) : Action Session Unit := do
  let p ← program source
  inWorld (World.retainProgram p)
  let old := (← get).programs.lookup target
  setProgram target p
  match old with
  | some q => inWorld (World.releaseProgram q)
  | none => pure ()

def dropProgram (name : String) : Action Session Bool := do
  match (← get).programs.lookup name with
  | some p => do
    modify fun s => { s with programs := unassign name s.programs }
    inWorld (World.releaseProgram p)
    return true
  | none => return false

def check (name : String) (params : Parameters) : Action Session Unit := do
  let p ← program name
  Program.checkParameters params p.parameters

def eval (name : String) (params : Parameters) : Action Session Argument := do
  (← program name).run params

def takeLog : Action Session (List Record) := do
  let records := (← get).world.log
  modify fun s => { s with world := { s.world with log := [] } }
  return records

end Session

end TensorGraph
