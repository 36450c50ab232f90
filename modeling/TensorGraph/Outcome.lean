/-
How a computation ends.

A computation gives a value, is refused for a cause its caller is told, or halts:
a size left the 64-bit range or a list was indexed outside its bounds, and
nothing follows.  `Outcome` is that choice, and `Action` the same with a state
that survives a refusal.  `Action.onRefusal` is how an action that fails half way
gives back what it holds.
-/
import TensorGraph.Error

namespace TensorGraph

inductive Outcome (α : Type) where
  | value (a : α)
  | refused (e : Error)
  | halted
  deriving Repr

namespace Outcome

variable {α β : Type}

def bind (x : Outcome α) (f : α → Outcome β) : Outcome β :=
  match x with
  | value a => f a
  | refused e => refused e
  | halted => halted

instance : Monad Outcome where
  pure := value
  bind := bind

def ofOption : Option α → Outcome α
  | some a => value a
  | none => halted

instance : MonadLift Option Outcome := ⟨ofOption⟩

def require (condition : Prop) [Decidable condition] (e : Error) : Outcome Unit :=
  if condition then value () else refused e

theorem value_bind (a : α) (f : α → Outcome β) : (value a >>= f) = f a := rfl

theorem bind_eq_value {x : Outcome α} {f : α → Outcome β} {b : β} :
    (x >>= f) = value b ↔ ∃ a, x = value a ∧ f a = value b := by
  cases x with
  | value a => exact ⟨fun h => ⟨a, rfl, h⟩, fun ⟨a', ha, h⟩ => by cases ha; exact h⟩
  | refused e => exact ⟨(fun h => nomatch h), (fun ⟨_, h, _⟩ => nomatch h)⟩
  | halted => exact ⟨(fun h => nomatch h), (fun ⟨_, h, _⟩ => nomatch h)⟩

theorem ofOption_eq_value {x : Option α} {a : α} : ofOption x = value a ↔ x = some a := by
  cases x with
  | none => exact ⟨(fun h => nomatch h), (fun h => nomatch h)⟩
  | some b => exact ⟨fun h => congrArg some (by injection h), fun h => by cases h; rfl⟩

instance : LawfulMonad Outcome :=
  LawfulMonad.mk' Outcome
    (fun x => by cases x <;> rfl)
    (fun _ _ => rfl)
    (fun x _ _ => by cases x <;> rfl)

end Outcome

/-- The end of a computation that changes a state.  A refusal keeps the state
reached so far. -/
inductive Turn (σ α : Type) where
  | value (a : α) (next : σ)
  | refused (e : Error) (next : σ)
  | halted

def Action (σ α : Type) : Type := σ → Turn σ α

namespace Action

variable {σ τ α β : Type}

def bind (x : Action σ α) (f : α → Action σ β) : Action σ β := fun s =>
  match x s with
  | .value a next => f a next
  | .refused e next => .refused e next
  | .halted => .halted

instance : Monad (Action σ) where
  pure a := fun s => .value a s
  bind := bind

instance : MonadStateOf σ (Action σ) where
  get := fun s => .value s s
  set s := fun _ => .value () s
  modifyGet f := fun s => let r := f s; .value r.1 r.2

def ofOutcome (x : Outcome α) : Action σ α := fun s =>
  match x with
  | .value a => .value a s
  | .refused e => .refused e s
  | .halted => .halted

instance : MonadLift Outcome (Action σ) := ⟨ofOutcome⟩

def refuse (e : Error) : Action σ α := fun s => .refused e s

def halt : Action σ α := fun _ => .halted

/-- Runs `cleanup` when `x` is refused, and then passes the refusal on. -/
def onRefusal (x : Action σ α) (cleanup : Action σ Unit) : Action σ α := fun s =>
  match x s with
  | .refused e next =>
    match cleanup next with
    | .value _ last => .refused e last
    | .refused _ last => .refused e last
    | .halted => .halted
  | t => t

/-- The end of `x` as a value, so that its caller can go on after a refusal. -/
def attempt (x : Action σ α) : Action σ (Except Error α) := fun s =>
  match x s with
  | .value a next => .value (.ok a) next
  | .refused e next => .value (.error e) next
  | .halted => .halted

def zoom (view : σ → τ) (put : τ → σ → σ) (x : Action τ α) : Action σ α := fun s =>
  match x (view s) with
  | .value a next => .value a (put next s)
  | .refused e next => .refused e (put next s)
  | .halted => .halted

def forEach (f : α → Action σ Unit) : List α → Action σ Unit
  | [] => pure ()
  | a :: rest => do f a; forEach f rest

theorem pure_apply (a : α) (s : σ) : (pure a : Action σ α) s = .value a s := rfl

theorem bind_apply (x : Action σ α) (f : α → Action σ β) (s : σ) :
    (x >>= f) s =
      match x s with
      | .value a next => f a next
      | .refused e next => .refused e next
      | .halted => .halted := rfl

theorem forEach_nil (f : α → Action σ Unit) : forEach f [] = pure () := rfl

theorem forEach_cons (f : α → Action σ Unit) (a : α) (rest : List α) :
    forEach f (a :: rest) = (do f a; forEach f rest) := rfl

instance : LawfulMonad (Action σ) :=
  LawfulMonad.mk' (Action σ)
    (fun x => funext fun s => by
      change (match x s with
        | .value a next => Turn.value a next
        | .refused e next => .refused e next
        | .halted => .halted) = x s
      cases x s <;> rfl)
    (fun _ _ => rfl)
    (fun x f g => funext fun s => by
      change (match (match x s with
          | .value a next => f a next
          | .refused e next => .refused e next
          | .halted => .halted) with
        | .value a next => g a next
        | .refused e next => .refused e next
        | .halted => .halted) = _
      rw [bind_apply]
      cases x s <;> rfl)

end Action

end TensorGraph
