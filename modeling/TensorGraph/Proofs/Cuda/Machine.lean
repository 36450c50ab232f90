/-
A machine that runs kernels.

It works on the trees of kernels, one thread at a time, and keeps an account of every
element that is loaded and stored.  Integers behave as in C with 32 and 64 bits: the operands
of an operator are brought to a common type, unsigned results wrap, and there is no answer
where a signed result does not fit, a divisor is zero or a position lies outside its array.

Of floating values the machine knows only what it is told in a `Floating`, so a statement
for all of these says that the account does not depend on them.  Operands are worked out
from left to right and the bound of a loop where the loop starts: C leaves the first open, and
the bounds in kernels are literals.

`isGrouped` says that the text of a tree is read as that tree.
-/
import TensorGraph.Cuda.Kernel
import TensorGraph.Proofs.Traced

namespace TensorGraph
namespace Cuda

/-! ## Integers -/

/-- The integer types, from the one that gives way to all others to the one that gives way
to none. -/
inductive IntType where
  | int
  | unsigned
  | longLong
  | unsignedLongLong
  deriving DecidableEq, Repr

namespace IntType

def rank : IntType → Nat
  | int => 0
  | unsigned => 1
  | longLong => 2
  | unsignedLongLong => 3

def isSigned : IntType → Bool
  | int | longLong => true
  | unsigned | unsignedLongLong => false

def greatest : IntType → Nat
  | int => 2147483647
  | unsigned => 4294967295
  | longLong => Word.maxSigned
  | unsignedLongLong => Word.maxUnsigned

def least (t : IntType) : Int := if t.isSigned then -(t.greatest + 1) else 0

def Holds (t : IntType) (n : Int) : Prop := t.least ≤ n ∧ n ≤ t.greatest

instance (t : IntType) (n : Int) : Decidable (t.Holds n) := inferInstanceAs (Decidable (_ ∧ _))

/-- A number as one of a type.  Unsigned types wrap, signed ones have no answer for what they
do not hold. -/
def bring (t : IntType) (n : Int) : Option Int :=
  if t.Holds n then some n else if t.isSigned then none else some (n % (t.greatest + 1))

/-- The type to which two operands are brought. -/
def common (t u : IntType) : IntType := if t.rank < u.rank then u else t

def ofLiteral (magnitude : Nat) : Option IntType :=
  if magnitude ≤ int.greatest then some int
  else if magnitude ≤ longLong.greatest then some longLong
  else none

end IntType

def CType.integer : CType → Option IntType
  | unsignedWord => some .unsignedLongLong
  | signedWord => some .longLong
  | double | element _ => none

def BinOp.onIntegers (x y : Int) : BinOp → Option Int
  | add => some (x + y)
  | sub => some (x - y)
  | mul => some (x * y)
  | div => if y = 0 then none else some (x.tdiv y)
  | mod => if y = 0 then none else some (x.tmod y)
  | _ => none

/-! ## Values -/

inductive Value (ρ : Type) where
  | int (type : IntType) (n : Int)
  | real (x : ρ)

structure Floating (ρ : Type) where
  constant : String → ρ
  arithmetic : BinOp → ρ → ρ → ρ
  convert : CType → ρ → ρ
  call : String → ρ → ρ
  callPair : String → ρ → ρ → ρ

variable {ρ : Type}

def truth (p : Prop) [Decidable p] : Value ρ := .int .int (if p then 1 else 0)

def Value.isTrue : Value ρ → Option Bool
  | int _ n => some (n ≠ 0)
  | real _ => none

/-- Two values under an operator that needs both. -/
def combine (f : Floating ρ) (op : BinOp) : Value ρ → Value ρ → Option (Value ρ)
  | .int t x, .int u y => do
    let w := t.common u
    let x ← w.bring x
    let y ← w.bring y
    match op with
    | .less => some (truth (x < y))
    | .atLeast => some (truth (x ≥ y))
    | op => some (.int w (← w.bring (← op.onIntegers x y)))
  | .real x, .real y =>
    match op with
    | .add | .sub | .mul | .div => some (.real (f.arithmetic op x y))
    | _ => none
  | _, _ => none

/-- A value as one of a type.  Integers are not made floating values or the other way. -/
def convert (f : Floating ρ) (type : CType) : Value ρ → Option (Value ρ)
  | .int _ n => do
    let t ← type.integer
    some (.int t (← t.bring n))
  | .real x => if type.integer = none then some (.real (f.convert type x)) else none

/-! ## Expressions -/

inductive Access (ρ : Type) where
  | load (array : String) (position : Nat)
  | store (position : Nat) (value : ρ)

/-- What a thread finds: the operations on floating values, the arrays it may read, the type
and number of the elements it may write, and the names that are known from the start. -/
structure Machine (ρ : Type) where
  floating : Floating ρ
  array : String → Option (List ρ)
  element : CType
  count : Nat
  builtin : String → Option Nat

structure Variable (ρ : Type) where
  type : CType
  value : Value ρ

/-- The variables that are known at a point, the innermost first. -/
abbrev Scope (ρ : Type) := List (String × Variable ρ)

variable (m : Machine ρ)

def Scope.value? (env : Scope ρ) (v : String) : Option (Value ρ) :=
  match env.lookup v with
  | some x => some x.value
  | none => (m.builtin v).map fun (n : Nat) => .int .unsigned n

def Scope.set (v : String) (x : Value ρ) : Scope ρ → Option (Scope ρ)
  | [] => none
  | (w, y) :: rest =>
    if w = v then do some ((w, ⟨y.type, ← convert m.floating y.type x⟩) :: rest)
    else do some ((w, y) :: (← set v x rest))

def loaded (array : String) : Value ρ → Traced (Access ρ) (Value ρ)
  | .int _ n =>
    if 0 ≤ n then
      .touching (.load array n.toNat) (((m.array array).bind (·[n.toNat]?)).map .real)
    else .stuck
  | .real _ => .stuck

def Expr.eval (env : Scope ρ) : Expr → Traced (Access ρ) (Value ρ)
  | .name v => env.value? m v
  | .word n => if n ≤ Word.maxUnsigned then pure (.int .unsignedLongLong n) else .stuck
  | .int n => do
    let t ← IntType.ofLiteral n.natAbs
    pure (.int t n)
  | .real constant => pure (.real (m.floating.constant constant))
  | .binary .either left right => do
    let x ← left.eval env
    if ← x.isTrue then pure (truth True)
    else do
      let y ← right.eval env
      pure (truth ((← y.isTrue) = true))
  | .binary op left right => do
    let x ← left.eval env
    let y ← right.eval env
    combine m.floating op x y
  | .paren e => e.eval env
  | .load array index => do loaded m array (← index.eval env)
  | .cast type e => do convert m.floating type (← e.eval env)
  | .call function argument => do
    match ← argument.eval env with
    | .real x => pure (.real (m.floating.call function x))
    | .int .. => .stuck
  | .callPair function first second => do
    match ← first.eval env, ← second.eval env with
    | .real x, .real y => pure (.real (m.floating.callPair function x y))
    | _, _ => .stuck

/-! ## Statements -/

/-- How a statement ends: the next one follows, the iteration is over, or the thread is. -/
inductive Flow where
  | next
  | skip
  | leave
  deriving DecidableEq, Repr

def put (env : Scope ρ) (x : Value ρ) : Expr → Traced (Access ρ) (Scope ρ)
  | .name v => env.set m v x
  | .load array index => do
    match ← index.eval m env, ← convert m.floating m.element x with
    | .int _ n, .real y =>
      if array = "out" ∧ 0 ≤ n ∧ n < m.count then .done env [.store n.toNat y] else .stuck
    | _, _ => .stuck
  | _ => .stuck

/-- Declares variables, each known to those behind it. -/
def define (type : CType) (env : Scope ρ) (definitions : List (String × Expr)) :
    Traced (Access ρ) (Scope ρ) :=
  definitions.foldlM (fun env d => do
    let x ← convert m.floating type (← d.2.eval m env)
    pure ((d.1, ⟨type, x⟩) :: env)) env

/-- How often a loop runs whose counter has the type `t`, if the counter gets to the bound. -/
def iterations (t : IntType) : Value ρ → Option Nat
  | .int u n => do
    let n ← (t.common u).bring n
    if n ≤ t.greatest then some n.toNat else none
  | .real _ => none

/-- One iteration behind others: the variables of its body are forgotten. -/
def iterate (body : Scope ρ → Traced (Access ρ) (Flow × Scope ρ)) (v : String)
    (counter : Variable ρ) (r : Flow × Scope ρ) : Traced (Access ρ) (Flow × Scope ρ) :=
  match r with
  | (.leave, env) => pure (.leave, env)
  | (_, env) => do
    let (flow, inner) ← body ((v, counter) :: env)
    pure (flow, inner.drop (inner.length - env.length))

def Stmt.exec : Stmt → Scope ρ → Traced (Access ρ) (Flow × Scope ρ)
  | .declare _ type definitions, env => do pure (.next, ← define m type env definitions)
  | .assign target value, env => do pure (.next, ← put m env (← value.eval m env) target)
  | .increase target value, env => do
    let old ← target.eval m env
    let x ← combine m.floating .add old (← value.eval m env)
    pure (.next, ← put m env x target)
  | .skipIf condition, env => do
    if ← (← condition.eval m env).isTrue then pure (.skip, env) else pure (.next, env)
  | .leaveIf condition, env => do
    if ← (← condition.eval m env).isTrue then pure (.leave, env) else pure (.next, env)
  | .loop type v bound _ body, env => do
    let t ← type.integer
    let count ← iterations t (← bound.eval m env)
    let (flow, env) ← (List.range count).foldlM
      (fun r (k : Nat) => iterate body.exec v ⟨type, .int t k⟩ r) (.next, env)
    pure (if flow = .leave then .leave else .next, env)
  | .sequence first second, env => do
    match ← first.exec env with
    | (.next, env) => second.exec env
    | r => pure r

/-! ## Threads -/

structure Grid where
  blocks : Nat
  width : Nat
  blocks_le : blocks ≤ IntType.unsigned.greatest
  width_le : width ≤ IntType.unsigned.greatest

namespace Grid

abbrev Thread (g : Grid) : Type := Fin g.blocks × Fin g.width

variable {g : Grid}

def Thread.number (t : g.Thread) : Nat := t.1 * g.width + t.2

def Thread.builtin (t : g.Thread) : String → Option Nat
  | "blockIdx.x" => some t.1
  | "blockDim.x" => some g.width
  | "threadIdx.x" => some t.2
  | _ => none

end Grid

namespace Source

/-- The machine that a thread of a kernel runs on, with room for `count` elements. -/
def machine (s : Source) (f : Floating ρ) (operands : List (List ρ)) (count : Nat) {g : Grid}
    (t : g.Thread) : Machine ρ where
  floating := f
  array v := (List.range s.inputs).findSome? fun k => if v = input k then operands[k]? else none
  element := .element s.element
  count := count
  builtin := t.builtin

def accesses (s : Source) (f : Floating ρ) (operands : List (List ρ)) (count : Nat) {g : Grid}
    (t : g.Thread) : Option (List (Access ρ)) :=
  (s.body.exec (s.machine f operands count t) []).map Prod.snd

end Source

/-! ## Texts -/

def BinOp.strength : BinOp → Nat
  | mul | div | mod => 4
  | add | sub => 3
  | less | atLeast => 2
  | either => 1

/-- How tightly the outermost part of an expression binds.  Constants may have a sign. -/
def Expr.strength : Expr → Nat
  | binary op _ _ => op.strength
  | int _ | real _ | cast _ _ => 5
  | _ => 6

/-- Whether every operand binds tightly enough to be read as the operand it is; operators of
one strength are read from the left. -/
def Expr.isGrouped : Expr → Bool
  | binary op left right =>
    op.strength ≤ left.strength && op.strength < right.strength && left.isGrouped && right.isGrouped
  | cast _ e => 5 ≤ e.strength && e.isGrouped
  | paren e | load _ e | call _ e => e.isGrouped
  | callPair _ first second => first.isGrouped && second.isGrouped
  | _ => true

def Stmt.isGrouped : Stmt → Bool
  | declare _ _ definitions => definitions.all fun d => d.2.isGrouped
  | assign target value | increase target value => target.isGrouped && value.isGrouped
  | skipIf condition | leaveIf condition => condition.isGrouped
  | loop _ _ bound _ body => bound.isGrouped && 2 < bound.strength && body.isGrouped
  | sequence first second => first.isGrouped && second.isGrouped

end Cuda
end TensorGraph
