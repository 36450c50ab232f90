/-
A small part of CUDA C: the expressions and statements that kernels are made of.

Sources are built as trees and written out by `Expr.text` and `Stmt.lines`.
Parentheses are part of a tree, so the text of a tree is fixed by the tree alone
and its meaning can be read off without a table of precedences.
-/
import TensorGraph.Text.Listing

namespace TensorGraph
namespace Cuda

inductive CType where
  | unsignedWord
  | signedWord
  | double
  | element (name : String)
  deriving DecidableEq, Repr

def CType.text : CType → String
  | unsignedWord => "unsigned long long"
  | signedWord => "long long"
  | double => "double"
  | element name => name

inductive BinOp where
  | add
  | sub
  | mul
  | div
  | mod
  | less
  | atLeast
  | either
  deriving DecidableEq, Repr

def BinOp.text : BinOp → String
  | add => "+"
  | sub => "-"
  | mul => "*"
  | div => "/"
  | mod => "%"
  | less => "<"
  | atLeast => ">="
  | either => "||"

/-- Expressions.  A `word` is an unsigned literal, an `int` a plain one and a
`real` a floating constant, given by its text. -/
inductive Expr where
  | name (v : String)
  | word (n : Nat)
  | int (n : Int)
  | real (constant : String)
  | binary (op : BinOp) (left right : Expr)
  | paren (e : Expr)
  | load (array : String) (index : Expr)
  | cast (type : CType) (e : Expr)
  | call (function : String) (argument : Expr)
  | callPair (function : String) (first second : Expr)
  deriving DecidableEq, Repr

namespace Expr

def text : Expr → String
  | name v => v
  | word n => toString n ++ "ull"
  | int n => toString n
  | real constant => constant
  | binary op left right => left.text ++ " " ++ op.text ++ " " ++ right.text
  | paren e => "(" ++ e.text ++ ")"
  | load array index => array ++ "[" ++ index.text ++ "]"
  | cast type e => "(" ++ type.text ++ ")" ++ e.text
  | call function argument => function ++ "(" ++ argument.text ++ ")"
  | callPair function first second => function ++ "(" ++ first.text ++ ", " ++ second.text ++ ")"

instance : Add Expr := ⟨binary .add⟩

instance : Sub Expr := ⟨binary .sub⟩

instance : Mul Expr := ⟨binary .mul⟩

instance : Div Expr := ⟨binary .div⟩

instance : Mod Expr := ⟨binary .mod⟩

end Expr

/-- Where the body of a loop is written: behind its head, below it, or in braces. -/
inductive Placement where
  | behind
  | below
  | braced
  deriving DecidableEq, Repr

/-- Statements.  A loop counts its variable up from 0 to a bound. -/
inductive Stmt where
  | declare (constant : Bool) (type : CType) (definitions : List (String × Expr))
  | assign (target value : Expr)
  | increase (target value : Expr)
  | skipIf (condition : Expr)
  | leaveIf (condition : Expr)
  | loop (type : CType) (counter : String) (bound : Expr) (place : Placement) (body : Stmt)
  | sequence (first second : Stmt)
  deriving Repr

namespace Stmt

def loopHead (type : CType) (v : String) (bound : Expr) : String :=
  s!"for ({type.text} {v} = 0; {v} < {bound.text}; ++{v})"

def joinFirst (head : String) : List String → List String
  | [] => [head]
  | line :: rest => (head ++ " " ++ line) :: rest

def indented (width : Nat) (lines : List String) : List String :=
  lines.map fun line => String.ofList (List.replicate width ' ') ++ line

def lines : Stmt → List String
  | declare constant type definitions =>
    let each := definitions.map fun (v, e) => v ++ " = " ++ e.text
    [(if constant then "const " else "") ++ type.text ++ " " ++ Text.listed each ++ ";"]
  | assign target value => [target.text ++ " = " ++ value.text ++ ";"]
  | increase target value => [target.text ++ " += " ++ value.text ++ ";"]
  | skipIf condition => ["if (" ++ condition.text ++ ") continue;"]
  | leaveIf condition => ["if (" ++ condition.text ++ ") return;"]
  | loop type v bound .behind body => joinFirst (loopHead type v bound) body.lines
  | loop type v bound .below body => loopHead type v bound :: body.lines
  | loop type v bound .braced body =>
    (loopHead type v bound ++ " \x7b") :: indented 2 body.lines ++ ["\x7d"]
  | sequence first second => first.lines ++ second.lines

def inOrder (first : Stmt) : List Stmt → Stmt
  | [] => first
  | s :: rest => sequence first (inOrder s rest)

theorem lines_sequence (first second : Stmt) :
    (sequence first second).lines = first.lines ++ second.lines := rfl

end Stmt

/-- A kernel with one thread for each element of its output. -/
structure Source where
  element : String
  inputs : Nat
  body : Stmt
  deriving Repr

namespace Source

def entry : String := "rtg_kernel"

def input (k : Nat) : String := s!"in{k}"

def parameters (s : Source) : String :=
  Text.listed ((s.element ++ "* out") ::
    (List.range s.inputs).map fun k => "const " ++ s.element ++ "* " ++ input k)

def text (s : Source) : String :=
  "extern \"C\" __global__ void " ++ entry ++ "(" ++ s.parameters ++ ") \x7b\n"
    ++ Text.joined "\n" (Stmt.indented 2 s.body.lines) ++ "\n\x7d\n"

end Source

end Cuda
end TensorGraph
