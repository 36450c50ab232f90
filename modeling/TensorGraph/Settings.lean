/-
Settings read from environment variables.

A variable that is unset, or whose text does not read as the value wanted, leaves
the default.  Texts may have blanks around them.
-/
import TensorGraph.Text.Blank
import TensorGraph.Text.Uppercase
import TensorGraph.Word

namespace TensorGraph

abbrev Environment := List (String × String)

namespace Environment

def asciiLower (c : Char) : Char := if 'A' ≤ c ∧ c ≤ 'Z' then Char.ofNat (c.toNat + 32) else c

/-- The truth value of a text, in any case of ASCII letters.  A blank text is
false. -/
def readBool (text : String) : Option Bool :=
  let word := String.ofList ((Text.trimmed text.toList).map asciiLower)
  if word ∈ ["1", "true", "yes", "on"] then some true
  else if word ∈ ["0", "false", "no", "off", ""] then some false
  else none

def digitsValue (cs : List Char) : Option Nat :=
  if cs.isEmpty ∨ cs.any (fun c => c < '0' || c > '9') then none
  else some (cs.foldl (fun n c => 10 * n + (c.toNat - '0'.toNat)) 0)

def readWord (text : String) : Option Nat := do
  let n ← match Text.trimmed text.toList with
    | '+' :: digits => digitsValue digits
    | digits => digitsValue digits
  Word.fit n

def get (env : Environment) (read : String → Option α) (name : String) (default : α) : α :=
  ((env.lookup (Text.uppercase name)).bind read).getD default

end Environment

/-- What the environment decides: whether evaluated instructions are logged,
whether programs are logged after each pass, and whether results are copied back
to the host unless a target says otherwise. -/
structure Settings where
  traceEval : Bool := false
  traceCompile : Bool := false
  offloadCopy : Bool := true
  deriving DecidableEq, Repr

namespace Settings

def ofEnvironment (env : Environment) : Settings :=
  let default : Settings := {}
  { traceEval := env.get Environment.readBool "RTG_TRACE_EVAL" default.traceEval
    traceCompile := env.get Environment.readBool "RTG_TRACE_COMPILE" default.traceCompile
    offloadCopy := env.get Environment.readBool "RTG_OFFLOAD_COPY" default.offloadCopy }

end Settings

end TensorGraph
