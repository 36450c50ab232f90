/-
Records that a library leaves for whoever looks into what it did.
-/

namespace TensorGraph

inductive Level where
  | debug
  | warn
  | error
  deriving DecidableEq, Repr

def Level.text : Level → String
  | debug => "DEBUG"
  | warn => "WARN"
  | error => "ERROR"

structure Record where
  level : Level
  message : String
  deriving DecidableEq, Repr

def Record.text (r : Record) : String := r.level.text ++ " " ++ r.message

end TensorGraph
