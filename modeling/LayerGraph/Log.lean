/-!
# Log entries

What happens is recorded as values: a level, a message and named fields in the order
in which they are written.
-/

set_option autoImplicit false

namespace LayerGraph

inductive LogLevel where
  | debug
  | info
  | warn
  deriving DecidableEq, Repr

def LogLevel.name : LogLevel → String
  | .debug => "DEBUG"
  | .info => "INFO"
  | .warn => "WARN"

structure LogEntry where
  level : LogLevel
  message : String
  fields : List (String × String)
  deriving DecidableEq

abbrev Log := List LogEntry

def boolText (b : Bool) : String := if b then "true" else "false"

end LayerGraph
