/-!
What a run reports while it works. Events are values, in the order in which they arise; who prints
them, and which of them, is decided outside.
-/
namespace PluginShading

inductive Severity
  | debug
  | info
  | warning
  deriving DecidableEq, Repr

def Severity.label : Severity → String
  | debug => "DEBUG"
  | info => "INFO"
  | warning => "WARN"

structure Event where
  severity : Severity
  message : String
  deriving DecidableEq, Repr

abbrev Log := List Event

end PluginShading
