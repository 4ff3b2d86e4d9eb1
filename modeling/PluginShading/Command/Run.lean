import PluginShading.Build.Run
import PluginShading.Command.Options
import PluginShading.Command.Text

/-!
The whole command: from its arguments to what it prints, its exit status and what it leaves on the disk.
Events are printed one a line; those for debugging only where more was asked for.
-/
namespace PluginShading.Command

open Build (Report)

structure Outcome where
  exit : Nat
  /-- What goes to the standard output. -/
  output : String := ""
  /-- What goes to the standard error. -/
  errors : String := ""
  deriving DecidableEq, Repr

/-- The severity in five columns, and the message. -/
def eventLine (e : Event) : String :=
  "".pushn ' ' (5 - e.severity.label.length) ++ e.severity.label ++ " " ++ e.message ++ "\n"

/-- The line of an event; nothing for one that is left out. -/
def eventText (verbose : Bool) (e : Event) : String :=
  if verbose || e.severity ≠ .debug then eventLine e else ""

/-- The lines of the events, and what programs printed between them. -/
def printed (verbose : Bool) (w : World) : String :=
  String.join ((List.range (w.log.length + 1)).map fun n =>
    String.join ((w.printouts.filter (·.1 = n)).map fun p => String.ofList p.2) ++
      (w.log[n]?.map (eventText verbose)).getD "")

def complained (w : World) : String := String.ofList w.complaints

def summary (r : Report) : String :=
  "Packaged " ++ toString r.declarationsWritten ++ " declarations from " ++ toString r.filesParsed ++
    " files (" ++ toString r.filesDropped ++ " dropped, " ++ toString r.rulesApplied ++
    " shading rules, prefix " ++ String.ofList r.target.text ++ ")"

/-- An error line; what was being done stands in front of what went wrong. -/
def errorLine (messages : List String) : String :=
  "error: " ++ String.intercalate ": " messages ++ "\n"

def stopped : Stop → Outcome
  | .help => ⟨0, helpText, ""⟩
  | .version => ⟨0, versionText, ""⟩
  | .refused e => ⟨1, "", e.message⟩

/-- Does what an invocation asks for. The installer of the environment counts where none is given. -/
def perform (i : Invocation) (w : World) : Outcome × World :=
  match i.options w.disk with
  | .error e => (⟨1, "", errorLine [e.message ++ "\n\n" ++ usage []]⟩, w)
  | .ok o =>
    match Build.run {o with installer := o.installer <|> w.installer} w with
    | (.ok report, w) =>
      (⟨0, printed i.verbose w ++ eventLine ⟨.info, summary report⟩, complained w⟩, w)
    | (.error f, w) => (⟨1, printed i.verbose w, complained w ++ errorLine f.messages⟩, w)

def run (arguments : List String) (w : World) : Outcome × World :=
  match Invocation.ofArguments arguments with
  | .error stop => (stopped stop, w)
  | .ok i => perform i w

end PluginShading.Command
