import PluginShading.Failure
import PluginShading.Log
import PluginShading.Tools

/-!
What a run acts on. An `Act` takes a world to a result and a world; where it fails, the world is what
it had become by then, which is what "a failed run destroys nothing" is a statement about.
-/
namespace PluginShading

structure World where
  disk : Files.Disk := {}
  /-- What was reported so far. -/
  log : Log := []
  /-- The next random word. -/
  seed : UInt64 := 0
  /-- Where fresh directories of no particular place go. -/
  temporary : Path := ⟨"/tmp"⟩
  /-- The directories that are searched for programs. -/
  programs : List Path := []
  /-- The installer that the environment names, if it does. -/
  installer : Option Path := none
  /-- What programs printed, each time with the number of events before. -/
  printouts : List (Nat × List Char) := []
  /-- What programs complained about. -/
  complaints : List Char := []
  tools : Tools := {}

/-- The world after a program, given what it printed and complained about and the disk it left. -/
def World.printed (w : World) (output complaints : List Char) (disk : Files.Disk) : World :=
  { w with
    disk := disk
    printouts := w.printouts ++ [(w.log.length, output)]
    complaints := w.complaints ++ complaints }

abbrev Act := ExceptT Failure (StateM World)

namespace Act

def fail {α : Type} (f : Failure) : Act α := fun w => (.error f, w)

def report (severity : Severity) (message : String) : Act Unit :=
  fun w => (.ok (), {w with log := w.log ++ [⟨severity, message⟩]})

def reports (events : Log) : Act Unit := fun w => (.ok (), {w with log := w.log ++ events})

/-- The failure of `a` becomes part of a larger undertaking. -/
def within {α : Type} (note : Note) (a : Act α) : Act α := fun w =>
  match a w with
  | (.ok x, w) => (.ok x, w)
  | (.error f, w) => (.error (f.within note), w)

def ofExcept {ε α : Type} (toFailure : ε → Failure) : Except ε α → Act α
  | .ok x => pure x
  | .error e => fail (toFailure e)

def disk : Act Files.Disk := fun w => (.ok w.disk, w)

def tools : Act Tools := fun w => (.ok w.tools, w)

/-- A question to the disk. -/
def ask {α : Type} (note : Note) (question : Files.Disk → Except Files.IoError α) : Act α := fun w =>
  match question w.disk with
  | .ok x => (.ok x, w)
  | .error e => (.error (.io note e), w)

/-- A change of the disk, all or nothing. -/
def change (note : Note) (step : Files.Disk → Except Files.IoError Files.Disk) : Act Unit := fun w =>
  match step w.disk with
  | .ok disk => (.ok (), {w with disk := disk})
  | .error e => (.error (.io note e), w)

/-- The next random word; the one after it is made from it by a linear congruence. -/
def random : Act UInt64 := fun w =>
  (.ok w.seed, {w with seed := w.seed * 6364136223846793005 + 1442695040888963407})

end Act

end PluginShading
