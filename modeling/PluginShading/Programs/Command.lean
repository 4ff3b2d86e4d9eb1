import PluginShading.Files.Disk

/-!
Programs and what is known of them: where one is found, how it is called, and what is left of a run. What
a program does to the disk is not said here.
-/
namespace PluginShading.Programs

open Files (Bytes Disk IoError)

inductive Status
  | exited (code : Nat)
  /-- Ended by a signal, without a code. -/
  | killed
  deriving DecidableEq, Repr

def Status.succeeded (s : Status) : Bool := s = .exited 0

def Status.code? : Status → Option Nat
  | exited code => some code
  | killed => none

/-- What is left of a run. -/
structure Trace where
  status : Status
  disk : Disk
  output : List Char := []
  complaints : List Char := []
  deriving DecidableEq, Repr

structure Command where
  program : Path
  arguments : List String
  deriving DecidableEq, Repr

def Command.text (c : Command) : String := String.intercalate " " (c.program.text :: c.arguments)

/-- The file at a path, if it may be run. -/
def runnable (d : Disk) (p : Path) : Except IoError Bytes :=
  match d.stat p with
  | .error e => .error e
  | .ok (.file data) => if data.executable then .ok data.bytes else .error .permissionDenied
  | .ok _ => .error .permissionDenied

/-- The first program of a name in some directories that can be run. -/
def search (d : Disk) (name : String) (folders : List Path) : Option Path :=
  (folders.map fun folder => folder.join ⟨name⟩).find? fun p =>
    match runnable d p with
    | .ok _ => true
    | .error _ => false

end PluginShading.Programs
