import PluginShading.World

/-!
Installing the libraries of a project with Composer, before they are looked for. Platform requirements
are not checked; a status other than success ends the build.
-/
namespace PluginShading.Install

open Programs (Command)

def programNames : List String := ["composer", "composer.phar"]

/-- The installer: the one given, or the first found among the programs. -/
def locate (given : Option Path) : Act Path := fun w =>
  match given with
  | some p => (.ok p, w)
  | none =>
    match programNames.findSome? fun name => Programs.search w.disk name w.programs with
    | some p => (.ok p, w)
    | none => (.error (.because .composerMissing), w)

def command (installer : Path) : Command :=
  ⟨installer, ["install", "--ignore-platform-reqs", "--no-interaction"]⟩

/-- Runs a command and requires success. -/
def succeed (c : Command) (project : Path) : Act Unit := fun w =>
  match w.tools.execute c project w.programs w.disk with
  | .error e => (.error (.io (.execute c.program) e), w)
  | .ok t =>
    let w := w.printed t.output t.complaints t.disk
    if t.status.succeeded then (.ok (), w)
    else (.error (.because (.failedCommand c.text t.status.code?)), w)

/-- Installs the libraries of the project in a directory. -/
def install (installer project : Path) : Act Unit := do
  let c := command installer
  Act.report .info ("Running " ++ c.text ++ " in " ++ project.text)
  Act.within (.installDependencies project) (succeed c project)

end PluginShading.Install
