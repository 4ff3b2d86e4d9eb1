import PluginShading.Command.Arguments
import PluginShading.Descriptor

/-!
From a command line to the options of a build. A plugin directory brings its descriptor, its resources
and, where no project is given, its sources; an archive goes beside the output directory where no path
is given for it.
-/
namespace PluginShading.Command

open Build (Input Options)

/-- Command lines that are well formed and ask for nothing that can be done. -/
inductive UsageError
  | projectWithoutInput
  | nothingToPackage
  deriving DecidableEq, Repr

def UsageError.message : UsageError → String
  | projectWithoutInput => "`-c` needs a path when `-i` is not given"
  | nothingToPackage => "nothing to package: pass -i, -f, -s or -c"

/-- The archive that is written where no output is asked for. -/
def defaultArchive : Path := ⟨"output.phar"⟩

/-- The path without separators at its end, unless it is nothing else. -/
def trimPath (p : Path) : Path :=
  let trimmed := Build.trimSeparators p.chars
  if trimmed = [] then p else ⟨String.ofList trimmed⟩

namespace Invocation

/-- The project; it defaults to the plugin directory. -/
def projectPath (i : Invocation) : Except UsageError (Option Path) :=
  match i.project, i.inputDirectory.map trimPath with
  | none, _ => .ok none
  | some (some path), _ => .ok (some path)
  | some none, some directory => .ok (some directory)
  | some none, none => .error .projectWithoutInput

def archivePath (i : Invocation) : Option Path :=
  match i.output.map trimPath, i.archive with
  | _, some (some path) => some path
  | none, _ => some defaultArchive
  | some directory, some none => some ⟨directory.text ++ ".phar"⟩
  | some _, none => none

/-- What a plugin directory brings along. -/
def directoryInputs (d : Files.Disk) (directory : Path) : List Input :=
  let resources := directory.join ⟨"resources"⟩
  (if d.isDirectory resources then [⟨"resources", resources⟩] else []) ++
    [⟨Descriptor.fileName, directory.join ⟨Descriptor.fileName⟩⟩]

def options (d : Files.Disk) (i : Invocation) : Except UsageError Options := do
  let directory := i.inputDirectory.map trimPath
  let project ← i.projectPath
  let inputs := (directory.elim [] (directoryInputs d)) ++ i.files
  let ownSources := if project = none then
      directory.toList.map fun p => p.join ⟨Build.defaultSourceRoot⟩
    else []
  let sourceRoots := ownSources ++ i.sourceRoots
  if inputs = [] ∧ sourceRoots = [] ∧ project = none then .error .nothingToPackage
  else .ok {
    inputs := inputs
    sourceRoots := sourceRoots
    sourceRootName := i.sourceRootName
    outputDirectory := i.output.map trimPath
    archive := i.archivePath
    shadedRoots := i.shade
    project := project
    install := !i.noInstall
    installer := i.installer
    descriptor := directory.map fun p => p.join ⟨Descriptor.fileName⟩ }

end Invocation

end PluginShading.Command
