import PluginShading.Archive.Package
import PluginShading.Assembly
import PluginShading.Build.Basic
import PluginShading.Descriptor
import PluginShading.Install
import PluginShading.Resolution.Walk

/-!
A whole build: find the libraries, read and split the sources, shade them, write the declarations, and
put the result in place. Everything is written to a staging directory beside the output; only when it is
complete does it take the place of what was there. The staging directory is gone in the end, whatever
the outcome.
-/
namespace PluginShading.Build

open Shading (Rule Target)

/-- The name that the log gives a plugin without one. -/
def unnamed : List Char := ['<', 'u', 'n', 'n', 'a', 'm', 'e', 'd', '>']

/-- The namespace of the plugin's main class, where its descriptor says so. -/
def mainSpace (o : Options) : Act (Option (List Char)) := do
  match o.descriptor with
  | none => pure none
  | some path =>
    if (← Act.disk).isFile path then
      let d ← Descriptor.load path
      Act.report .debug ("placing libraries under the main namespace of plugin " ++
        String.ofList (d.name.getD unnamed))
      pure d.mainSpace
    else pure none

/-- A target that no other build has. -/
def chooseTarget (o : Options) : Act Target := do
  let parent ← mainSpace o
  pure (Target.generate parent (← Act.random))

def ruleFor (target : Target) (root : String) : Act Rule :=
  Act.within (.shade root) (Act.ofExcept (fun e => ⟨[], some (.shading e)⟩)
    (Rule.ofRoot root.toList target))

/-- The source roots and rules of a project's libraries, which are installed first where that is
asked for. -/
def libraries (o : Options) (target : Target) (project : Path) : Act Resolution.Found := do
  if o.install then
    Install.install (← Install.locate o.installer) project
  let (found, log) := Resolution.resolve (← Act.disk) project target
  Act.reports log
  Act.ofExcept (fun e => ⟨[.resolveDependencies project], some (.manifest e)⟩) found

/-! ### Staging -/

def stagingName : String := ".shadepack-"

/-- A fresh directory beside the output, or in no particular place where no output is kept. -/
def stage (output : Option Path) : Act Path := do
  match output with
  | none => fun w => Files.freshDirectory .createStaging w.temporary stagingName w
  | some directory =>
    match directory.parent with
    | none | some ⟨""⟩ => Files.freshDirectory .createStaging ⟨"."⟩ stagingName
    | some parent =>
      Files.ensureDirectory parent
      Files.freshDirectory (.createStagingIn parent) parent stagingName

def copyInput (staged : Path) (input : Input) : Act Unit :=
  Act.within (.copyInput input.name) (Files.copy input.path (staged.join ⟨input.name⟩))

/-- What was written, in numbers. -/
structure Tally where
  parsed : Nat
  kept : Nat
  written : Nat
  deriving DecidableEq, Repr

/-- Fills the staging directory. -/
def fill (o : Options) (roots : List Path) (rules : List Rule) (staged : Path) : Act Tally := do
  o.inputs.forM (copyInput staged)
  let sourceRoot := staged.join ⟨o.sourceRootName⟩
  Files.ensureDirectory sourceRoot
  let files ← loadRoots roots
  let kept ← shadeSources rules files
  let written ← assemble sourceRoot kept
  pure ⟨files.length, kept.length, written⟩

/-- Puts the staged tree in the place of the output directory; where none is kept it stays staged. The
result is where the tree is. -/
def publish (o : Options) (staged : Path) : Act Path := do
  match o.outputDirectory with
  | none => pure staged
  | some directory =>
    Files.removeDirectory directory
    Act.change (.moveOutput directory) (·.rename staged directory)
    Act.report .info ("Output directory created at " ++ directory.text)
    pure directory

def packageOutput (o : Options) (built : Path) : Act Unit := do
  match o.archive with
  | none => pure ()
  | some archive =>
    Archive.package built archive
    Act.report .info ("Generated archive at " ++ archive.text)

/-- Does something with the staging directory, which is removed afterwards if it is still there. -/
def withStaging {α : Type} (staged : Path) (a : Act α) : Act α := fun w =>
  match a w with
  | (outcome, w) => (outcome, {w with disk := w.disk.withoutDirectory staged})

/-- Runs a build. -/
def run (o : Options) : Act Report := do
  if o.outputDirectory = none ∧ o.archive = none then Act.fail (.because .noOutput)
  let target ← chooseTarget o
  Act.report .debug ("target prefix is " ++ String.ofList target.text)
  let given ← o.shadedRoots.mapM (ruleFor target)
  let found ← match o.project with
    | none => pure {}
    | some project => libraries o target project
  let rules := given ++ found.rules
  let staged ← stage o.outputDirectory
  withStaging staged do
    let tally ← fill o (o.sourceRoots ++ found.sourceRoots) rules staged
    let built ← publish o staged
    packageOutput o built
    pure {
      target := target
      filesParsed := tally.parsed
      declarationsWritten := tally.written
      filesDropped := tally.parsed - tally.kept
      rulesApplied := rules.length
      outputDirectory := o.outputDirectory
      archive := o.archive }

end PluginShading.Build
