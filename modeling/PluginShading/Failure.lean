import PluginShading.Manifest.Error
import PluginShading.Source.Split

/-!
Why a run fails: what was being done, from the outermost undertaking inwards, and the error below it
all. Some failures are complete with what was being done and have no error below.
-/
namespace PluginShading

/-- The error at the bottom of a failure. -/
inductive Cause
  | io (cause : Files.IoError)
  /-- What lies at the path could not be walked. -/
  | walk (path : Path) (cause : Files.IoError)
  /-- A descriptor is not valid YAML. -/
  | yaml
  | lex (cause : Source.LexError)
  | split (path : Path) (cause : Source.SplitError)
  | shading (cause : Shading.ShadingError)
  | manifest (cause : ManifestError)
  /-- A number does not fit the field it is written to. -/
  | outOfRange
  deriving DecidableEq, Repr

/-- What the cause says, and then what lies below it. -/
def Cause.messages : Cause → List String
  | io cause => [cause.message]
  | walk path cause => ["IO error for operation on " ++ path.text ++ ": " ++ cause.message,
      cause.message]
  | yaml => ["invalid YAML"]
  | lex cause => [cause.message]
  | split path (.lex cause) => [Source.SplitError.message path (.lex cause), cause.message]
  | split path cause => [cause.message path]
  | shading cause => [cause.message]
  | manifest (.read path cause) => [ManifestError.message (.read path cause), cause.message]
  | manifest (.invalidNamespace path cause) =>
    [ManifestError.message (.invalidNamespace path cause), cause.message]
  | manifest cause => [cause.message]
  | outOfRange => ["out of range integral type conversion attempted"]

/-- What was being done, or what is wrong. -/
inductive Note
  | createDirectory (path : Path)
  | readDirectory (path : Path)
  | refuseLink (path : Path)
  | statInput (path : Path)
  | unsupportedInput (path : Path)
  | copyFile (source target : Path)
  | removeDirectory (path : Path)
  | removeFile (path : Path)
  | readFile (path : Path)
  | writeFile (path : Path)
  | missingSourceRoot (path : Path)
  | walkSourceRoot (path : Path)
  | walk (path : Path)
  | retokenize (path : Path)
  | readDescriptor (path : Path)
  | parseDescriptor (path : Path)
  | composerMissing
  | execute (program : Path)
  | failedCommand (command : String) (status : Option Nat)
  | installDependencies (path : Path)
  | noOutput
  | shade (space : String)
  | resolveDependencies (path : Path)
  | createStagingIn (path : Path)
  | createStaging
  | copyInput (name : String)
  | moveOutput (path : Path)
  | createTemporaryIn (path : Path)
  | moveArchive (path : Path)
  | readEntry (path : Path)
  | addEntry (path : Path)
  | entryTooLarge (name : String)
  deriving DecidableEq, Repr

def Note.message : Note → String
  | createDirectory path => "failed to create directory: " ++ path.text
  | readDirectory path => "failed to read directory: " ++ path.text
  | refuseLink path => "refusing to copy symbolic link: " ++ path.text
  | statInput path => "failed to stat input: " ++ path.text
  | unsupportedInput path => "input " ++ path.text ++ " is neither a regular file nor a directory"
  | copyFile source target => "failed to copy " ++ source.text ++ " to " ++ target.text
  | removeDirectory path => "failed to remove directory: " ++ path.text
  | removeFile path => "failed to remove file: " ++ path.text
  | readFile path => "failed to read file: " ++ path.text
  | writeFile path => "failed to write file: " ++ path.text
  | missingSourceRoot path => "source root does not exist: " ++ path.text
  | walkSourceRoot path => "failed to walk source root: " ++ path.text
  | walk path => "failed to walk " ++ path.text
  | retokenize path => "failed to re-tokenize " ++ path.text
  | readDescriptor path => "failed to read plugin descriptor: " ++ path.text
  | parseDescriptor path => "failed to parse plugin descriptor: " ++ path.text
  | composerMissing =>
    "composer was not found in PATH\nhint: pass --composer <PATH>, set SHADEPACK_COMPOSER, or use " ++
      "--no-install"
  | execute program => "failed to execute `" ++ program.text ++ "`"
  | failedCommand command status =>
    "`" ++ command ++ "` failed with exit code " ++
      match status with
      | some code => "Some(" ++ toString code ++ ")"
      | none => "None"
  | installDependencies path => "failed to install dependencies in " ++ path.text
  | noOutput => "no output selected: pass an output directory, an archive path, or both"
  | shade space => "cannot shade `" ++ space ++ "`"
  | resolveDependencies path => "failed to resolve dependencies of " ++ path.text
  | createStagingIn path => "failed to create staging directory in " ++ path.text
  | createStaging => "failed to create staging directory"
  | copyInput name => "failed to copy input `" ++ name ++ "`"
  | moveOutput path => "failed to move output into place: " ++ path.text
  | createTemporaryIn path => "failed to create temporary file in " ++ path.text
  | moveArchive path => "failed to move archive into place: " ++ path.text
  | readEntry path => "failed to read " ++ path.text
  | addEntry path => "failed to add " ++ path.text ++ " to tarball"
  | entryTooLarge name => name ++ " is too large for a phar archive"

structure Failure where
  notes : List Note
  cause : Option Cause := none
  deriving DecidableEq, Repr

namespace Failure

/-- From the outermost undertaking inwards. -/
def messages (f : Failure) : List String :=
  f.notes.map Note.message ++
    match f.cause with
    | none => []
    | some cause => cause.messages

/-- The failure as part of a larger undertaking. -/
def within (note : Note) (f : Failure) : Failure := {f with notes := note :: f.notes}

def io (note : Note) (cause : Files.IoError) : Failure := ⟨[note], some (.io cause)⟩

def because (note : Note) : Failure := ⟨[note], none⟩

end Failure

end PluginShading
