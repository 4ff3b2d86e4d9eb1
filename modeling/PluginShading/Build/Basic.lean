import PluginShading.Path
import PluginShading.Shading.Namespace

/-!
What a build is asked to do and what it reports. An input is written `NAME:PATH`, or as a bare path that
goes by the name of its last component. A colon in front of a backslash belongs to a drive letter.
-/
namespace PluginShading.Build

/-- A file or directory that is copied into the output as it is. -/
structure Input where
  /-- Where it goes, from the root of the output. -/
  name : String
  path : Path
  deriving DecidableEq, Repr

inductive InputError
  | empty
  | badForm (text : String)
  deriving DecidableEq, Repr

def InputError.message : InputError → String
  | empty => "input path is empty"
  | badForm text => "`" ++ text ++ "` is not of the form NAME:PATH"

/-- The text without `/` and `\` at its end. -/
def trimSeparators (text : List Char) : List Char :=
  (text.reverse.dropWhile fun c => c == '/' || c == '\\').reverse

/-- Both sides of the first colon that no backslash follows. -/
def splitName : List Char → Option (List Char × List Char)
  | [] => none
  | c :: rest =>
    if c = ':' ∧ rest.head? ≠ some '\\' then some ([], rest)
    else (splitName rest).map fun r => (c :: r.1, r.2)

def Input.parse (argument : String) : Except InputError Input :=
  let text := trimSeparators argument.toList
  if text = [] then .error .empty
  else
    let path := String.ofList text
    let input : Input := match splitName text with
      | some (name, path) => ⟨String.ofList name, ⟨String.ofList path⟩⟩
      | none => ⟨(Path.fileName ⟨path⟩).getD path, ⟨path⟩⟩
    if input.name = "" ∨ input.path.text = "" then .error (.badForm path) else .ok input

/-- The name of the source root in the output, where none is given. -/
def defaultSourceRoot : String := "src"

structure Options where
  inputs : List Input := []
  /-- Directories or files whose declarations are shaded. -/
  sourceRoots : List Path := []
  /-- The source root in the output. -/
  sourceRootName : String := defaultSourceRoot
  /-- Where the output tree is kept. -/
  outputDirectory : Option Path := none
  /-- The file that the output tree is packaged into. -/
  archive : Option Path := none
  /-- Roots to shade besides those of the libraries found. -/
  shadedRoots : List String := []
  /-- A project that brings source roots and libraries. -/
  project : Option Path := none
  /-- Install the libraries of the project first. -/
  install : Bool := true
  /-- The program that installs; looked for where none is given. -/
  installer : Option Path := none
  /-- The descriptor whose main class says where the libraries go. -/
  descriptor : Option Path := none
  deriving DecidableEq, Repr

structure Report where
  target : Shading.Target
  filesParsed : Nat
  declarationsWritten : Nat
  /-- Files that lie in a library and do not belong to it. -/
  filesDropped : Nat
  rulesApplied : Nat
  outputDirectory : Option Path
  archive : Option Path
  deriving DecidableEq, Repr

end PluginShading.Build
