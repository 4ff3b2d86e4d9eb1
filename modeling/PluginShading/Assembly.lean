import PluginShading.Files.Copy
import PluginShading.Files.Walk
import PluginShading.Shading.Pass

/-!
From source roots to a tree of single declarations: reading and splitting files, shading them, and
writing each declaration to a file of its own under the directory of its namespace.
-/
namespace PluginShading

open Source (File Declaration)

/-- Reads a file and splits it. -/
def loadSource (path : Path) : Act File := do
  Act.report .debug ("Parsing " ++ path.text)
  let source ← Files.loadText path
  match Source.split path source.toList with
  | .error e => Act.fail ⟨[], some (.split path e)⟩
  | .ok file =>
    Act.reports (file.declarations.map fun d =>
      ⟨.debug, "Parsed item " ++ String.ofList d.name ++ " on line " ++ toString d.line⟩)
    pure file

def loadRoot (root : Path) : Act (List File) := do
  (← Files.collectSources root).mapM loadSource

def loadRoots (roots : List Path) : Act (List File) := do
  pure (← roots.mapM loadRoot).flatten

/-- Applies the rules to the files as they lie on the disk. -/
def shadeSources (rules : List Shading.Rule) (files : List File) : Act (List File) := do
  let locate := (← Act.disk).canonical
  Act.reports (Shading.applyLog locate rules files)
  Act.ofExcept (fun e => ⟨[.retokenize e.path], some (.lex e.cause)⟩)
    (Shading.applyRules locate rules files)

/-! ### Writing -/

def overlapWarning (f : File) (d : Declaration) : Event :=
  ⟨.warning, f.path.text ++ ": " ++ String.ofList d.name ++ " starts on line " ++ toString d.line ++
    " but the header already spans " ++ toString f.headerLines ++ " lines"⟩

/-- The text of a declaration's own file, with a warning where its line cannot be kept. -/
def renderDeclaration (f : File) (d : Declaration) : Act String := do
  if (f.padding d).isNone then Act.reports [overlapWarning f d]
  pure (String.ofList (f.render d))

def repeatWarning (f : File) (d : Declaration) : Event :=
  ⟨.warning, String.ofList f.space ++ "\\" ++ String.ofList d.name ++
    " is declared more than once, " ++ f.path.text ++ " overwrites it"⟩

/-- Where a declaration is written. -/
def declarationPath (sourceRoot : Path) (f : File) (d : Declaration) : Path :=
  (sourceRoot.join f.directory).join ⟨String.ofList d.name ++ ".php"⟩

/-- Writes one declaration; `written` are the paths written before. -/
def writeDeclaration (sourceRoot : Path) (f : File) (written : List Path) (d : Declaration) :
    Act (List Path) := do
  let path := declarationPath sourceRoot f d
  let again := written.any path.same
  if again then Act.reports [repeatWarning f d]
  let text ← renderDeclaration f d
  Files.storeText path text
  pure (if again then written else path :: written)

def writeFile (sourceRoot : Path) (written : List Path) (f : File) : Act (List Path) := do
  Files.ensureDirectory (sourceRoot.join f.directory)
  f.declarations.foldlM (writeDeclaration sourceRoot f) written

/-- Writes every declaration below the source root. The result is the number of files written; a
declaration that comes again replaces the one before and does not count. -/
def assemble (sourceRoot : Path) (files : List File) : Act Nat := do
  pure (← files.foldlM (writeFile sourceRoot) []).length

end PluginShading
