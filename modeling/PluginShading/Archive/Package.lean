import PluginShading.Archive.Phar
import PluginShading.Archive.Tar
import PluginShading.Files.Copy
import PluginShading.Files.Temporary
import PluginShading.Files.Walk

/-!
Packaging a directory into one file. The archive is written beside its destination and moved there once
it is complete.
-/
namespace PluginShading.Archive

open Files (Bytes Disk Place IoError)

inductive Format
  | phar
  | tarball
  deriving DecidableEq, Repr

namespace Format

/-- How the file names of tarballs end. -/
def tarballEnds : List (List Char) := [['.', 't', 'a', 'r', '.', 'g', 'z'], ['.', 't', 'g', 'z']]

/-- A file name that ends in `.tar.gz` or `.tgz`, in either case, is a tarball's, any other a phar's. -/
def ofPath (p : Path) : Format :=
  let name := (p.fileName.getD "").toList.map Char.toLower
  if tarballEnds.any (·.isSuffixOf name) then tarball else phar

def text : Format → String
  | phar => "Phar"
  | tarball => "TarGz"

end Format

/-- A file to store. -/
structure Entry where
  /-- Its path inside the archive, with `/` between the names. -/
  name : String
  path : Path
  deriving DecidableEq, Repr

/-- The file at a path as an entry of an archive of a directory. -/
def Entry.at (directory p : Path) : Entry :=
  ⟨String.intercalate "/" ((p.relativeTo directory).components.map Component.text), p⟩

/-- The regular files below a directory, in the order of their names. -/
def collect (directory : Path) : Act (List Entry) := fun w =>
  match w.disk.regularFiles directory with
  | .error (p, e) => (.error ⟨[.walk directory], some (.walk p e)⟩, w)
  | .ok files => (.ok (files.map fun names => Entry.at directory (Files.below directory names)), w)

/-! ### Contents -/

def excess (e : Phar.Excess) : Failure := ⟨[.entryTooLarge e.subject], some .outOfRange⟩

def pharMember (e : Entry) : Act Phar.Member := do
  let data ← Act.ask (.readEntry e.path) (·.read e.path)
  let m : Phar.Member := ⟨e.name, data.bytes, data.modified⟩
  if m.fits then pure m else Act.fail (excess (.member e.name))

def pharOf (entries : List Entry) : Act Bytes := do
  if Phar.fits entries.length = false then Act.fail (excess .count)
  Act.ofExcept excess (Phar.encode (← entries.mapM pharMember))

/-- A file or directory as a member of a tarball, links followed. -/
def tarMember (d : Disk) (e : Entry) : Except IoError Bytes :=
  match d.stat e.path with
  | .error cause => .error (.about cause (" when getting metadata for " ++ e.path.text))
  | .ok (.file data) => Tar.Member.encode ⟨e.name, data.bytes, data.executable, false⟩
  | .ok _ => Tar.Member.encode ⟨e.name, [], false, true⟩

def tarballOf (entries : List Entry) : Act Bytes := do
  let parts ← entries.mapM fun e => Act.ask (.addEntry e.path) fun d => tarMember d e
  let tools ← Act.tools
  pure (tools.gzip.compress (parts.flatten ++ Tar.ending))

def contentOf : Format → List Entry → Act Bytes
  | .phar, entries => pharOf entries
  | .tarball, entries => tarballOf entries

/-! ### Packaging -/

/-- The directory that holds what is at a path. -/
def folderOf (p : Path) : Path :=
  match p.parent with
  | some parent => if parent.text = "" then ⟨"."⟩ else parent
  | none => ⟨"."⟩

/-- Packages a directory into the file at `target`, replacing what is there. The old file goes before
the new one is begun. -/
def package (directory target : Path) : Act Unit := do
  let format := Format.ofPath target
  let entries ← collect directory
  Act.report .debug ("packaging " ++ toString entries.length ++ " files as " ++ format.text)
  Files.removeFile target
  let folder := folderOf target
  Files.ensureDirectory folder
  let fresh ← Files.freshFile (.createTemporaryIn folder) folder
  Files.orElseClean (do
      let bytes ← contentOf format entries
      Act.change (.moveArchive target) fun d => (d.write fresh bytes false).bind (·.rename fresh target))
    (Disk.withoutFile fresh)

end PluginShading.Archive
