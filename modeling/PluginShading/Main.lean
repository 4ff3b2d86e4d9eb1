import PluginShading.Command.Run

/-!
The program. What lies below the working directory and below each path that an argument names is taken
into a world, the command acts on that world, and what it changed there is carried out on the real files.
A file that begins like a script or like machine code counts as one that may be run.
-/
namespace PluginShading.Main

open Files (Bytes Entry Place Tree)

/-- The names from the root to an absolute path. -/
def placeOf (path : String) : Place := (path.splitOn "/").filter (· ≠ "")

def pathTo (place : Place) : String := (Files.Disk.pathOf place).text

/-! ### Taking files in -/

/-- The directories on the way to a place. -/
def takeParents (t : Tree) (place : Place) : Tree :=
  (List.range place.length).foldl (fun t n =>
    if (t.get? (place.take n)).isSome then t else t.set (place.take n) .directory) t

/-- How scripts and files of machine code begin. -/
def programMarks : List Bytes := [[0x23, 0x21], [0x7f, 0x45, 0x4c, 0x46]]

def takeFile (path : String) : IO Entry := do
  let bytes := (← IO.FS.readBinFile path).data.toList
  let modified := (← (← IO.FS.realPath path).metadata).modified.sec
  pure (.file ⟨bytes, modified, programMarks.any (·.isPrefixOf bytes)⟩)

/-- Where a place is reached through links, one link from it to the real path stands for them all. -/
def takeDetour (t : Tree) (place : Place) (real : String) : Tree :=
  if place = placeOf real ∨ "." ∈ place ∨ ".." ∈ place ∨ (t.get? place).isSome then t
  else (takeParents t place).set place (.link real)

/-- The nearest directory that exists on the way to a path. -/
partial def realDirectory (p : Path) : IO String := do
  let here ← IO.currentDir
  if ← (here / p.text).isDir then return (← IO.FS.realPath (here / p.text)).toString
  match p.parent with
  | none => pure "/"
  | some p => realDirectory p

mutual

/-- A directory with all it holds. -/
partial def takeDirectory (t : Tree) (path : String) : IO Tree := do
  let place := placeOf path
  if place ≠ [] ∧ (t.get? place).isSome then return t
  let entries ← (← IO.FS.realPath path).readDir
  let start := if place = [] then t else (takeParents t place).set place .directory
  entries.foldlM (fun t e => do
    match (← e.path.symlinkMetadata).type with
    | .dir => takeDirectory t e.path.toString
    | .file => pure (t.set (placeOf e.path.toString) (← takeFile e.path.toString))
    | .symlink =>
      if ← e.path.pathExists then
        let target := (← IO.FS.realPath e.path).toString
        take (t.set (placeOf e.path.toString) (.link target)) target
      else pure (t.set (placeOf e.path.toString) (.link ""))
    | .other => pure t) start

/-- What an absolute path leads to; of one that leads nowhere, the nearest directory on the way to it. -/
partial def take (t : Tree) (path : String) : IO Tree := do
  if ! (← ((← IO.currentDir) / path).pathExists) then
    match (⟨path⟩ : Path).parent with
    | none => return t
    | some p => return takeParents t (placeOf (← realDirectory p) ++ [""])
  let real ← IO.FS.realPath path
  let place := placeOf real.toString
  let t ← if ← real.isDir then takeDirectory t real.toString
    else pure ((takeParents t place).set place (← takeFile real.toString))
  pure (takeDetour t (placeOf path) real.toString)

end

/-- The texts within an argument that may be paths: all of it, what follows a short option, and what
follows a `=` or a `:`. -/
def pathsIn (argument : String) : List String :=
  let cs := argument.toList
  let after (mark : Char) := (cs.dropWhile (· ≠ mark)).drop 1
  ([cs, if cs.head? = some '-' then cs.drop 2 else [], after '=', after ':'].filter (· ≠ [])).map
    String.ofList

/-! ### Carrying out changes -/

/-- May become the other by writing alone. -/
def sameKind : Entry → Entry → Bool
  | .file _, .file _ => true
  | .directory, .directory => true
  | .link a, .link b => a = b
  | _, _ => false

def store (old new : Tree) : IO Unit := do
  for (place, entry) in (old.below []).reverse do
    unless (new.get? place).any (sameKind entry) do
      if entry.isDirectory then IO.FS.removeDir (pathTo place) else IO.FS.removeFile (pathTo place)
  for (place, entry) in new.below [] do
    unless old.get? place = some entry do
      match entry with
      | .directory => IO.FS.createDirAll (pathTo place)
      | .link target => throw (IO.userError ("no link to " ++ target ++ " can be made"))
      | .file data =>
        IO.FS.writeBinFile (pathTo place) ⟨data.bytes.toArray⟩
        if data.executable then
          IO.setAccessRights (pathTo place)
            ⟨⟨true, true, true⟩, ⟨true, false, true⟩, ⟨true, false, true⟩⟩

/-! ### The run -/

/-- The time of the disk. -/
def clock : IO Int := do
  let (_, path) ← IO.FS.createTempFile
  let now := (← path.metadata).modified.sec
  IO.FS.removeFile path
  pure now

/-- The world that a run with some arguments begins in. -/
def world (arguments : List String) : IO World := do
  let here := (← IO.currentDir).toString
  let folders := (((← IO.getEnv "PATH").getD "").splitOn ":").filter (· ≠ "")
  let temporary := (← IO.getEnv "TMPDIR").getD "/tmp"
  let t ← take {} here
  let t ← ((arguments.flatMap pathsIn).map fun text => (Path.join ⟨here⟩ ⟨text⟩).text).foldlM take t
  let programs := Install.programNames.flatMap fun name => folders.map (· ++ "/" ++ name)
  let t ← ("/bin/sh" :: programs).foldlM take t
  let installer ← IO.getEnv "SHADEPACK_COMPOSER"
  pure {
    disk := ⟨takeParents t (placeOf temporary ++ [""]), placeOf here, ← clock⟩
    seed := UInt64.ofNat (Bytes.number (← IO.getRandomBytes 8).data.toList)
    temporary := ⟨temporary⟩
    programs := folders.map Path.mk
    installer := installer.map Path.mk }

def run (arguments : List String) : IO UInt32 := do
  let before ← world arguments
  let (outcome, after) := Command.run arguments before
  store before.disk.tree after.disk.tree
  IO.print outcome.output
  IO.eprint outcome.errors
  pure (UInt32.ofNat outcome.exit)

end PluginShading.Main

def main (arguments : List String) : IO UInt32 := PluginShading.Main.run arguments
