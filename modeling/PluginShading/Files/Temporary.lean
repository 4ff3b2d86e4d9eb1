import PluginShading.World

/-!
Files and directories with fresh names, for results that are moved into place once they are complete.
Nothing that exists is taken for fresh: a name that is taken makes room for the next one.
-/
namespace PluginShading.Files

/-- The letters, capital ones behind small ones, and the digits. -/
def nameCharacters : List Char :=
  (List.range 26).map (fun i => Char.ofNat (97 + i)) ++
    (List.range 26).map (fun i => Char.ofNat (65 + i)) ++
    (List.range 10).map (fun i => Char.ofNat (48 + i))

/-- `count` letters and digits, chosen by a random word. -/
def randomName : (count n : Nat) → List Char
  | 0, _ => []
  | count + 1, n =>
    nameCharacters.getD (n % nameCharacters.length) 'a' ::
      randomName count (n / nameCharacters.length)

def freshName (lead : String) (seed : UInt64) : String :=
  lead ++ String.ofList (randomName 6 (seed.toNat / 16))

/-- How many names are tried. -/
def attempts : Nat := 65536

/-- A path in quotes. -/
def quotedPath (p : Path) : String :=
  let escaped := p.chars.flatMap fun c =>
    match c with
    | '"' => ['\\', '"']
    | '\\' => ['\\', '\\']
    | '\n' => ['\\', 'n']
    | '\r' => ['\\', 'r']
    | '\t' => ['\\', 't']
    | '\x00' => ['\\', '0']
    | c => [c]
  "\"" ++ String.ofList escaped ++ "\""

/-- Makes something at a fresh path in `folder`. -/
def makeFresh (make : Disk → Path → Except IoError Disk) (note : Note) (folder : Path)
    (lead : String) : Nat → Act Path
  | 0 => Act.fail (.io note (.about .alreadyExists " at path \"too many temporary files exist\""))
  | fuel + 1 => do
    let seed ← Act.random
    let path := folder.join ⟨freshName lead seed⟩
    fun w =>
      match make w.disk path with
      | .ok d => (.ok path, {w with disk := d})
      | .error .alreadyExists => makeFresh make note folder lead fuel w
      | .error e => (.error (.io note (.about e (" at path " ++ quotedPath path))), w)

/-- The path from the root of the disk. -/
def absolute (p : Path) : Act Path := do
  pure ((Disk.pathOf (← Act.disk).here).join p)

/-- An empty file in `folder`. -/
def freshFile (note : Note) (folder : Path) : Act Path := do
  makeFresh Disk.createNew note (← absolute folder) ".tmp" attempts

/-- An empty directory in `folder`. -/
def freshDirectory (note : Note) (folder : Path) (lead : String) : Act Path := do
  makeFresh Disk.makeDirectory note (← absolute folder) lead attempts

/-- Does something and cleans up behind it where it fails. -/
def orElseClean {α : Type} (a : Act α) (clean : Disk → Disk) : Act α := fun w =>
  match a w with
  | (.ok x, w) => (.ok x, w)
  | (.error f, w) => (.error f, {w with disk := clean w.disk})

/-- The disk without a file; as it is where the file cannot be removed. -/
def Disk.withoutFile (p : Path) (d : Disk) : Disk :=
  match d.unlink p with
  | .ok d => d
  | .error _ => d

/-- The disk without a directory and what it holds, as far as that can be removed. -/
def Disk.withoutDirectory (p : Path) (d : Disk) : Disk := (d.removeTree p).2

end PluginShading.Files
