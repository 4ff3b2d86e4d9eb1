import PluginShading.World

/-!
Directories made where missing, files read and written with their directories, trees copied and
removed. A copy refuses symbolic links.
-/
namespace PluginShading.Files

open Disk

/-! ### Directories -/

/-- Makes a directory and the ones above it that are missing. `fuel` bounds the number of them. -/
def makeDirectories (fuel : Nat) (d : Disk) (p : Path) : Except IoError Unit × Disk :=
  if p.components = [] then (.ok (), d)
  else match d.makeDirectory p with
    | .ok made => (.ok (), made)
    | .error .notFound =>
      match fuel, p.parent with
      | 0, _ | _, none => (.error .notFound, d)
      | fuel + 1, some parent =>
        match makeDirectories fuel d parent with
        | (.error e, d) => (.error e, d)
        | (.ok (), above) =>
          match above.makeDirectory p with
          | .ok made => (.ok (), made)
          | .error e => if above.isDirectory p then (.ok (), above) else (.error e, above)
    | .error e => if d.isDirectory p then (.ok (), d) else (.error e, d)

section MakeDirectories

variable {fuel : Nat} {d d' above made : Disk} {p parent : Path} (hp : p.components ≠ [])
include hp

theorem makeDirectories_of_made (h : d.makeDirectory p = .ok made) : makeDirectories fuel d p = (.ok (), made) := by
  unfold makeDirectories
  rw [if_neg hp, h]

theorem makeDirectories_of_there (h : d.makeDirectory p = .error .alreadyExists) (hdir : d.isDirectory p = true) :
    makeDirectories fuel d p = (.ok (), d) := by
  unfold makeDirectories
  rw [if_neg hp, h]
  simp only [hdir, if_true]

/-- The directory above is made first. -/
theorem makeDirectories_of_above (h : d.makeDirectory p = .error .notFound) (hparent : p.parent = some parent)
    (habove : makeDirectories fuel d parent = (.ok (), above)) (hmade : above.makeDirectory p = .ok made) :
    makeDirectories (fuel + 1) d p = (.ok (), made) := by
  unfold makeDirectories
  rw [if_neg hp, h]
  simp only [hparent, habove, hmade]

/-- What succeeds ends with making the directory, or with finding it there. -/
theorem makeDirectories_eq_ok (h : makeDirectories fuel d p = (.ok (), d')) :
    (∃ before : Disk, before.makeDirectory p = .ok d') ∨ d'.isDirectory p = true := by
  revert h
  fun_cases makeDirectories fuel d p with
  | case1 => contradiction
  | case2 =>
    rintro ⟨⟩
    exact .inl ⟨_, ‹_›⟩
  | case6 =>
    rintro ⟨⟩
    exact .inl ⟨_, ‹_›⟩
  | case7 =>
    rintro ⟨⟩
    exact .inr ‹_›
  | case9 =>
    rintro ⟨⟩
    exact .inr ‹_›
  | _ => rintro ⟨⟩

end MakeDirectories

def createDirectories (p : Path) : Act Unit := fun w =>
  match makeDirectories p.text.length w.disk p with
  | (.ok (), d) => (.ok (), {w with disk := d})
  | (.error e, d) => (.error (.io (.createDirectory p) e), {w with disk := d})

/-- Makes a directory unless something is there already. -/
def ensureDirectory (p : Path) : Act Unit := do
  if (← Act.disk).exists? p then pure () else createDirectories p

def ensureParent (p : Path) : Act Unit :=
  match p.parent with
  | none => pure ()
  | some parent => ensureDirectory parent

/-- Removes a directory with all it holds, if there is one. -/
def removeDirectory (p : Path) : Act Unit := fun w =>
  if w.disk.exists? p then
    match w.disk.removeTree p with
    | (.ok (), d) => (.ok (), {w with disk := d})
    | (.error e, d) => (.error (.io (.removeDirectory p) e), {w with disk := d})
  else (.ok (), w)

/-! ### Files -/

/-- Removes a file, if there is one. -/
def removeFile (p : Path) : Act Unit := do
  if (← Act.disk).isFile p then Act.change (.removeFile p) (·.unlink p)

def loadText (p : Path) : Act String := Act.ask (.readFile p) (·.readText p)

/-- Writes a text, making the directories above it. -/
def storeText (p : Path) (text : String) : Act Unit := do
  ensureParent p
  Act.change (.writeFile p) (·.write p (Bytes.ofText text) false)

/-! ### Copies -/

/-- Writes the target before the source is read, so a file copied onto itself ends empty. -/
def copyData (source target : Path) (d : Disk) : Except IoError Disk :=
  match d.read source with
  | .error e => .error e
  | .ok data =>
    match d.write target [] data.executable with
    | .error e => .error e
    | .ok opened =>
      match opened.read source with
      | .error e => .error e
      | .ok left =>
        match opened.write target left.bytes data.executable with
        | .error e => .error e
        | .ok written =>
          match written.find target true with
          | .ok (.found place (.file copy)) =>
            .ok (written.put place (.file {copy with executable := data.executable}))
          | _ => .ok written

def copyFile (source target : Path) : Act Unit :=
  Act.change (.copyFile source target) (copyData source target)

/-- Copies a directory with all it holds. What a directory holds is listed once the target exists, so
a directory copied into itself would go on without end; it ends because every step makes the target's
path longer, up to the limit of paths, which `fuel` counts down. -/
def copyDirectory (fuel : Nat) (source target : Path) : Act Unit := do
  createDirectories target
  let entries ← Act.ask (.readDirectory source) (·.list source)
  match fuel with
  | 0 => pure ()
  | fuel + 1 =>
    entries.forM fun (name, entry) =>
      match entry with
      | .link _ => Act.fail (.because (.refuseLink (source.join ⟨name⟩)))
      | .directory => copyDirectory fuel (source.join ⟨name⟩) (target.join ⟨name⟩)
      | .file _ => copyFile (source.join ⟨name⟩) (target.join ⟨name⟩)

/-- Copies a file or a directory tree; what is at the target already stays or is written over. -/
def copy (source target : Path) : Act Unit := do
  match ← Act.ask (.statInput source) (·.statLink source) with
  | .directory => copyDirectory pathLimit source target
  | .file _ =>
    ensureParent target
    copyFile source target
  | .link _ => Act.fail (.because (.unsupportedInput source))

end PluginShading.Files
