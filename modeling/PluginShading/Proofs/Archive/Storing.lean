import PluginShading.Archive.Package
import PluginShading.Proofs.Files.Fresh
import PluginShading.Proofs.Files.Moving

/-!
Storing an archive in two parts.

Packaging first makes room, which takes the old archive away (`makeRoom_clears`), and then stores the new
one. The second part is clean: where it fails, it leaves the disk as it found it (`store_fails`).
-/
namespace PluginShading

namespace Files

open Act (KeepsTools)

/-! ### Tools -/

end Files

namespace Archive

open Act (Ensures Keeps KeepsTools bind_apply)
open Files (Disk Bytes)

variable {I : Disk → Prop}

/-! ### Two parts -/

theorem collect_snd (directory : Path) (w : World) : (collect directory w).2 = w := by
  unfold collect
  split <;> rfl

/-- What is done before the archive is begun. -/
def makeRoom (directory target : Path) : Act (List Entry) := do
  let entries ← collect directory
  Act.report .debug ("packaging " ++ toString entries.length ++ " files as " ++
    (Format.ofPath target).text)
  Files.removeFile target
  Files.ensureDirectory (folderOf target)
  pure entries

/-- Writes the archive beside its target and moves it there. -/
def store (target : Path) (entries : List Entry) : Act Unit := do
  let fresh ← Files.freshFile (.createTemporaryIn (folderOf target)) (folderOf target)
  Files.orElseClean (do
      let bytes ← contentOf (Format.ofPath target) entries
      Act.change (.moveArchive target) fun d => (d.write fresh bytes false).bind (·.rename fresh target))
    (Disk.withoutFile fresh)

theorem package_eq (directory target : Path) :
    package directory target = makeRoom directory target >>= store target := by
  unfold package makeRoom store
  simp only [bind_assoc, pure_bind]

/-- Where no file is in the way, making room makes directories at most. -/
theorem makeRoom_of_free (hI : Files.AdmitsDirectories I) (directory : Path) {target : Path} {w : World}
    (hw : I w.disk) (hfree : w.disk.isFile target = false) : I (makeRoom directory target w).2.disk := by
  have hcollect := collect_snd directory w
  cases hrun : collect directory w with
  | mk outcome w₁ =>
    obtain rfl : w₁ = w := by
      rw [hrun] at hcollect
      exact hcollect
    cases outcome with
    | error f =>
      rw [makeRoom, Act.bind_of_error hrun]
      exact hw
    | ok entries =>
      have hensure : Keeps I (Files.ensureDirectory (folderOf target) >>= fun _ => pure entries) :=
        Ensures.bind (hI.anywhere.ensureDirectory trivial) fun _ _ => Ensures.pure trivial
      have hrest : ∀ w₂ : World, w₂.disk = w₁.disk → I ((Files.removeFile target >>= fun _ =>
          Files.ensureDirectory (folderOf target) >>= fun _ => pure entries) w₂).2.disk := by
        intro w₂ hdisk
        rw [Act.bind_of_ok (Files.removeFile_of_free (hdisk ▸ hfree))]
        exact (hensure w₂ (hdisk ▸ hw)).1
      rw [makeRoom, Act.bind_of_ok hrun, Act.bind_of_ok (Act.report_apply _ _ _)]
      exact hrest _ rfl

/-- Room is made by removing what leads to a file, and making directories. -/
theorem makeRoom_clears {directory : Path} (target : Path) {entries : List Entry} {w : World} (hw : w.disk.Sound)
    (hcollect : collect directory w = (.ok entries, w)) :
    w.disk.Cleared target (makeRoom directory target w).2.disk ∧
      ∀ found, (makeRoom directory target w).1 = .ok found → found = entries := by
  have hensure : Act.Ensures (w.disk.Cleared target)
      (Files.ensureDirectory (folderOf target) >>= fun _ => pure entries) (· = entries) :=
    Act.Ensures.bind ((Disk.Cleared.admitsDirectories w.disk target).anywhere.ensureDirectory trivial)
      fun _ _ => Act.Ensures.pure rfl
  rw [makeRoom, Act.bind_of_ok hcollect, Act.bind_of_ok (Act.report_apply _ _ _)]
  generalize hreported : ({w with log := _} : World) = w₁
  have hdisk : w₁.disk = w.disk := hreported ▸ rfl
  obtain ⟨d, hremove, hclear⟩ := Files.removeFile_clears (p := target) (hdisk ▸ hw)
  rw [Act.bind_of_ok hremove]
  exact hensure _ (hdisk ▸ hclear)

/-! ### Contents -/

theorem contentOf_keeps (format : Format) (entries : List Entry) : Keeps I (contentOf format entries) := by
  cases format with
  | phar =>
    have hmembers : Keeps I (entries.mapM pharMember) := by
      refine Ensures.keeps (Ensures.mapM (R := fun _ => True) fun e _ => ?_)
      refine Ensures.bind (Q := fun _ => True) (Ensures.ask fun _ _ _ _ => trivial) fun data _ => ?_
      dsimp only
      split
      · exact Ensures.pure trivial
      · exact Ensures.fail
    show Keeps I (pharOf entries)
    unfold pharOf
    dsimp only
    split
    · exact Ensures.bind (Q := fun _ => True) Ensures.fail fun _ _ =>
        Ensures.bind hmembers fun _ _ => Ensures.ofExcept fun _ _ => trivial
    · exact Ensures.bind hmembers fun _ _ => Ensures.ofExcept fun _ _ => trivial
  | tarball =>
    refine Ensures.bind (Q := fun _ => True) ?_ fun _ _ => Ensures.bind Ensures.tools fun _ _ => Ensures.pure trivial
    refine Ensures.keeps (Ensures.mapM (R := fun _ => True) fun e _ => ?_)
    exact Ensures.ask fun _ _ _ _ => trivial

/-! ### Failing -/

/-- What fails while the archive is written has not touched the disk but for the fresh file. -/
theorem filling_fails {format : Format} {entries : List Entry} {note : Note}
    {step : Bytes → Disk → Except Files.IoError Disk} {w w' : World} {f : Failure}
    (h : (contentOf format entries >>= fun bytes => Act.change note (step bytes)) w = (.error f, w')) :
    w'.disk = w.disk := by
  have hkeeps := (contentOf_keeps (I := fun d => d = w.disk) format entries w rfl).1
  rw [bind_apply] at h
  cases hrun : contentOf format entries w with
  | mk outcome w₁ =>
    rw [hrun] at h hkeeps
    cases outcome with
    | error e =>
      cases h
      exact hkeeps
    | ok bytes => rw [Act.change_fails h, hkeeps]

/-- **An archive that cannot be stored leaves no trace.** -/
theorem store_fails {target : Path} {entries : List Entry} {w w' : World} {f : Failure}
    (h : store target entries w = (.error f, w')) : w'.disk = w.disk := by
  unfold store at h
  rw [bind_apply] at h
  rcases Files.freshFile_cases (.createTemporaryIn (folderOf target)) (folderOf target) w
    with ⟨e, w₁, hrun, hdisk⟩ | ⟨fresh, w₁, parent, seed, hrun, -, hfind, hdisk⟩ <;> rw [hrun] at h
  · cases h
    exact hdisk
  · dsimp only at h
    unfold Files.orElseClean at h
    split at h
    · cases h
    · rename_i e w₂ hfill
      cases h
      show w₂.disk.withoutFile fresh = w.disk
      rw [filling_fails hfill, hdisk, Files.withoutFile_put hfind]

end Archive

end PluginShading
