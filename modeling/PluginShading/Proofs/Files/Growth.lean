import PluginShading.Files.Copy
import PluginShading.Proofs.Files.Follow
import PluginShading.Proofs.World

/-!
Disks that gain nothing but directories.

Most of what a build does on its way makes directories where they are missing, and makes them before it
is known whether the build succeeds. What survives one such directory survives every way of making them
(`AdmitsDirectoriesAt.ensureDirectory`, `AdmitsDirectoriesAt.ensureParent`). A disk that has only `Grown`
directories holds the same files (`Grown.sameFiles`).
-/
namespace PluginShading.Files

variable {d d' d'' : Disk} {I : Disk → Prop}

/-! ### Disks -/

/-- The tree can be held by a disk, and relative paths start from a directory of it. -/
structure Disk.Sound (d : Disk) : Prop where
  tree : d.tree.Sound
  here : d.tree.get? d.here = some .directory

namespace Disk

instance (d : Disk) : Decidable d.Sound :=
  decidable_of_iff (d.tree.Sound ∧ d.tree.get? d.here = some .directory)
    ⟨fun h => ⟨h.1, h.2⟩, fun h => ⟨h.tree, h.here⟩⟩

theorem Sound.findText_holds (hd : d.Sound) {text : List Char} {through : Bool} {spot : Spot}
    (h : d.findText text through = .ok spot) : spot.Holds d.tree := by
  refine follow_holds hd.tree ?_ (fun name => isStep_of_mem_steps) (findText_eq_ok_iff.1 h).2
  split
  · exact d.tree.get?_nil
  · exact hd.here

theorem Sound.put (hd : d.Sound) {parent : Place} {name : String} {entry : Entry}
    (hparent : d.tree.get? parent = some .directory) (hname : isName name = true)
    (hold : d.tree.get? (parent ++ [name]) ≠ some .directory) : (d.put (parent ++ [name]) entry).Sound := by
  refine ⟨hd.tree.set hparent hname fun h => absurd h hold, ?_⟩
  show (d.tree.set _ _).get? d.here = _
  rw [d.tree.get?_set (append_singleton_ne_nil parent name), if_neg, hd.here]
  intro heq
  exact hold (heq ▸ hd.here)

/-- Where making a directory succeeds, nothing was there. -/
theorem Sound.makeDirectory_eq_ok (hd : d.Sound) {p : Path} (h : d.makeDirectory p = .ok d') :
    ∃ parent name, d.findText (withoutSlash p.chars) false = .ok (.missing parent name) ∧
      d.tree.get? parent = some .directory ∧ d.tree.get? (parent ++ [name]) = none ∧
      isName name = true ∧ d' = d.put (parent ++ [name]) .directory := by
  unfold makeDirectory at h
  cases hfind : d.findTrimmed p false with
  | error e => rw [hfind] at h; cases h
  | ok spot =>
    rw [hfind] at h
    cases spot with
    | found place entry => cases h
    | missing parent name =>
      cases h
      have hfind := findText_of_findTrimmed hfind
      cases hd.findText_holds hfind with
      | missing hparent hnone hname => exact ⟨parent, name, hfind, hparent, hnone, hname, rfl⟩

/-- Where a file is written, there was a file or nothing, in a directory. -/
theorem Sound.write_eq_ok (hd : d.Sound) {p : Path} {bytes : Bytes} {executable : Bool}
    (h : d.write p bytes executable = .ok d') :
    ∃ spot mode, d.findTrimmed p true = .ok spot ∧ d' = d.put spot.place (.file ⟨bytes, d.now, mode⟩) ∧
      (d.tree.get? spot.place = none ∨ ∃ old, d.tree.get? spot.place = some (.file old)) ∧
      ∃ parent name, spot.place = parent ++ [name] ∧ d.tree.get? parent = some .directory ∧ isName name = true := by
  unfold write at h
  cases htrimmed : d.findTrimmed p true with
  | error e => rw [htrimmed] at h; cases h
  | ok spot =>
    have hholds := hd.findText_holds (findText_of_findTrimmed htrimmed)
    rw [htrimmed] at h
    dsimp only at h
    split at h
    · cases h
    cases hholds with
    | missing hparent hnone hname =>
      cases h
      exact ⟨_, executable, rfl, rfl, .inl hnone, _, _, rfl, hparent, hname⟩
    | found hget =>
      rename_i place entry
      cases entry with
      | file old =>
        cases h
        have hne : place ≠ [] := by
          rintro rfl
          rw [d.tree.get?_nil] at hget
          cases hget
        exact ⟨_, old.executable, rfl, rfl, .inr ⟨old, hget⟩, hd.tree.exists_parent hget hne⟩
      | directory => cases h
      | link _ => cases h

end Disk

/-! ### Making directories -/

/-- `I` is about sound disks and stays true when a directory is made where nothing is. -/
structure AdmitsDirectories (I : Disk → Prop) : Prop where
  sound : ∀ {d}, I d → d.Sound
  make : ∀ {d parent name}, I d → d.tree.get? parent = some .directory →
    d.tree.get? (parent ++ [name]) = none → isName name = true →
    I (d.put (parent ++ [name]) .directory)

/-- `I` stays true when a directory is made at a path of `A`, and paths above those of `A` are of `A`. -/
structure AdmitsDirectoriesAt (I : Disk → Prop) (A : Path → Prop) : Prop where
  make : ∀ {d d' p}, I d → A p → d.makeDirectory p = .ok d' → I d'
  above : ∀ {p q}, A p → p.parent = some q → A q

/-- What admits directories anywhere does so at all paths. -/
theorem AdmitsDirectories.anywhere (hI : AdmitsDirectories I) : AdmitsDirectoriesAt I fun _ => True where
  make hd _ h := by
    obtain ⟨parent, name, -, hparent, hnone, hname, rfl⟩ := (hI.sound hd).makeDirectory_eq_ok h
    exact hI.make hd hparent hnone hname
  above _ _ := trivial

namespace AdmitsDirectoriesAt

variable {A : Path → Prop} {p : Path}

theorem makeDirectories (hI : AdmitsDirectoriesAt I A) (hd : I d) (fuel : Nat) (hp : A p) :
    I (makeDirectories fuel d p).2 := by
  fun_induction Files.makeDirectories fuel d p with
  | case1 => exact hd
  | case2 fuel p _ made h => exact hI.make hd hp h
  | case3 => exact hd
  | case4 => exact hd
  | case5 p _ _ fuel parent hparent e above hrec ih =>
    have hkept := ih (hI.above hp hparent)
    rw [hrec] at hkept
    exact hkept
  | case6 p _ _ fuel parent hparent above hrec made h ih =>
    have hkept := ih (hI.above hp hparent)
    rw [hrec] at hkept
    exact hI.make hkept hp h
  | case7 p _ _ fuel parent hparent above hrec e _ _ ih =>
    have hkept := ih (hI.above hp hparent)
    rw [hrec] at hkept
    exact hkept
  | case8 p _ _ fuel parent hparent above hrec e _ _ ih =>
    have hkept := ih (hI.above hp hparent)
    rw [hrec] at hkept
    exact hkept
  | case9 => exact hd
  | case10 => exact hd

theorem createDirectories (hI : AdmitsDirectoriesAt I A) (hp : A p) : Act.Keeps I (createDirectories p) := by
  intro w hw
  have h := hI.makeDirectories hw p.text.length hp
  unfold Files.createDirectories
  cases hrun : Files.makeDirectories p.text.length w.disk p with
  | mk outcome d =>
    rw [hrun] at h
    cases outcome with
    | error e => exact ⟨h, nofun⟩
    | ok _ => exact ⟨h, fun _ _ => trivial⟩

theorem ensureDirectory (hI : AdmitsDirectoriesAt I A) (hp : A p) : Act.Keeps I (ensureDirectory p) := by
  refine Act.Ensures.bind Act.Ensures.disk fun d _ => ?_
  split
  · exact Act.Ensures.pure trivial
  · exact hI.createDirectories hp

theorem ensureParent (hI : AdmitsDirectoriesAt I A) (hp : A p) : Act.Keeps I (ensureParent p) := by
  unfold Files.ensureParent
  split
  · exact Act.Ensures.pure trivial
  · rename_i parent hparent
    exact hI.ensureDirectory (hI.above hp hparent)

end AdmitsDirectoriesAt

/-! ### Removing what is not there -/

theorem removeDirectory_of_missing {p : Path} {w : World} (h : w.disk.exists? p = false) :
    removeDirectory p w = (.ok (), w) := by
  unfold removeDirectory
  rw [h]
  rfl

theorem removeFile_of_free {p : Path} {w : World} (h : w.disk.isFile p = false) :
    removeFile p w = (.ok (), w) := by
  have hdisk : Act.disk w = (.ok w.disk, w) := rfl
  rw [removeFile, Act.bind_of_ok hdisk, h]
  rfl

/-! ### The same files -/

/-- The two disks hold the same files and links in the same places. -/
def SameFiles (d d' : Disk) : Prop :=
  ∀ p entry, entry ≠ .directory → (d'.tree.get? p = some entry ↔ d.tree.get? p = some entry)

namespace SameFiles

theorem refl (d : Disk) : SameFiles d d := fun _ _ _ => .rfl

theorem symm (h : SameFiles d d') : SameFiles d' d := fun p entry he => (h p entry he).symm

theorem trans (h : SameFiles d d') (h' : SameFiles d' d'') : SameFiles d d'' :=
  fun p entry he => (h' p entry he).trans (h p entry he)

end SameFiles

/-- `d'` holds all that `d` holds, and more directories at most. -/
structure Grown (d d' : Disk) : Prop where
  sound : d'.Sound
  here : d'.here = d.here
  kept : ∀ p entry, d.tree.get? p = some entry → d'.tree.get? p = some entry
  gained : ∀ p entry, d'.tree.get? p = some entry → d.tree.get? p = some entry ∨ entry = .directory

namespace Grown

theorem refl (hd : d.Sound) : Grown d d := ⟨hd, rfl, fun _ _ h => h, fun _ _ h => .inl h⟩

theorem trans (h : Grown d d') (h' : Grown d' d'') : Grown d d'' where
  sound := h'.sound
  here := h'.here.trans h.here
  kept p entry hget := h'.kept p entry (h.kept p entry hget)
  gained p entry hget := by
    rcases h'.gained p entry hget with hget | rfl
    · exact h.gained p entry hget
    · exact .inr rfl

theorem sameFiles (h : Grown d d') : SameFiles d d' :=
  fun p entry he => ⟨fun hget => (h.gained p entry hget).resolve_right he, h.kept p entry⟩

theorem admitsDirectories (d : Disk) : AdmitsDirectories (Grown d) where
  sound h := h.sound
  make {d' parent name} h hparent hnone hname := by
    have hset := d'.tree.get?_set (append_singleton_ne_nil parent name) .directory
    refine ⟨h.sound.put hparent hname (by simp [hnone]), h.here, fun p entry hget => ?_, fun p entry hget => ?_⟩
    · show (d'.tree.set _ _).get? p = _
      rw [hset, if_neg]
      · exact h.kept p entry hget
      · rintro rfl
        rw [h.kept _ _ hget] at hnone
        cases hnone
    · rw [show (d'.put (parent ++ [name]) .directory).tree = d'.tree.set _ _ from rfl, hset] at hget
      split at hget
      · cases hget
        exact .inr rfl
      · exact h.gained p entry hget

end Grown

end PluginShading.Files
