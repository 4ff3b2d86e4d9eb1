import PluginShading.Proofs.Files.Lasting
import PluginShading.Proofs.Files.Site

/-!
Taking a directory away.

What is taken away with a directory lies below it; of a link it is the link alone, and of a file it is nothing
(`Disk.Clears`, `get?_removeDirectory`). A site whose surroundings are partly taken away is cleaned up all the same
where its path still leads to it, and nothing else is (`Staged.get?_withoutDirectory`).
-/
namespace PluginShading.Files

variable {d d' : Disk} {p : Path} {q : Place} {entry : Entry}

/-- What is at the place goes with the directory that the path names: it lies below it, or is a link by that name. -/
def Disk.Clears (d : Disk) (p : Path) (q : Place) : Prop :=
  d.exists? p = true ∧ ∃ place entry, d.find p false = .ok (.found place entry) ∧
    (entry = .directory ∧ Below place q ∨ entry.isLink = true ∧ q = place)

namespace Disk

theorem clears_iff_of_find {place : Place} {found : Entry} (hexists : d.exists? p = true)
    (h : d.find p false = .ok (.found place found)) :
    d.Clears p q ↔ found = .directory ∧ Below place q ∨ found.isLink = true ∧ q = place := by
  refine ⟨fun ⟨_, at_, entry, hfind, hq⟩ => ?_, fun hq => ⟨hexists, place, found, h, hq⟩⟩
  rw [h] at hfind
  cases hfind
  exact hq

/-- What is left of a tree was there. -/
theorem get?_of_removeTree (h : (d.removeTree p).2.tree.get? q = some entry) : d.tree.get? q = some entry := by
  unfold removeTree at h
  split at h
  · exact h
  · exact h
  · exact h
  · exact Tree.get?_of_erase h
  · dsimp only at h
    split at h
    · exact Tree.get?_of_eraseBelow h
    · exact Tree.get?_of_eraseBelow (Tree.get?_of_erase h)

theorem removeTree_here (d : Disk) (p : Path) : (d.removeTree p).2.here = d.here := by
  unfold removeTree
  repeat' split
  all_goals rfl

/-- Removing a tree takes the files away that it clears. -/
theorem get?_removeTree (hexists : d.exists? p = true) (he : entry ≠ .directory) :
    (d.removeTree p).2.tree.get? q = some entry ↔ d.tree.get? q = some entry ∧ ¬ d.Clears p q := by
  have hnone : (∀ place found, d.find p false ≠ .ok (.found place found)) → ¬ d.Clears p q :=
    fun hno ⟨_, place, found, hfind, _⟩ => hno place found hfind
  unfold removeTree
  split
  · rename_i hfind
    exact (and_iff_left (hnone fun _ _ h => by rw [hfind] at h; cases h)).symm
  · rename_i hfind
    exact (and_iff_left (hnone fun _ _ h => by rw [hfind] at h; cases h)).symm
  · rename_i hfind
    rw [clears_iff_of_find hexists hfind]
    simp [Entry.isLink]
  · rename_i place target hfind
    have hplace : place ≠ [] := by
      rintro rfl
      have hget := get?_of_find hfind
      rw [Tree.get?_nil] at hget
      cases hget
    rw [clears_iff_of_find hexists hfind]
    dsimp only
    rw [Tree.get?_erase _ hplace]
    by_cases hq : q = place <;> simp [hq, Entry.isLink]
  · rename_i place hfind
    have hemptied : (d.tree.eraseBelow place).get? q = some entry ↔
        d.tree.get? q = some entry ∧ ¬ d.Clears p q := by
      rw [clears_iff_of_find hexists hfind, Tree.get?_eraseBelow]
      by_cases hq : Below place q <;> simp [hq, Entry.isLink]
    dsimp only
    split
    · exact hemptied
    · rename_i hgoes
      have hplace : place ≠ [] := by
        rintro rfl
        unfold keepsDirectory at hgoes
        split at hgoes <;> simp at hgoes
      rw [← hemptied]
      dsimp only
      rw [Tree.get?_erase _ hplace]
      split
      · rename_i hq
        have hdir := get?_of_find hfind
        rw [hq, Tree.get?_eraseBelow, if_neg fun hbelow => hbelow.2 rfl, hdir]
        exact ⟨nofun, fun heq => absurd (Option.some.inj heq).symm he⟩
      · rfl

end Disk

/-- Taking a directory away takes the files that it clears, whether or not it can be done to the end. -/
theorem get?_removeDirectory {w : World} (he : entry ≠ .directory) :
    (removeDirectory p w).2.disk.tree.get? q = some entry ↔
      w.disk.tree.get? q = some entry ∧ ¬ w.disk.Clears p q := by
  unfold removeDirectory
  split
  · rename_i hexists
    rw [← Disk.get?_removeTree hexists he]
    split <;> rename_i hrun <;> rw [hrun]
  · rename_i hexists
    exact (and_iff_left fun hclears => hexists hclears.1).symm

theorem removeDirectory_disk (p : Path) (w : World) : (removeDirectory p w).2.disk = w.disk ∨
    (removeDirectory p w).2.disk = (w.disk.removeTree p).2 := by
  unfold removeDirectory
  split
  · refine .inr ?_
    split <;> rename_i hrun <;> rw [hrun]
  · exact .inl rfl

/-- What is left was there. -/
theorem get?_of_removeDirectory {w : World} (h : (removeDirectory p w).2.disk.tree.get? q = some entry) :
    w.disk.tree.get? q = some entry := by
  rcases removeDirectory_disk p w with hdisk | hdisk <;> rw [hdisk] at h
  · exact h
  · exact Disk.get?_of_removeTree h

theorem removeDirectory_here (p : Path) (w : World) : (removeDirectory p w).2.disk.here = w.disk.here := by
  rcases removeDirectory_disk p w with hdisk | hdisk <;> rw [hdisk]
  exact w.disk.removeTree_here p

namespace Staged

variable {s : Site}

/-- Where a site was staged and things were taken away, it is cleaned up, or cannot be found; nothing else is touched. -/
theorem get?_withoutDirectory (h : Staged s d) (hhere : d'.here = d.here)
    (hless : ∀ p entry, d'.tree.get? p = some entry → d.tree.get? p = some entry) (hq : ¬ s.place <+: q) :
    (d'.withoutDirectory s.path).tree.get? q = d'.tree.get? q := by
  have hplace : ∀ place entry, d'.find s.path false = .ok (.found place entry) → place = s.place := by
    intro place entry hfind
    obtain ⟨hfindable, hfollow⟩ := Disk.findText_eq_ok_iff.1 hfind
    have hfound : d.find s.path false = .ok (.found place entry) := by
      refine Disk.findText_eq_ok_iff.2 ⟨hfindable, ?_⟩
      rw [← hhere]
      exact follow_found_of_kept hless hfollow
    rw [h.find_path] at hfound
    cases hfound
    rfl
  have hne : s.place ≠ [] := append_singleton_ne_nil s.parent s.name
  have hself : q ≠ s.place := fun heq => hq (heq ▸ List.prefix_rfl)
  have hbelow : ¬ Below s.place q := fun hbelow => hq hbelow.1
  unfold Disk.withoutDirectory Disk.removeTree
  split
  · rfl
  · rfl
  · rfl
  · rename_i place target hfind
    obtain rfl := hplace _ _ hfind
    dsimp only
    rw [Tree.get?_erase _ hne, if_neg hself]
  · rename_i place hfind
    obtain rfl := hplace _ _ hfind
    dsimp only
    split <;> dsimp only
    · rw [Tree.get?_eraseBelow, if_neg hbelow]
    · rw [Tree.get?_erase _ hne, if_neg hself, Tree.get?_eraseBelow, if_neg hbelow]

end Staged

end PluginShading.Files
