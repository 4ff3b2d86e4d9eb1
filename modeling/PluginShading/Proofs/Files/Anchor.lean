import PluginShading.Proofs.Files.Descent
import PluginShading.Proofs.Files.Growth
import PluginShading.Proofs.Files.Lasting

/-!
What lies below a path that leads to a directory.

A path is `Anchored` at the directory that its names lead to. From there the names lead down, as long as what is on
the way to the directory is still there (`Disk.Anchored.find_under`). Where no link is on the way down, a path comes to
what the names say and to nothing else (`Disk.Anchored.stat_under`). The paths that lead somewhere are among those
that the system can hold at all (`usable_of_find`).
-/
namespace PluginShading

/-- The system can hold the path: its text is short enough, and so is every name in it. -/
structure Path.Fits (p : Path) : Prop where
  text : p.text.utf8ByteSize < Files.pathLimit
  names : ∀ name ∈ Files.namesIn p.chars, name.utf8ByteSize ≤ Files.nameLimit

instance (p : Path) : Decidable p.Fits :=
  decidable_of_iff (p.text.utf8ByteSize < Files.pathLimit ∧
      ∀ name ∈ Files.namesIn p.chars, name.utf8ByteSize ≤ Files.nameLimit)
    ⟨fun h => ⟨h.1, h.2⟩, fun h => ⟨h.text, h.names⟩⟩

/-- The system takes the path: it can hold it, and no NUL cuts it short. -/
structure Path.Usable (p : Path) : Prop extends p.Fits where
  free : '\x00' ∉ p.chars

instance (p : Path) : Decidable p.Usable :=
  decidable_of_iff (p.Fits ∧ '\x00' ∉ p.chars) ⟨fun h => ⟨h.1, h.2⟩, fun h => ⟨h.toFits, h.free⟩⟩

namespace Files

variable {t : Tree} {links : Nat} {at_ place : Place} {names : List String} {through : Bool}

theorem passable_of_isName {name : String} (h : isName name = true) (hfits : name.utf8ByteSize ≤ nameLimit) :
    Passable name := by
  obtain ⟨-, -, hhere, hup⟩ := isName_iff.1 h
  exact ⟨fun heq => hhere (heq ▸ rfl), fun heq => hup (heq ▸ rfl), Nat.not_lt.2 hfits⟩

/-- Without links on the way, what is found is where the names say. -/
theorem follow_straight (hnames : ∀ n ∈ names, Passable n)
    (hlinks : ∀ front, front ≠ [] → front <+: names → ∀ target, t.get? (at_ ++ front) ≠ some (.link target))
    {p : Place} {entry : Entry} (h : follow t links at_ names through = .ok (.found p entry)) : p = at_ ++ names := by
  induction names generalizing at_ with
  | nil =>
    unfold follow at h
    split at h <;> cases h
    rw [List.append_nil]
  | cons name rest ih =>
    obtain ⟨hhere, hup, hlimit⟩ := hnames name List.mem_cons_self
    have hfirst := hlinks [name] (List.cons_ne_nil _ _) (List.prefix_append [name] rest)
    cases hget : t.get? (at_ ++ [name]) with
    | none =>
      rw [follow_none hhere hup hlimit hget] at h
      split at h <;> cases h
    | some e =>
      cases e with
      | file data =>
        rw [follow_file hhere hup hlimit hget] at h
        split at h
        · rename_i hrest
          cases h
          rw [hrest]
        · cases h
      | directory =>
        rw [follow_directory hhere hup hlimit hget] at h
        rw [List.append_cons]
        refine ih (fun n hn => hnames n (List.mem_cons_of_mem _ hn)) (fun front _ hfront target => ?_) h
        rw [← List.append_cons]
        exact hlinks (name :: front) (List.cons_ne_nil _ _) (List.cons_prefix_cons.2 ⟨rfl, hfront⟩) target
      | link target => exact absurd hget (hfirst target)

namespace Disk

variable {d d' : Disk} {p root : Path}

/-- The directory that a path starts from. -/
def start (d : Disk) (p : Path) : Place := if p.chars.head? = some '/' then [] else d.here

theorem get?_start (hd : d.Sound) (p : Path) : d.tree.get? (d.start p) = some .directory :=
  Files.get?_start hd.here p.chars

theorem start_under (hnames : ∀ n ∈ names, isName n = true) : d.start (root.under names) = d.start root := by
  have habsolute : (root.under names).isAbsolute = root.isAbsolute := Path.isAbsolute_under hnames
  simp only [Path.isAbsolute, beq_eq_beq] at habsolute
  simp only [start, habsolute]

theorem find_eq_ok_iff {spot : Spot} : d.find p through = .ok spot ↔
    Findable p.chars ∧ follow d.tree linkLimit (d.start p) (steps p.chars) through = .ok spot :=
  findText_eq_ok_iff

theorem findable_of_usable (hne : p.chars ≠ []) (hp : p.Usable) : Findable p.chars := by
  refine ⟨hne, hp.free, ?_⟩
  rw [Path.chars, String.ofList_toList]
  exact Nat.not_le.2 hp.text

theorem isDirectory_iff : d.isDirectory p = true ↔ ∃ place, d.find p true = .ok (.found place .directory) := by
  unfold isDirectory stat
  constructor
  · intro h
    split at h
    · rename_i entry hstat
      split at hstat
      · cases hstat
      · cases hstat
      · rename_i place e hfind
        cases hstat
        cases entry with
        | directory => exact ⟨place, hfind⟩
        | file _ | link _ => cases h
    · cases h
  · rintro ⟨place, hfind⟩
    rw [hfind]
    rfl

/-! ### Leading to a directory -/

/-- The names of the path lead to the directory at `place`. -/
def Anchored (d : Disk) (p : Path) (place : Place) : Prop :=
  follow d.tree linkLimit (d.start p) (namesIn p.chars) true = .ok (.found place .directory)

theorem anchored_of_find (h : d.find p true = .ok (.found place .directory)) : d.Anchored p place := by
  have hfollow := (find_eq_ok_iff.1 h).2
  rw [steps_eq] at hfollow
  by_cases hlast : p.chars.getLast? = some '/'
  · rw [if_pos hlast] at hfollow
    exact follow_concat_here hfollow
  · rwa [if_neg hlast, List.append_nil] at hfollow

namespace Anchored

theorem get?_place (h : d.Anchored p place) : d.tree.get? place = some .directory := get?_of_found h

/-- A path that leads to a directory goes on leading there. -/
theorem kept (h : d.Anchored p place) (hhere : d'.here = d.here) (hways : KeepsWays d.tree d'.tree)
    (hplace : d'.tree.get? place = some .directory) : d'.Anchored p place := by
  obtain ⟨left, hleft⟩ := follow_through_found h hways
  have hstay := hleft ["."] true (List.cons_ne_nil _ _)
  rw [follow_here, follow_nil hplace] at hstay
  rw [Anchored, start, hhere]
  exact follow_concat_here hstay

theorem find (h : d.Anchored p place) (hne : p.chars ≠ []) (hp : p.Usable) :
    d.find p true = .ok (.found place .directory) := by
  refine find_eq_ok_iff.2 ⟨findable_of_usable hne hp, ?_⟩
  rw [steps_eq]
  by_cases hlast : p.chars.getLast? = some '/'
  · obtain ⟨left, hleft⟩ := follow_through_found h (.of_kept fun _ _ hget => hget)
    rw [if_pos hlast, hleft ["."] true (List.cons_ne_nil _ _), follow_here, follow_nil h.get?_place]
  · rw [if_neg hlast, List.append_nil]
    exact h

section Under

variable (hroot : d.Anchored root place) (hhere : d'.here = d.here) (hways : KeepsWays d.tree d'.tree)
include hroot hhere hways

/-- **Names lead down from the directory that a path leads to.** -/
theorem find_under : ∃ left, ∀ names through, names ≠ [] → (∀ n ∈ names, isName n = true) →
    Findable (root.under names).chars →
      d'.find (root.under names) through = follow d'.tree left place names through := by
  obtain ⟨left, hleft⟩ := follow_through_found hroot hways
  refine ⟨left, fun names through hnil hnames ⟨htext, hnul, hlimit⟩ => ?_⟩
  have hstart : d'.start (root.under names) = d.start root := by
    rw [start_under hnames, start, start, hhere]
  rw [Disk.find, findText, if_neg htext, if_neg hnul, if_neg hlimit, Path.steps_under hnames hnil]
  exact (congrArg (follow d'.tree linkLimit · _ through) hstart).trans (hleft names through hnil)

end Under

end Anchored

end Disk

/-! ### What the system can hold -/

section Usable

variable {d : Disk} {p : Path} {spot : Spot}

/-- A path that leads somewhere can be held. -/
theorem usable_of_find (h : d.find p through = .ok spot) : p.Usable := by
  obtain ⟨⟨-, hnul, hlimit⟩, hfollow⟩ := Disk.findText_eq_ok_iff.1 h
  rw [Path.chars, String.ofList_toList] at hlimit
  exact ⟨⟨Nat.not_le.1 hlimit, fun name hname => follow_fits hfollow name (List.mem_append_left _ hname)⟩, hnul⟩

theorem usable_of_findTrimmed (h : d.findTrimmed p through = .ok spot) : p.Usable := by
  obtain ⟨hnul, hlength⟩ := Disk.length_of_findTrimmed h
  have hfollow := (Disk.findText_eq_ok_iff.1 (Disk.findText_of_findTrimmed h)).2
  refine ⟨⟨hlength, fun name hname => follow_fits hfollow name ?_⟩, hnul⟩
  rw [← namesIn_withoutSlash] at hname
  exact List.mem_append_left _ hname

theorem usable_of_stat {entry : Entry} (h : d.stat p = .ok entry) : p.Usable := by
  unfold Disk.stat at h
  split at h
  · cases h
  · cases h
  · exact usable_of_find ‹_›

theorem usable_of_isDirectory (h : d.isDirectory p = true) : p.Usable := by
  unfold Disk.isDirectory at h
  split at h
  · exact usable_of_stat ‹_›
  · cases h

theorem usable_of_makeDirectory {made : Disk} (h : d.makeDirectory p = .ok made) : p.Usable := by
  unfold Disk.makeDirectory at h
  split at h
  · cases h
  · cases h
  · exact usable_of_findTrimmed ‹_›

theorem usable_of_createDirectories (hp : p.components ≠ []) {w w' : World}
    (h : createDirectories p w = (.ok (), w')) : p.Usable := by
  unfold createDirectories at h
  split at h
  · rename_i hmade
    rcases makeDirectories_eq_ok hp hmade with ⟨before, hmade⟩ | hdir
    · exact usable_of_makeDirectory hmade
    · exact usable_of_isDirectory hdir
  · cases h

/-- What is made, or there already, can be held. -/
theorem usable_of_ensureDirectory (hp : p.components ≠ []) {w w' : World} (h : ensureDirectory p w = (.ok (), w')) :
    p.Usable := by
  obtain ⟨d, w₁, -, h⟩ := Act.bind_eq_ok h
  split at h
  · rename_i hexists
    unfold Disk.exists? at hexists
    split at hexists
    · exact usable_of_stat ‹_›
    · cases hexists
  · exact usable_of_createDirectories hp h

theorem usable_of_write {bytes : Bytes} {executable : Bool} {written : Disk}
    (h : d.write p bytes executable = .ok written) : p.Usable := by
  unfold Disk.write at h
  split at h
  · cases h
  · exact usable_of_findTrimmed ‹_›

theorem usable_of_storeText {text : String} {w w' : World} (h : storeText p text w = (.ok (), w')) : p.Usable := by
  obtain ⟨_, w₁, -, h⟩ := Act.bind_eq_ok h
  unfold Act.change at h
  split at h
  · exact usable_of_write ‹_›
  · cases h

end Usable

end Files

end PluginShading
