import PluginShading.Files.Temporary
import PluginShading.Proofs.Files.Descent
import PluginShading.Proofs.Files.Growth
import PluginShading.Proofs.Files.Lasting

/-!
A place to build in.

A `Site` is a path to where nothing was. Once a directory is made there, a disk is `Staged` as long as
all else on it only grows directories, and it is only built `Inside` as long as nothing else on it changes at
all. Files come in by paths that the site `Contains`, which go through the site's own path and from there
never above it (`Inside.write`), and the directories that they need are made in the site too, since those on
the way to it are there (`Inside.admitsDirectories`). Cleaning the site up leaves the disk as it was before,
but for directories (`Staged.withoutDirectory`).
-/
namespace PluginShading.Files

open Disk (withoutSlash)

/-- A path to a place that is free on a disk. -/
structure Site where
  base : Disk
  path : Path
  parent : Place
  name : String
  sound : base.Sound
  absolute : path.isAbsolute = true
  last : path.chars.getLast? ≠ some '/'
  free : base.find path false = .ok (.missing parent name)

namespace Site

variable (s : Site)

def place : Place := s.parent ++ [s.name]

/-- The names on the way to the site. -/
def names : List String := namesIn s.path.chars

theorem free_holds : (Spot.missing s.parent s.name).Holds s.base.tree := s.sound.findText_holds s.free

theorem get?_place : s.base.tree.get? s.place = none := by
  cases s.free_holds with
  | missing _ hnone _ => exact hnone

theorem head?_path : s.path.chars.head? = some '/' := by simpa [Path.isAbsolute] using s.absolute

theorem steps_path : steps s.path.chars = s.names := by
  rw [steps_eq, if_neg s.last, List.append_nil]
  rfl

theorem follow_names :
    follow s.base.tree linkLimit [] s.names false = .ok (.missing s.parent s.name) := by
  have hfree := (Disk.findText_eq_ok_iff.1 s.free).2
  rwa [s.head?_path, if_pos rfl, s.steps_path] at hfree

/-- The path goes through the site's own path and from there never above it. -/
def Contains (p : Path) : Prop :=
  p.isAbsolute = true ∧ ∃ more, namesIn p.chars = s.names ++ more ∧ stays 0 more = true

/-- A path into the site goes on from this one, which perhaps leads to the site only. -/
def Borders (p : Path) : Prop :=
  p.isAbsolute = true ∧ ∃ more, namesIn p.chars <+: s.names ++ more ∧ stays 0 more = true

theorem contains_path : s.Contains s.path := ⟨s.absolute, [], (List.append_nil _).symm, rfl⟩

variable {s}

theorem Contains.join {p q : Path} (hp : s.Contains p) (hq : StaysIn q) : s.Contains (p.join q) := by
  obtain ⟨habsolute, more, hnames, hmore⟩ := hp
  have hne : p.chars ≠ [] := by
    intro h
    simp [Path.isAbsolute, h] at habsolute
  refine ⟨?_, more ++ namesIn q.chars, ?_, stays_append hmore hq.2⟩
  · rw [Path.isAbsolute, head?_join hq.1 hne]
    exact habsolute
  · rw [namesIn_join hq.1 hne, hnames, List.append_assoc]

theorem Contains.borders {p : Path} (hp : s.Contains p) : s.Borders p := by
  obtain ⟨habsolute, more, hnames, hmore⟩ := hp
  exact ⟨habsolute, more, hnames ▸ List.prefix_rfl, hmore⟩

theorem Borders.parent {p q : Path} (hp : s.Borders p) (h : p.parent = some q) : s.Borders q := by
  obtain ⟨habsolute, more, hnames, hmore⟩ := hp
  obtain ⟨hq, hfront⟩ := Path.parent_prefix h habsolute
  exact ⟨hq, more, hfront.trans hnames, hmore⟩

end Site

/-! ### What is staged -/

/-- The site is a directory that holds directories and files, and nothing else has changed but that there
are more directories. -/
structure Staged (s : Site) (d : Disk) : Prop where
  sound : d.Sound
  here : d.here = s.base.here
  kept : ∀ p entry, s.base.tree.get? p = some entry → d.tree.get? p = some entry
  gained : ∀ p entry, d.tree.get? p = some entry → s.base.tree.get? p = some entry ∨
    entry = .directory ∨ (∃ data, entry = .file data) ∧ s.place <+: p
  made : d.tree.get? s.place = some .directory

namespace Staged

variable {s : Site} {d : Disk}

theorem unlinked (h : Staged s d) : Unlinked d.tree s.place := by
  intro p target hp hget
  rcases h.gained p _ hget with hget | hdir | ⟨⟨data, hfile⟩, -⟩
  · rw [s.sound.tree.none_of_prefix s.get?_place hp] at hget
    cases hget
  · cases hdir
  · cases hfile

/-- Where there was something, the disk is not changed. -/
theorem put (h : Staged s d) {parent : Place} {name : String} {entry : Entry}
    (hparent : d.tree.get? parent = some .directory) (hname : isName name = true)
    (hold : d.tree.get? (parent ++ [name]) ≠ some .directory)
    (hfree : s.base.tree.get? (parent ++ [name]) = none)
    (hentry : entry = .directory ∨ (∃ data, entry = .file data) ∧ s.place <+: parent ++ [name]) :
    Staged s (d.put (parent ++ [name]) entry) := by
  have hset := d.tree.get?_set (append_singleton_ne_nil parent name) entry
  refine ⟨h.sound.put hparent hname hold, h.here, fun p e hget => ?_, fun p e hget => ?_, ?_⟩
  · show (d.tree.set _ _).get? p = _
    rw [hset, if_neg]
    · exact h.kept p e hget
    · rintro rfl
      rw [hget] at hfree
      cases hfree
  · change (d.tree.set _ _).get? p = _ at hget
    rw [hset] at hget
    split at hget
    · rename_i heq
      cases hget
      rw [heq]
      exact .inr hentry
    · exact h.gained p e hget
  · show (d.tree.set _ _).get? s.place = _
    rw [hset, if_neg]
    · exact h.made
    · intro heq
      exact hold (heq ▸ h.made)

theorem admitsDirectories (s : Site) : AdmitsDirectories (Staged s) where
  sound h := h.sound
  make {d parent name} h hparent hnone hname := by
    refine h.put hparent hname (by simp [hnone]) ?_ (.inl rfl)
    cases hbase : s.base.tree.get? (parent ++ [name]) with
    | none => rfl
    | some entry =>
      rw [h.kept _ _ hbase] at hnone
      cases hnone

/-! ### Finding one's way -/

/-- A text that goes through the site's path and from there never above it leads to something in the site. -/
theorem findText_within (h : Staged s d) {text : List Char} {more : List String} {through : Bool}
    {spot : Spot} (hhead : text.head? = some '/') (hnames : namesIn text = s.names ++ more)
    (hmore : stays 0 more = true) (hfind : d.findText text through = .ok spot) :
    (∃ p entry, spot = .found p entry ∧ s.place <+: p) ∨
      ∃ p name, spot = .missing p name ∧ s.place <+: p := by
  have hfollow := (Disk.findText_eq_ok_iff.1 hfind).2
  obtain ⟨left, hleft⟩ := follow_through s.follow_names (.of_kept h.kept) h.made
  rw [hhead, if_pos rfl, steps_eq, hnames, List.append_assoc, hleft] at hfollow
  refine follow_within h.unlinked List.prefix_rfl (Nat.le_refl _) (stays_append hmore ?_) hfollow
  split <;> rfl

/-- The site's own path leads to the site. -/
theorem find_path (h : Staged s d) : d.find s.path false = .ok (.found s.place .directory) :=
  Disk.find_made s.free h.here (.of_kept h.kept) h.made

/-! ### Cleaning up -/

/-- Whether or not the emptied directory can be removed as well. -/
theorem withoutDirectory_cases (h : Staged s d) :
    d.withoutDirectory s.path = {d with tree := d.tree.eraseBelow s.place} ∨
      d.withoutDirectory s.path = {d with tree := (d.tree.eraseBelow s.place).erase s.place} := by
  unfold Disk.withoutDirectory Disk.removeTree
  rw [h.find_path]
  dsimp only
  split
  · exact .inl rfl
  · exact .inr rfl

theorem not_prefix_of_base {p : Place} {entry : Entry} (hget : s.base.tree.get? p = some entry) :
    ¬ s.place <+: p := by
  intro hp
  rw [s.sound.tree.none_of_prefix s.get?_place hp] at hget
  cases hget

theorem grown_of_erased (h : Staged s d) {t : Tree} (ht : t.Sound)
    (hout : ∀ p, ¬ s.place <+: p → t.get? p = d.tree.get? p)
    (hin : ∀ p entry, s.place <+: p → t.get? p = some entry → entry = .directory) :
    Grown s.base {d with tree := t} where
  sound := by
    refine ⟨ht, ?_⟩
    show t.get? d.here = _
    rw [h.here, hout _ (not_prefix_of_base s.sound.here)]
    exact h.kept _ _ s.sound.here
  here := h.here
  kept p entry hget := (hout p (not_prefix_of_base hget)).trans (h.kept p entry hget)
  gained p entry hget := by
    by_cases hp : s.place <+: p
    · exact .inr (hin p entry hp hget)
    · rcases h.gained p entry ((hout p hp).symm.trans hget) with hbase | hdir | ⟨-, hin⟩
      · exact .inl hbase
      · exact .inr hdir
      · exact absurd hin hp

/-- Without the site, the disk is as it was, but for directories. -/
theorem withoutDirectory (h : Staged s d) : Grown s.base (d.withoutDirectory s.path) := by
  have hne : s.place ≠ [] := append_singleton_ne_nil s.parent s.name
  have hbelow : ∀ name, (d.tree.eraseBelow s.place).get? (s.place ++ [name]) = none := by
    intro name
    rw [Tree.get?_eraseBelow, if_pos (below_append_singleton s.place name)]
  rcases h.withoutDirectory_cases with heq | heq <;> rw [heq]
  · refine h.grown_of_erased (h.sound.tree.eraseBelow s.place) (fun p hp => ?_) fun p entry hp hget => ?_
    · rw [Tree.get?_eraseBelow, if_neg fun hb => hp hb.1]
    · rw [Tree.get?_eraseBelow] at hget
      rcases eq_or_below hp with rfl | hb
      · rw [if_neg fun hb => hb.2 rfl, h.made] at hget
        exact (Option.some.inj hget).symm
      · rw [if_pos hb] at hget
        cases hget
  · refine h.grown_of_erased ((h.sound.tree.eraseBelow s.place).erase hne hbelow) (fun p hp => ?_)
      fun p entry hp hget => ?_
    · rw [Tree.get?_erase _ hne, if_neg, Tree.get?_eraseBelow, if_neg fun hb => hp hb.1]
      rintro rfl
      exact hp List.prefix_rfl
    · rw [Tree.get?_erase _ hne, Tree.get?_eraseBelow] at hget
      split at hget
      · cases hget
      · rcases eq_or_below hp with rfl | hb
        · contradiction
        · rw [if_pos hb] at hget
          cases hget

end Staged

/-! ### What is built inside -/

/-- Nothing has changed but in the site. -/
structure Inside (s : Site) (d : Disk) : Prop extends Staged s d where
  outside : ∀ p, ¬ s.place <+: p → d.tree.get? p = s.base.tree.get? p

namespace Inside

variable {s : Site} {d : Disk}

/-- Something comes to stand in a directory of the site. -/
theorem put (h : Inside s d) {parent : Place} {name : String} {entry : Entry} (hin : s.place <+: parent)
    (hparent : d.tree.get? parent = some .directory) (hname : isName name = true)
    (hold : d.tree.get? (parent ++ [name]) ≠ some .directory)
    (hentry : entry = .directory ∨ ∃ data, entry = .file data) :
    Inside s (d.put (parent ++ [name]) entry) := by
  have hbelow := hin.trans (List.prefix_append parent [name])
  have hfree := s.sound.tree.none_of_prefix s.get?_place hbelow
  have hstaged := h.toStaged.put hparent hname hold hfree (hentry.imp_right fun hfile => ⟨hfile, hbelow⟩)
  refine ⟨hstaged, fun p hp => ?_⟩
  show (d.tree.set _ _).get? p = _
  rw [d.tree.get?_set (append_singleton_ne_nil parent name), if_neg, h.outside p hp]
  rintro rfl
  exact hp hbelow

/-- What is in the site and is no directory lies in a directory of the site. -/
theorem putOver (h : Inside s d) {place : Place} {old new : FileData} (hin : s.place <+: place)
    (hget : d.tree.get? place = some (.file old)) : Inside s (d.put place (.file new)) := by
  rcases eq_or_below hin with rfl | hbelow
  · rw [h.made] at hget
    cases hget
  · obtain ⟨rest, rfl⟩ := hbelow.1
    rcases List.eq_nil_or_concat rest with rfl | ⟨front, name, rfl⟩
    · exact absurd (List.append_nil _).symm hbelow.2
    · rw [List.concat_eq_append, ← List.append_assoc] at hget ⊢
      refine h.put (List.prefix_append _ _) (h.sound.tree.parent _ _ _ hget)
        (h.sound.tree.named _ _ _ hget) (fun hdir => ?_) (.inr ⟨new, rfl⟩)
      rw [hget] at hdir
      cases hdir

/-! ### Directories -/

/-- Where a path that borders the site leads nowhere, there is room in the site: what is on the way to the
site is there. -/
theorem missing_within (h : Inside s d) {p : Path} (hp : s.Borders p) {parent : Place} {name : String}
    (hfind : d.findText (withoutSlash p.chars) false = .ok (.missing parent name)) : s.place <+: parent := by
  obtain ⟨habsolute, more, hway, hmore⟩ := hp
  have hhead : (withoutSlash p.chars).head? = some '/' := by
    rw [head?_withoutSlash]
    simpa [Path.isAbsolute] using habsolute
  have hfollow := (Disk.findText_eq_ok_iff.1 hfind).2
  rw [hhead, if_pos rfl] at hfollow
  have hne : namesIn p.chars ≠ [] := by
    intro hnil
    rw [steps_eq, namesIn_withoutSlash, hnil, List.nil_append] at hfollow
    split at hfollow <;> simp only [follow_here, follow_nil d.tree.get?_nil] at hfollow <;> cases hfollow
  have hpath := (Disk.findText_eq_ok_iff.1 h.find_path).2
  rw [s.head?_path, if_pos rfl, s.steps_path] at hpath
  rw [steps_withoutSlash hne] at hfollow
  have hinto : ∀ rest, namesIn p.chars = s.names ++ rest → s.place <+: parent := by
    intro rest hnames
    rw [hnames, List.prefix_append_right_inj] at hway
    rw [← namesIn_withoutSlash] at hnames
    rcases h.findText_within hhead hnames (stays_front hway hmore) hfind with
      ⟨_, _, heq, -⟩ | ⟨_, _, heq, hin⟩ <;> cases heq
    exact hin
  rcases List.prefix_or_prefix_of_prefix hway (List.prefix_append s.names more) with
    ⟨rest, hnames⟩ | ⟨rest, hnames⟩
  · by_cases hrest : rest = []
    · exact hinto [] (by rw [← hnames, hrest, List.append_nil, List.append_nil])
    · rw [← hnames, follow_append_of_missing hfollow hrest] at hpath
      cases hpath
  · exact hinto rest hnames.symm

theorem admitsDirectories (s : Site) : AdmitsDirectoriesAt (Inside s) s.Borders where
  make h hp hd' := by
    obtain ⟨parent, name, hfind, hparent, hnone, hname, rfl⟩ := h.sound.makeDirectory_eq_ok hd'
    exact h.put (h.missing_within hp hfind) hparent hname (by simp [hnone]) (.inl rfl)
  above := Site.Borders.parent

/-! ### Files -/

theorem write (h : Inside s d) {p : Path} (hp : s.Contains p) {bytes : Bytes} {executable : Bool}
    {d' : Disk} (hd' : d.write p bytes executable = .ok d') : Inside s d' := by
  obtain ⟨habsolute, more, hnames, hmore⟩ := hp
  have hhead : (withoutSlash p.chars).head? = some '/' := by
    rw [head?_withoutSlash]
    simpa [Path.isAbsolute] using habsolute
  rw [← namesIn_withoutSlash] at hnames
  unfold Disk.write at hd'
  cases htrimmed : d.findTrimmed p true with
  | error e => rw [htrimmed] at hd'; cases hd'
  | ok spot =>
    have hfind := Disk.findText_of_findTrimmed htrimmed
    have hholds := h.sound.findText_holds hfind
    rw [htrimmed] at hd'
    dsimp only at hd'
    split at hd'
    · cases hd'
    rcases h.findText_within hhead hnames hmore hfind with ⟨place, entry, rfl, hin⟩ | ⟨parent, name, rfl, hin⟩
    · cases hholds with
      | found hget =>
        cases entry with
        | file old =>
          cases hd'
          exact h.putOver hin hget
        | directory => cases hd'
        | link _ => cases hd'
    · cases hholds with
      | missing hparent hnone hname =>
        cases hd'
        exact h.put hin hparent hname (by simp [hnone]) (.inr ⟨_, rfl⟩)

/-- A path in the site that leads to a file leads to a file of the site. -/
theorem find_file (h : Inside s d) {p : Path} (hp : s.Contains p) {place : Place} {data : FileData}
    (hfind : d.find p true = .ok (.found place (.file data))) :
    s.place <+: place ∧ d.tree.get? place = some (.file data) := by
  obtain ⟨habsolute, more, hnames, hmore⟩ := hp
  have hhead : p.chars.head? = some '/' := by simpa [Path.isAbsolute] using habsolute
  have hholds := h.sound.findText_holds hfind
  rcases h.findText_within hhead hnames hmore hfind with ⟨_, _, heq, hin⟩ | ⟨_, _, heq, -⟩
  · cases heq
    cases hholds with
    | found hget => exact ⟨hin, hget⟩
  · cases heq

end Inside

end PluginShading.Files
