import PluginShading.Files.Copy
import PluginShading.Proofs.Files.Growth
import PluginShading.Proofs.Files.Lasting
import PluginShading.Proofs.Files.Names

/-!
Removing a file and moving one into its place.

What leads a path to a file is a dead end, so without it every other path leads where it led (`Occupies.deadEnd`).
A file that is moved stands at its new place and nowhere else (`Tree.get?_move`), and is what the new path leads
to, unless that named a link (`Disk.Sound.read_renamed`).
-/
namespace PluginShading.Files

/-! ### Trees -/

namespace Tree

variable {t : Tree} {old new p : Place} {data : FileData}

theorem set_set (t : Tree) (p : Place) (e e' : Entry) : (t.set p e).set p e' = t.set p e' := by
  simp [set, erase, List.filter_filter]

/-- Only a file itself is at or below it. -/
theorem Sound.eq_of_file (ht : t.Sound) {e : Entry} (hold : t.get? old = some (.file data)) (hp : t.get? p = some e)
    (hway : old <+: p) : p = old := by
  refine ((ht.eq_or_directory hp hway).resolve_right fun hdir => ?_).symm
  rw [hdir] at hold
  cases hold

theorem lookup_rename {entries : List (Place × Entry)} (hnew : ∀ e ∈ entries, e.1 ≠ new) (p : Place) :
    (entries.map fun e => if e.1 = old then (new, e.2) else e).lookup p =
      if p = new then entries.lookup old else if p = old then none else entries.lookup p := by
  induction entries with
  | nil => simp
  | cons e rest ih =>
    obtain ⟨at_, entry⟩ := e
    obtain ⟨hne, hrest⟩ := List.forall_mem_cons.1 hnew
    have ih := ih hrest
    have hcons : ∀ (k : Place) es q, ((k, entry) :: es).lookup q = if q = k then some entry else es.lookup q := by
      intro k es q
      rw [List.lookup_cons]
      split <;> simp_all
    rw [List.map_cons, hcons at_ rest old, hcons at_ rest p]
    by_cases hat : at_ = old
    · subst hat
      rw [if_pos rfl, hcons, if_pos rfl, ih]
      split
      · rfl
      · split <;> rfl
    · rw [if_neg hat, hcons, ih, if_neg (Ne.symm hat)]
      by_cases hpat : p = at_
      · subst hpat
        simp [hat, hne]
      · simp [hpat]

/-- Without an entry that is no directory, all else is where it was. -/
theorem get?_cleared (ht : t.Sound) (hnew : t.get? new ≠ some .directory) (hp : p ≠ new) :
    ((t.erase new).eraseBelow new).get? p = t.get? p := by
  rw [get?_eraseBelow, get?_erase_of_ne t hp]
  split
  · rename_i hbelow
    cases hget : t.get? p with
    | none => rfl
    | some e => exact absurd (ht.directory_of_below hget hbelow) hnew
  · rfl

/-- **A file that is moved is at its new place and no longer at the old one**; all else is where it was. -/
theorem get?_move (ht : t.Sound) (hold : t.get? old = some (.file data)) (hnew : t.get? new ≠ some .directory)
    (hne : new ≠ old) (p : Place) : (t.move old new).get? p =
      if p = new then some (.file data) else if p = old then none else t.get? p := by
  have hroot : new ≠ [] := fun h => hnew (h ▸ t.get?_nil)
  have hroot' : old ≠ [] := fun h => by
    rw [h, t.get?_nil] at hold
    cases hold
  have hgone : ∀ e ∈ ((t.erase new).eraseBelow new).entries, e.1 ≠ new := by
    intro e he heq
    have hkept := (List.mem_filter.1 he).1
    exact of_decide_eq_true (List.mem_filter.1 hkept).2 heq
  have hmove : t.move old new =
      ⟨((t.erase new).eraseBelow new).entries.map fun e => if e.1 = old then (new, e.2) else e⟩ := by
    refine congrArg Tree.mk (List.map_congr_left fun e he => ?_)
    have hlisted : e ∈ t.entries := (List.mem_filter.1 (List.mem_filter.1 he).1).1
    obtain ⟨entry, hget⟩ := get?_of_mem hlisted
    by_cases heq : e.1 = old
    · rw [if_pos heq, if_pos (heq ▸ List.prefix_rfl), heq, List.drop_length, List.append_nil]
    · rw [if_neg heq, if_neg fun hway => heq (ht.eq_of_file hold hget hway)]
  have hlookup : ∀ q, q ≠ [] → q ≠ new → ((t.erase new).eraseBelow new).entries.lookup q = t.get? q := by
    intro q hq hqnew
    rw [← get?_cleared ht hnew hqnew, get?, if_neg hq]
  by_cases hp : p = []
  · subst hp
    rw [if_neg (Ne.symm hroot), if_neg (Ne.symm hroot'), get?_nil, get?_nil]
  · rw [hmove, get?, if_neg hp, lookup_rename hgone, hlookup old hroot' (Ne.symm hne), hold]
    split
    · rfl
    · rw [hlookup p hp ‹_›]

end Tree

/-! ### What a path names -/

namespace Disk

variable {d d' : Disk} {p : Path} {place : Place} {data : FileData}

/-- What stands where a path leads, and is no link, is what the path leads to. -/
theorem find_of_named {spot : Spot} (h : d.find p false = .ok spot)
    (hlink : ∀ place target, spot ≠ .found place (.link target)) : d.find p true = .ok spot := by
  obtain ⟨hfindable, hfollow⟩ := findText_eq_ok_iff.1 h
  exact findText_eq_ok_iff.2 ⟨hfindable, follow_of_named hfollow hlink⟩

/-- A path to what is no directory leads to what comes to stand in its place. -/
theorem Sound.find_replaced (hd : d.Sound) {spot : Spot} (h : d.find p false = .ok spot)
    (hspot : d.tree.get? spot.place ≠ some .directory) (hhere : d'.here = d.here)
    (hways : KeepsWays d.tree d'.tree) {entry : Entry} (hget : d'.tree.get? spot.place = some entry) :
    d'.find p false = .ok (.found spot.place entry) := by
  cases spot with
  | missing parent name => exact find_made h hhere hways hget
  | found at_ old =>
    have hold : old ≠ .directory := fun heq => hspot (heq ▸ get?_of_find h)
    obtain ⟨hfindable, hfollow⟩ := findText_eq_ok_iff.1 h
    refine findText_eq_ok_iff.2 ⟨hfindable, ?_⟩
    rw [hhere]
    exact follow_replaced hd.tree (Files.get?_start hd.here p.chars) hfollow hold hways hget

/-- **A file that is moved to a path stands where that leads**, links in last position not followed, and that was
no directory. -/
theorem Sound.rename_file (hd : d.Sound) {old new : Path}
    (hold : d.find old false = .ok (.found place (.file data))) (hlast : old.chars.getLast? ≠ some '/')
    (h : d.rename old new = .ok d') :
    ∃ spot, d.find new false = .ok spot ∧ d.tree.get? spot.place ≠ some .directory ∧ d'.here = d.here ∧
      ∀ p, d'.tree.get? p =
        if p = spot.place then some (.file data) else if p = place then none else d.tree.get? p := by
  have hget := get?_of_find hold
  unfold rename at h
  rw [findTrimmed_of_last hlast, hold] at h
  dsimp only at h
  split at h
  · cases h
  rename_i spot hfind
  split at h
  · cases h
  split at h
  · cases h
  rename_i hslash
  have hnew : new.chars.getLast? ≠ some '/' := fun hnew => hslash ⟨hnew, rfl⟩
  rw [findTrimmed_of_last hnew] at hfind
  have hmoved : ∀ at_, d.tree.get? at_ ≠ some .directory → at_ ≠ place → ∀ p,
      (d.tree.move place at_).get? p =
        if p = at_ then some (.file data) else if p = place then none else d.tree.get? p :=
    fun at_ hat hne p => Tree.get?_move hd.tree hget hat hne p
  have hself : ∀ p, d.tree.get? p =
      if p = place then some (.file data) else if p = place then none else d.tree.get? p := by
    intro p
    split
    · rename_i heq
      rw [heq, hget]
    · rfl
  cases spot with
  | missing parent name =>
    have hnone := get?_of_findText_missing hfind
    have hnot : d.tree.get? (parent ++ [name]) ≠ some .directory := by simp [hnone]
    dsimp only at h
    split at h
    · rename_i heq
      rw [heq, hget] at hnone
      cases hnone
    split at h
    · cases h
    · cases h
      exact ⟨_, hfind, hnot, rfl, hmoved _ hnot ‹_›⟩
  | found at_ entry =>
    have hthere := get?_of_find hfind
    dsimp only at h
    split at h
    · rename_i heq
      cases h
      refine ⟨_, hfind, ?_, rfl, fun p => ?_⟩
      · simp [Spot.place, heq, hget]
      · rw [Spot.place, heq]
        exact hself p
    rename_i hne
    split at h
    · cases h
    cases entry with
    | directory => cases h
    | file _ | link _ =>
      cases h
      have hnot : d.tree.get? at_ ≠ some .directory := by simp [hthere]
      exact ⟨_, hfind, hnot, rfl, hmoved _ hnot hne⟩

/-- The path leads to the file then, unless it named a link. -/
theorem Sound.read_renamed (hd : d.Sound) {old new : Path}
    (hold : d.find old false = .ok (.found place (.file data))) (hlast : old.chars.getLast? ≠ some '/')
    (h : d.rename old new = .ok d') (hlink : ∀ at_ target, d.find new false ≠ .ok (.found at_ (.link target))) :
    d'.read new = .ok data := by
  obtain ⟨spot, hfind, hspot, hhere, hget⟩ := hd.rename_file hold hlast h
  have hways : KeepsWays d.tree d'.tree := by
    intro q entry hq
    by_cases hnew : q = spot.place
    · cases spot with
      | missing parent name =>
        rw [hnew, Spot.place, get?_of_findText_missing hfind] at hq
        cases hq
      | found at_ e =>
        obtain rfl : q = at_ := hnew
        have hthere := get?_of_find hfind
        cases e with
        | file _ => exact .inr (deadEnd_file hd.tree hthere)
        | directory => exact absurd hthere hspot
        | link target => exact absurd hfind (hlink _ _)
    · by_cases hplace : q = place
      · exact .inr (deadEnd_file hd.tree (hplace ▸ get?_of_find hold))
      · exact .inl (by rw [hget, if_neg hnew, if_neg hplace, hq])
  have hnamed := hd.find_replaced hfind hspot hhere hways ((hget _).trans (if_pos rfl))
  rw [read, stat, find_of_named hnamed fun _ _ hspot => by cases hspot]

/-! ### Removing -/

theorem isFile_iff : d.isFile p = true ↔ ∃ place data, d.find p true = .ok (.found place (.file data)) := by
  unfold isFile stat
  split
  · rename_i entry hstat
    split at hstat
    · cases hstat
    · cases hstat
    · rename_i hfind
      cases hstat
      rw [hfind]
      cases entry <;> simp [Entry.isFile]
  · rename_i hstat
    constructor
    · intro hfalse
      cases hfalse
    · rintro ⟨place, data, hfind⟩
      rw [hfind] at hstat
      cases hstat

/-- What leads a path to a file stands at the place: the file, or a link to it. -/
def Occupies (d : Disk) (p : Path) (place : Place) : Prop :=
  d.isFile p = true ∧ ∃ entry, d.find p false = .ok (.found place entry)

namespace Occupies

theorem named (h : d.Occupies p place) : ∃ entry, d.find p false = .ok (.found place entry) ∧
    d.tree.get? place = some entry ∧ entry ≠ .directory := by
  obtain ⟨hfile, entry, hentry⟩ := h
  obtain ⟨at_, data, hfind⟩ := isFile_iff.1 hfile
  refine ⟨entry, hentry, get?_of_find hentry, ?_⟩
  rintro rfl
  unfold find at hfind hentry
  rcases findText_named hfind with hsame | ⟨q, target, hlink⟩
  · rw [hsame] at hentry
    cases hentry
  · rw [hlink] at hentry
    cases hentry

theorem deadEnd (hd : d.Sound) (h : d.Occupies p place) : DeadEnd d.tree place := by
  obtain ⟨entry, hfind, -, hentry⟩ := h.named
  obtain ⟨at_, data, hfile⟩ := isFile_iff.1 h.1
  exact deadEnd_named hd.tree (Files.get?_start hd.here p.chars) (findText_eq_ok_iff.1 hfind).2 hentry
    (findText_eq_ok_iff.1 hfile).2

theorem not_directory (h : d.Occupies p place) : d.tree.get? place ≠ some .directory := by
  obtain ⟨entry, -, hget, hentry⟩ := h.named
  rw [hget]
  exact fun heq => hentry (Option.some.inj heq)

/-- The path goes on leading to the place, whatever stands there by now, if anything does. -/
theorem find_place (hd : d.Sound) (h : d.Occupies p place) (hhere : d'.here = d.here)
    (hways : KeepsWays d.tree d'.tree) : ∃ spot, d'.find p false = .ok spot ∧ spot.place = place := by
  obtain ⟨entry, hfind, -, hentry⟩ := h.named
  cases hget : d'.tree.get? place with
  | some e => exact ⟨.found place e, hd.find_replaced hfind h.not_directory hhere hways hget, rfl⟩
  | none =>
    obtain ⟨hfindable, hfollow⟩ := findText_eq_ok_iff.1 hfind
    obtain ⟨parent, name, hplace, hmissing⟩ :=
      follow_removed hd.tree (Files.get?_start hd.here p.chars) hfollow hentry hways hget
    refine ⟨.missing parent name, findText_eq_ok_iff.2 ⟨hfindable, ?_⟩, hplace.symm⟩
    rw [hhere]
    exact hmissing

theorem ne_nil (h : d.Occupies p place) : place ≠ [] := by
  rintro rfl
  exact h.not_directory d.tree.get?_nil

end Occupies

theorem exists_occupies (h : d.isFile p = true) : ∃ place, d.Occupies p place := by
  obtain ⟨place, data, hfind⟩ := isFile_iff.1 h
  rcases findText_named hfind with hsame | ⟨q, target, hlink⟩
  · exact ⟨place, h, _, hsame⟩
  · exact ⟨q, h, _, hlink⟩

/-- `d'` lacks what leads a path to a file of `d`, and may hold more directories; all else is as it was. -/
structure Cleared (d : Disk) (p : Path) (d' : Disk) : Prop where
  sound : d'.Sound
  here : d'.here = d.here
  now : d'.now = d.now
  kept : ∀ q entry, d.tree.get? q = some entry → d'.tree.get? q = some entry ∨ d.Occupies p q
  gained : ∀ q entry, d'.tree.get? q = some entry → d.tree.get? q = some entry ∨ entry = .directory
  gone : ∀ q entry, d.Occupies p q → d'.tree.get? q = some entry → entry = .directory

namespace Cleared

theorem of_free (hd : d.Sound) (h : d.isFile p = false) : Cleared d p d where
  sound := hd
  here := rfl
  now := rfl
  kept _ _ hget := .inl hget
  gained _ _ hget := .inl hget
  gone _ _ hplace := by
    rw [hplace.1] at h
    cases h

theorem of_erase (hd : d.Sound) (h : d.Occupies p place) : Cleared d p {d with tree := d.tree.erase place} := by
  obtain ⟨entry, hfind, -⟩ := h.named
  have hget := d.tree.get?_erase h.ne_nil
  have hsame : ∀ q, d.Occupies p q → q = place := by
    intro q hq
    obtain ⟨e, hfind', -⟩ := hq.named
    rw [hfind] at hfind'
    cases hfind'
    rfl
  have hbelow : ∀ name, d.tree.get? (place ++ [name]) = none := by
    intro name
    cases hchild : d.tree.get? (place ++ [name]) with
    | none => rfl
    | some e => exact absurd (hd.tree.parent _ _ _ hchild) h.not_directory
  refine ⟨⟨hd.tree.erase h.ne_nil hbelow, ?_⟩, rfl, rfl, fun q e hq => ?_, fun q e hq => .inl (Tree.get?_of_erase hq),
    fun q e hq hget' => ?_⟩
  · show (d.tree.erase place).get? d.here = _
    rw [hget, if_neg, hd.here]
    exact fun heq => h.not_directory (heq ▸ hd.here)
  · by_cases heq : q = place
    · exact .inr (heq ▸ h)
    · exact .inl (((hget q).trans (if_neg heq)).trans hq)
  · change (d.tree.erase place).get? q = some e at hget'
    rw [hget, if_pos (hsame q hq)] at hget'
    cases hget'

theorem admitsDirectories (d : Disk) (p : Path) : AdmitsDirectories (Cleared d p) where
  sound h := h.sound
  make {d' parent name} h hparent hnone hname := by
    have hset : ∀ q, (d'.put (parent ++ [name]) .directory).tree.get? q =
        if q = parent ++ [name] then some .directory else d'.tree.get? q :=
      d'.tree.get?_set (append_singleton_ne_nil parent name) .directory
    refine ⟨h.sound.put hparent hname (by simp [hnone]), h.here, h.now, fun q e hget => ?_, fun q e hget => ?_,
      fun q e hq hget => ?_⟩
    · refine (h.kept q e hget).imp_left fun hkept => (hset q).trans ((if_neg ?_).trans hkept)
      rintro rfl
      rw [hkept] at hnone
      cases hnone
    · rw [hset] at hget
      split at hget
      · cases hget
        exact .inr rfl
      · exact h.gained q e hget
    · rw [hset] at hget
      split at hget
      · cases hget
        rfl
      · exact h.gone q e hq hget

theorem keepsWays (hd : d.Sound) (h : Cleared d p d') : KeepsWays d.tree d'.tree :=
  fun q entry hget => (h.kept q entry hget).imp_right fun hq => hq.deadEnd hd

end Cleared

end Disk

/-- A file is removed where there is one. -/
theorem removeFile_clears {p : Path} {w : World} (hw : w.disk.Sound) :
    ∃ d, removeFile p w = (.ok (), {w with disk := d}) ∧ Disk.Cleared w.disk p d := by
  cases hfile : w.disk.isFile p with
  | false => exact ⟨w.disk, removeFile_of_free hfile, .of_free hw hfile⟩
  | true =>
    obtain ⟨place, hplace⟩ := Disk.exists_occupies hfile
    obtain ⟨entry, hfind, -, hentry⟩ := hplace.named
    refine ⟨_, ?_, .of_erase hw hplace⟩
    have hdisk : Act.disk w = (.ok w.disk, w) := rfl
    rw [removeFile, Act.bind_of_ok hdisk, hfile]
    simp only [if_true, Act.change, Disk.unlink, hfind]

end PluginShading.Files
