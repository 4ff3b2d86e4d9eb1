import Mathlib.Data.List.Sort
import PluginShading.Archive.Package
import PluginShading.Proofs.Files.Descent
import PluginShading.Proofs.Files.Follow
import PluginShading.Proofs.Files.Listing

/-!
What an archive of a directory lists.

The entries are the regular files below the directory, each once, in the order of their lists of names, and each is
called by these names (`collect_lists`). The directory may be written in any way that leads to it. Since a directory
is opened by the whole of its path, that of a directory further down can be too long, and then nothing is listed
(`long_directory_not_listed`).
-/
namespace PluginShading

namespace Path

open Files (isName isName_iff)

variable {names : List String} {name : String}

/-! ### Relative paths -/

theorem components_single (h : isName name = true) : Path.components ⟨name⟩ = [.name name] := by
  have hfree := (isName_iff.1 h).2.1
  rw [components, chars, lead_name h, Text.pieces_of_not_mem hfree, List.nil_append,
    List.filterMap_cons_some (component?_name h), List.filterMap_nil]

theorem join_name {root : Path} (hroot : root.chars ≠ []) (hlast : root.chars.getLast? ≠ some '/')
    (h : isName name = true) : root.join ⟨name⟩ = ⟨root.text ++ "/" ++ name⟩ := by
  rw [join, isAbsolute_name h, if_neg (by simp), if_neg (not_or.2 ⟨hroot, hlast⟩)]

/-- Names that lead down are written with separators in front of them. -/
theorem text_under {root : Path} (hroot : root.chars ≠ []) (hlast : root.chars.getLast? ≠ some '/')
    (hnames : ∀ n ∈ names, isName n = true) : root.under names = ⟨String.intercalate "/" (root.text :: names)⟩ := by
  induction names generalizing root with
  | nil => rfl
  | cons name more ih =>
    obtain ⟨hname, hmore⟩ := List.forall_mem_cons.1 hnames
    have hjoin := ih (join_ne_nil root hname) (getLast?_join root hname) hmore
    rw [join_name hroot hlast hname] at hjoin
    show (root.join ⟨name⟩).under more = _
    rw [join_name hroot hlast hname, hjoin, String.intercalate_cons_cons]
    cases more with
    | nil => rfl
    | cons second more => simp only [String.intercalate_cons_cons, String.append_assoc]

/-- Names that lead down from nowhere are a path of these names. -/
theorem components_intercalate (hnames : ∀ n ∈ names, isName n = true) :
    Path.components ⟨String.intercalate "/" names⟩ = names.map .name := by
  cases names with
  | nil => rfl
  | cons name more =>
    obtain ⟨hname, hmore⟩ := List.forall_mem_cons.1 hnames
    obtain ⟨hne, hfree, -⟩ := isName_iff.1 hname
    have hroot : Path.chars ⟨name⟩ ≠ [] := hne
    have hlast : (Path.chars ⟨name⟩).getLast? ≠ some '/' := fun h => hfree (List.mem_of_getLast? h)
    rw [← text_under hroot hlast hmore, components_under hmore, components_single hname]
    rfl

theorem under_empty (hnames : ∀ n ∈ names, isName n = true) :
    (⟨""⟩ : Path).under names = ⟨String.intercalate "/" names⟩ := by
  cases names with
  | nil => rfl
  | cons name more =>
    obtain ⟨hname, hmore⟩ := List.forall_mem_cons.1 hnames
    obtain ⟨hne, hfree, -⟩ := isName_iff.1 hname
    show ((⟨""⟩ : Path).join ⟨name⟩).under more = _
    rw [join_empty]
    exact text_under hne (fun h => hfree (List.mem_of_getLast? h)) hmore

theorem relativeComponents_append (front rest : List Component) :
    relativeComponents (front ++ rest) front [] = some rest := by
  induction front with
  | nil => cases rest <;> rfl
  | cons c front ih => rw [List.cons_append, relativeComponents, if_pos ⟨rfl, rfl⟩, ih]

/-- From a path to what lies below it lead the names. -/
theorem relativeTo_under {root : Path} (hnames : ∀ n ∈ names, isName n = true) :
    (root.under names).relativeTo root = (⟨""⟩ : Path).under names := by
  rw [relativeTo, isAbsolute_under hnames, if_neg (by simp), components_under hnames, relativeComponents_append]
  simp only [ofComponents, under, List.foldl_map]
  rfl

end Path

namespace Archive

open Files (Place Tree isName pathLimit)

/-! ### Entries -/

/-- The entry for the file that lies by these names below a directory. -/
def Entry.below (directory : Path) (names : Place) : Entry := ⟨String.intercalate "/" names, directory.under names⟩

theorem at_under {directory : Path} {names : Place} (hnames : ∀ n ∈ names, isName n = true) :
    Entry.at directory (directory.under names) = Entry.below directory names := by
  have htext : Component.text ∘ Component.name = id := rfl
  rw [Entry.at, Path.relativeTo_under hnames, Path.under_empty hnames, Path.components_intercalate hnames,
    List.map_map, htext, List.map_id]
  rfl

/-- The rows are the regular files below a place, each once and in order, and each can be told by its text. -/
structure Lists (t : Tree) (place : Place) (rows : List Place) : Prop where
  files : ∀ names, names ∈ rows ↔ names ≠ [] ∧ ∃ data, t.get? (place ++ names) = some (.file data)
  sorted : rows.Pairwise (· < ·)
  named : ∀ names ∈ rows, ∀ n ∈ names, isName n = true
  components : ∀ names ∈ rows, Path.components ⟨String.intercalate "/" names⟩ = names.map .name
  distinct : (rows.map (String.intercalate "/")).Nodup

theorem lists_fileNames {t : Tree} (ht : t.Sound) (hd : t.Distinct) (place : Place) :
    Lists t place (t.fileNames place) := by
  have hfiles : ∀ names, names ∈ t.fileNames place ↔ names ≠ [] ∧ ∃ data, t.get? (place ++ names) = some (.file data) :=
    fun _ => Tree.mem_fileNames_iff ht hd
  have hsorted := Tree.fileNames_sorted hd place
  have hnamed : ∀ names ∈ t.fileNames place, ∀ n ∈ names, isName n = true := by
    intro names hmem
    obtain ⟨-, data, hget⟩ := (hfiles names).1 hmem
    exact ht.names hget
  refine ⟨hfiles, hsorted, hnamed, fun names hmem => Path.components_intercalate (hnamed names hmem), ?_⟩
  refine List.Nodup.map_on (fun a ha b hb heq => ?_) (hsorted.imp fun hlt => ne_of_lt hlt)
  have hsame := Path.components_intercalate (hnamed a ha)
  rw [heq, Path.components_intercalate (hnamed b hb)] at hsame
  exact (List.map_injective_iff.2 (fun _ _ => Component.name.inj) hsame).symm

/-- **A directory is listed completely**: every regular file below it, and nothing else, once, in the order of the
lists of names, and called by them. That is unless a directory at or below it, as it is written from there, has a
path that is too long; then nothing is listed. -/
theorem collect_lists {w : World} {directory : Path} {place : Place} (ht : w.disk.tree.Sound)
    (hd : w.disk.tree.Distinct) (hplace : w.disk.find directory true = .ok (.found place .directory)) :
    (∀ names, w.disk.tree.get? (place ++ names) = some .directory →
        (directory.under names).text.utf8ByteSize < pathLimit) ∧
      (∃ rows, Lists w.disk.tree place rows ∧
        collect directory w = (.ok (rows.map (Entry.below directory)), w)) ∨
    ∃ names, w.disk.tree.get? (place ++ names) = some .directory ∧
      pathLimit ≤ (directory.under names).text.utf8ByteSize ∧
      collect directory w = (.error ⟨[.walk directory], some (.walk (directory.under names) .nameTooLong)⟩, w) := by
  have hlists := lists_fileNames ht hd place
  rcases Files.Disk.regularFiles_cases ht hd hplace with ⟨hshort, hfiles⟩ | ⟨names, hget, hlong, hfiles⟩
  · refine .inl ⟨hshort, _, hlists, ?_⟩
    have hat : (w.disk.tree.fileNames place).map (fun names => Entry.at directory (Files.below directory names)) =
        (w.disk.tree.fileNames place).map (Entry.below directory) :=
      List.map_congr_left fun names hmem => at_under (hlists.named names hmem)
    rw [collect, hfiles]
    exact congrArg (fun entries => (Except.ok entries, w)) hat
  · refine .inr ⟨names, hget, hlong, ?_⟩
    rw [collect, hfiles]

/-- The rows are determined by what lies below. -/
theorem Lists.unique {t : Tree} {place : Place} {rows rows' : List Place} (h : Lists t place rows)
    (h' : Lists t place rows') : rows = rows' :=
  h.sorted.eq_of_mem_iff h'.sorted fun names => (h.files names).trans (h'.files names).symm

/-- The statement holds of a directory with a file whose name begins with that of a directory beside it: as lists of
names they stand the other way round than as texts. -/
theorem exists_collect_lists : ∃ w directory place rows, w.disk.tree.Sound ∧ w.disk.tree.Distinct ∧
    w.disk.find directory true = .ok (.found place .directory) ∧ Lists w.disk.tree place rows ∧
    collect directory w = (.ok (rows.map (Entry.below directory)), w) ∧ rows = [["a", "x"], ["a.txt"]] := by
  let w : World := {disk := {tree := ⟨[(["d"], .directory), (["d", "a.txt"], .file ⟨[], 0, false⟩),
    (["d", "a"], .directory), (["d", "a", "x"], .file ⟨[], 0, false⟩), (["d", "l"], .link "a")]⟩}}
  let directory : Path := ⟨"./d/../d"⟩
  have ht : w.disk.tree.Sound := by decide +kernel
  have hd : w.disk.tree.Distinct := by decide +kernel
  have hplace : w.disk.find directory true = .ok (.found ["d"] .directory) := by decide +kernel
  rcases collect_lists ht hd hplace with ⟨-, rows, hlists, hcollect⟩ | ⟨names, hget, hlong, -⟩
  · refine ⟨w, directory, _, rows, ht, hd, hplace, hlists, hcollect, ?_⟩
    refine hlists.sorted.eq_of_mem_iff (by decide +kernel) fun names => (hlists.files names).trans ?_
    have hfile : ∀ data, w.disk.tree.get? (["d"] ++ names) = some (.file data) ↔
        (["d"] ++ names, .file data) ∈ w.disk.tree.entries :=
      fun data => Tree.get?_eq_some_iff hd (List.cons_ne_nil "d" names)
    simp only [hfile]
    simp only [w, List.mem_cons, List.not_mem_nil, Prod.mk.injEq, List.cons_append, List.nil_append,
      List.cons.injEq, true_and, reduceCtorEq, and_false, or_false, false_or, Files.Entry.file.injEq]
    constructor
    · rintro ⟨-, data, ⟨rfl, -⟩ | ⟨rfl, -⟩⟩
      · exact .inr rfl
      · exact .inl rfl
    · rintro (rfl | rfl)
      · exact ⟨List.cons_ne_nil _ _, _, .inr ⟨rfl, rfl⟩⟩
      · exact ⟨List.cons_ne_nil _ _, _, .inl ⟨rfl, rfl⟩⟩
  · have hmem := (Tree.get?_eq_some_iff hd (List.cons_ne_nil _ _)).1 hget
    have hnames : names = [] ∨ names = ["a"] := by simpa [w] using hmem
    rcases hnames with rfl | rfl <;> exact absurd hlong (by decide +kernel)

theorem size_replicate (c : Char) (count : Nat) :
    (String.ofList (List.replicate count c)).utf8ByteSize = count * c.utf8Size := by
  rw [String.utf8ByteSize_ofList]
  induction count with
  | zero => rw [Nat.zero_mul]; rfl
  | succ count ih => rw [List.replicate_succ, String.utf8Len_cons, ih, Nat.succ_mul]

/-- The path of a directory below is too long: its file is not listed, and neither is any other. -/
theorem long_directory_not_listed : ∃ w directory place, w.disk.tree.Sound ∧ w.disk.tree.Distinct ∧
    w.disk.find directory true = .ok (.found place .directory) ∧
    (∃ data, w.disk.tree.get? (place ++ ["a", "f.txt"]) = some (.file data)) ∧
    (collect directory w).1.toOption = none := by
  let w : World := {disk := {tree := ⟨[(["d"], .directory), (["d", "a"], .directory),
    (["d", "a", "f.txt"], .file ⟨[], 0, false⟩)]⟩}}
  have ht : w.disk.tree.Sound := by decide +kernel
  have hd : w.disk.tree.Distinct := by decide +kernel
  -- The number is kept from being computed with.
  obtain ⟨count, hcount⟩ : ∃ count, count = 4094 := ⟨_, rfl⟩
  let directory : Path := ⟨"d" ++ String.ofList (List.replicate count '/')⟩
  have hchars : directory.chars = ['d'] ++ List.replicate count '/' := by simp [directory, Path.chars]
  have hlast : directory.chars.getLast? = some '/' := by
    have hne : List.replicate count '/' ≠ [] := List.replicate_eq_nil_iff _ |>.not.2 (by omega)
    rw [hchars, List.getLast?_append_of_ne_nil _ hne, List.getLast?_replicate, if_neg (by omega)]
  have hsize : directory.text.utf8ByteSize = 1 + count * 1 := by
    rw [String.utf8ByteSize_append, size_replicate]
    rfl
  have hplace : w.disk.find directory true = .ok (.found ["d"] .directory) := by
    refine Files.Disk.findText_eq_ok_iff.2 ⟨⟨by simp [hchars], by simp [hchars], ?_⟩, ?_⟩
    · rw [Path.chars, String.ofList_toList, hsize, hcount]
      decide
    · have hhead : directory.chars.head? = some 'd' := by rw [hchars]; rfl
      rw [Files.steps_eq, if_pos hlast, hhead, hchars, Files.namesIn_separators]
      decide +kernel
  have hlong : pathLimit ≤ (directory.under ["a"]).text.utf8ByteSize := by
    have hjoin : directory.under ["a"] = ⟨directory.text ++ "a"⟩ := by
      show directory.join ⟨"a"⟩ = _
      rw [Path.join, if_neg (by decide), if_pos (.inr hlast)]
    rw [hjoin, String.utf8ByteSize_append, hsize, hcount]
    decide
  refine ⟨w, directory, ["d"], ht, hd, hplace, ⟨_, rfl⟩, ?_⟩
  rcases Files.Disk.regularFiles_cases ht hd hplace with ⟨hshort, -⟩ | ⟨names, -, -, hfiles⟩
  · exact absurd hlong (Nat.not_le.2 (hshort ["a"] rfl))
  · rw [collect, hfiles]
    rfl

end Archive

end PluginShading
