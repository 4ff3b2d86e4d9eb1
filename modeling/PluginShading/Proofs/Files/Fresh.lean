import Mathlib.Data.List.GetD
import PluginShading.Proofs.Files.Site

/-!
Files and directories with fresh names.

A fresh directory is a `Site` to build in (`freshDirectory_cases`). A fresh file that is cleaned up again
leaves the disk exactly as it was (`freshFile_cases`).
-/
namespace PluginShading.Files

open Act (bind_apply)
open Disk (withoutSlash)

/-! ### Names -/

theorem mem_randomName {count n : Nat} {c : Char} (h : c ∈ randomName count n) :
    c ∈ nameCharacters := by
  induction count generalizing n with
  | zero => cases h
  | succ count ih =>
    rcases List.mem_cons.1 h with rfl | h
    · have hlt : n % nameCharacters.length < nameCharacters.length := Nat.mod_lt _ (by decide)
      rw [List.getD_eq_getElem _ _ hlt]
      exact List.getElem_mem hlt
    · exact ih h

theorem randomName_ne_nil (n : Nat) : randomName 6 n ≠ [] := by
  rw [randomName]
  exact List.cons_ne_nil _ _

theorem toList_freshName (lead : String) (seed : UInt64) :
    (freshName lead seed).toList = lead.toList ++ randomName 6 (seed.toNat / 16) := by
  rw [freshName, String.toList_append, String.toList_ofList]

theorem slash_not_mem_nameCharacters : '/' ∉ nameCharacters := by decide

theorem slash_not_mem_freshName {lead : String} (hlead : '/' ∉ lead.toList) (seed : UInt64) :
    '/' ∉ (freshName lead seed).toList := by
  intro hmem
  rw [toList_freshName, List.mem_append] at hmem
  rcases hmem with hmem | hmem
  · exact hlead hmem
  · exact slash_not_mem_nameCharacters (mem_randomName hmem)

theorem freshName_ne_nil (lead : String) (seed : UInt64) : (freshName lead seed).toList ≠ [] := by
  rw [toList_freshName]
  exact fun hnil => randomName_ne_nil _ (List.append_eq_nil_iff.1 hnil).2

section FreshPath

variable {folder : Path} (hfolder : folder.isAbsolute = true) {lead : String} (hlead : '/' ∉ lead.toList)
include hfolder hlead

/-- A fresh path in a folder. -/
theorem freshPath_absolute (seed : UInt64) : (folder.join ⟨freshName lead seed⟩).isAbsolute = true ∧
    (folder.join ⟨freshName lead seed⟩).chars.getLast? ≠ some '/' ∧
    namesIn (folder.join ⟨freshName lead seed⟩).chars = namesIn folder.chars ++ [freshName lead seed] := by
  have hne : folder.chars ≠ [] := by
    intro h
    simp [Path.isAbsolute, h] at hfolder
  have hfree := slash_not_mem_freshName hlead seed
  have hname := freshName_ne_nil lead seed
  have hchars : (Path.mk (freshName lead seed)).chars = (freshName lead seed).toList := rfl
  have hrelative : (Path.mk (freshName lead seed)).isAbsolute = false := by
    rw [Path.isAbsolute, beq_eq_false_iff_ne]
    exact fun hhead => hfree (List.mem_of_mem_head? hhead)
  refine ⟨?_, ?_, ?_⟩
  · rw [Path.isAbsolute, head?_join hrelative hne]
    exact hfolder
  · rw [chars_join hrelative hne, hchars]
    split
    · rw [List.getLast?_append_of_ne_nil _ hname]
      exact fun hlast => hfree (List.mem_of_getLast? hlast)
    · rw [List.getLast?_append_of_ne_nil _ (List.cons_ne_nil _ _), List.getLast?_cons_of_ne_nil hname]
      exact fun hlast => hfree (List.mem_of_getLast? hlast)
  · rw [namesIn_join hrelative hne, hchars, namesIn_singleton hname hfree, String.ofList_toList]

end FreshPath

theorem absolute_apply (p : Path) (w : World) :
    absolute p w = (.ok ((Disk.pathOf w.disk.here).join p), w) := rfl

theorem isAbsolute_absolute (place : Place) (p : Path) : ((Disk.pathOf place).join p).isAbsolute = true := by
  have hhead : (Disk.pathOf place).chars.head? = some '/' := by
    show ("/" ++ String.intercalate "/" place).toList.head? = _
    rw [String.toList_append]
    rfl
  by_cases hp : p.isAbsolute = true
  · rw [Path.join, if_pos hp]
    exact hp
  · rw [Path.isAbsolute, head?_join (by simpa using hp), hhead]
    · rfl
    · intro h
      rw [h] at hhead
      cases hhead

/-! ### Making something fresh -/

/-- Trying one name after another changes nothing until a name is free. -/
theorem makeFresh_cases (make : Disk → Path → Except IoError Disk) (note : Note) (folder : Path)
    (lead : String) (fuel : Nat) (w : World) :
    (∃ f w', makeFresh make note folder lead fuel w = (.error f, w') ∧ w'.disk = w.disk) ∨
      ∃ seed w', makeFresh make note folder lead fuel w = (.ok (folder.join ⟨freshName lead seed⟩), w') ∧
        make w.disk (folder.join ⟨freshName lead seed⟩) = .ok w'.disk := by
  induction fuel generalizing w with
  | zero => exact .inl ⟨_, w, rfl, rfl⟩
  | succ fuel ih =>
    obtain ⟨next, hrandom⟩ := Act.exists_random w
    rw [makeFresh, bind_apply, hrandom]
    dsimp only
    cases hmake : make w.disk (folder.join ⟨freshName lead w.seed⟩) with
    | ok d => exact .inr ⟨w.seed, _, rfl, hmake⟩
    | error e =>
      cases e with
      | alreadyExists => exact ih {w with seed := next}
      | _ => exact .inl ⟨_, _, rfl, rfl⟩

/-! ### Directories -/

/-- A path at which a directory was made is a site. -/
theorem exists_site {d d' : Disk} (hd : d.Sound) {p : Path} (habsolute : p.isAbsolute = true)
    (hlast : p.chars.getLast? ≠ some '/') (h : d.makeDirectory p = .ok d') :
    ∃ s : Site, s.base = d ∧ s.path = p ∧ Inside s d' := by
  obtain ⟨parent, name, hfind, hparent, hnone, hname, rfl⟩ := hd.makeDirectory_eq_ok h
  rw [withoutSlash_eq_self hlast] at hfind
  let s : Site := ⟨d, p, parent, name, hd, habsolute, hlast, hfind⟩
  have hset := d.tree.get?_set (append_singleton_ne_nil parent name) .directory
  have hgrown := (Grown.admitsDirectories d).make (Grown.refl hd) hparent hnone hname
  have hstaged : Staged s (d.put (parent ++ [name]) .directory) :=
    { sound := hgrown.sound
      here := rfl
      kept := hgrown.kept
      gained := fun q e hget => (hgrown.gained q e hget).imp_right .inl
      made := (hset _).trans (if_pos rfl) }
  refine ⟨s, rfl, rfl, hstaged, fun q hq => (hset q).trans (if_neg ?_)⟩
  rintro rfl
  exact hq List.prefix_rfl

theorem freshDirectory_cases {note : Note} {folder : Path} {lead : String} (hlead : '/' ∉ lead.toList)
    {w : World} (hw : w.disk.Sound) :
    (∃ f w', freshDirectory note folder lead w = (.error f, w') ∧ w'.disk = w.disk) ∨
      ∃ s w', freshDirectory note folder lead w = (.ok s.path, w') ∧ s.base = w.disk ∧
        Inside s w'.disk := by
  rw [freshDirectory, bind_apply, absolute_apply]
  dsimp only
  rcases makeFresh_cases Disk.makeDirectory note ((Disk.pathOf w.disk.here).join folder) lead attempts w
    with h | ⟨seed, w', hrun, hmade⟩
  · exact .inl h
  · obtain ⟨habsolute, hlast, -⟩ := freshPath_absolute (isAbsolute_absolute w.disk.here folder) hlead seed
    obtain ⟨s, hbase, hpath, hinside⟩ := exists_site hw habsolute hlast hmade
    exact .inr ⟨s, w', by rw [hpath]; exact hrun, hbase, hinside⟩

/-! ### Files -/

/-- What was not there and is erased again is as if it had never been there. -/
theorem Tree.erase_set {t : Tree} {p : Place} (hp : p ≠ []) (h : t.get? p = none) (e : Entry) :
    (t.set p e).erase p = t := by
  have hnone : ∀ x ∈ t.entries, x.1 ≠ p := by
    rw [get?, if_neg hp, List.lookup_eq_none_iff] at h
    intro x hx heq
    simpa [heq] using h x hx
  have hall : t.entries.filter (fun x => decide (x.1 ≠ p)) = t.entries := by
    rw [List.filter_eq_self]
    exact fun x hx => decide_eq_true (hnone x hx)
  simp only [set, erase, List.filter_cons, ne_eq, not_true_eq_false, decide_false, Bool.false_eq_true,
    if_false]
  rw [hall, hall]

/-- A file that is made and removed again leaves no trace. -/
theorem withoutFile_put {d : Disk} {p : Path} {parent : Place} {name : String} {data : FileData}
    (h : d.find p false = .ok (.missing parent name)) : (d.put (parent ++ [name]) (.file data)).withoutFile p = d := by
  have hnone := Disk.get?_of_findText_missing h
  have hne := append_singleton_ne_nil parent name
  simp only [Disk.withoutFile, Disk.unlink, Disk.find_put h]
  simp only [Disk.put, Tree.erase_set hne hnone]

/-- A fresh file stands where nothing was, and goes by a fresh name. -/
theorem freshFile_cases (note : Note) (folder : Path) (w : World) :
    (∃ f w', freshFile note folder w = (.error f, w') ∧ w'.disk = w.disk) ∨
      ∃ p w' parent seed, freshFile note folder w = (.ok p, w') ∧ p.chars.getLast? ≠ some '/' ∧
        w.disk.find p false = .ok (.missing parent (freshName ".tmp" seed)) ∧
        w'.disk = w.disk.put (parent ++ [freshName ".tmp" seed]) (.file ⟨[], w.disk.now, false⟩) := by
  rw [freshFile, bind_apply, absolute_apply]
  dsimp only
  rcases makeFresh_cases Disk.createNew note ((Disk.pathOf w.disk.here).join folder) ".tmp" attempts w
    with h | ⟨seed, w', hrun, hmade⟩
  · exact .inl h
  · have hlead : '/' ∉ (".tmp" : String).toList := by decide
    obtain ⟨-, hlast, hnames⟩ := freshPath_absolute (isAbsolute_absolute w.disk.here folder) hlead seed
    unfold Disk.createNew at hmade
    rw [Disk.findTrimmed_of_last hlast] at hmade
    split at hmade
    · cases hmade
    · cases hmade
    · rename_i parent name hfind
      have hname := (missing_last_step (Disk.findText_eq_ok_iff.1 hfind).2).1
      rw [steps_eq, if_neg hlast, List.append_nil, hnames, List.getLast?_concat] at hname
      cases hname
      exact .inr ⟨_, w', parent, seed, hrun, hlast, hfind, (Except.ok.inj hmade).symm⟩

end PluginShading.Files
