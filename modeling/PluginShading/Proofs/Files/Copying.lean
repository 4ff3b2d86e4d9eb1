import PluginShading.Proofs.Files.Site

/-!
What copying and writing keep.

A copy goes where its target says, and what it finds in a directory goes below that by names that lead
down, since names of entries have no separators in them (`leadsDown_of_isName`). So a copy keeps what each file and
directory on the way keeps (`AdmitsCopies.copy`): whatever the source is, a copy to a path of a site changes nothing
but in the site (`Inside.copy_keeps`), also where it fails half-way.
-/
namespace PluginShading.Files

open Act (Ensures Keeps)

/-! ### Names of entries -/

theorem Tree.get?_of_mem_children {t : Tree} {p : Place} {name : String} {entry : Entry}
    (h : (name, entry) ∈ t.children p) : ∃ e, t.get? (p ++ [name]) = some e := by
  obtain ⟨⟨names, e⟩, hbelow, hname⟩ := List.mem_filterMap.1 h
  obtain ⟨⟨place, e'⟩, hlisted, heq⟩ := List.mem_map.1 (List.mem_mergeSort.1 hbelow)
  obtain ⟨hlisted, hb⟩ := List.mem_filter.1 hlisted
  obtain ⟨rest, rfl⟩ := (of_decide_eq_true hb).1
  cases heq
  rw [List.drop_left] at hname
  split at hname
  · rename_i only hrest
    cases hname
    rw [← show rest = [name] from hrest]
    exact get?_of_mem hlisted
  · cases hname

theorem Disk.Sound.isName_of_mem_list {d : Disk} (hd : d.Sound) {p : Path}
    {entries : List (String × Entry)} (h : d.list p = .ok entries) :
    ∀ e ∈ entries, isName e.1 = true := by
  intro e he
  unfold Disk.list at h
  split at h
  · cases h
  · cases h
  split at h
  · cases h
    obtain ⟨entry, hget⟩ := Tree.get?_of_mem_children he
    exact hd.tree.named _ _ _ hget
  · cases h

/-! ### What copies keep -/

/-- `I` is about sound disks and stays true when directories are made and files are written at paths of `A`, and a
name behind a path of `A` gives one of `A`. -/
structure AdmitsCopies (I : Disk → Prop) (A : Path → Prop) : Prop where
  sound : ∀ {d}, I d → d.Sound
  create : ∀ {p}, A p → Keeps I (createDirectories p)
  above : ∀ {p}, A p → Keeps I (ensureParent p)
  write : ∀ {d d' p bytes executable}, I d → A p → d.write p bytes executable = .ok d' → I d'
  mark : ∀ {d p place data new}, I d → A p → d.find p true = .ok (.found place (.file data)) →
    I (d.put place (.file new))
  join : ∀ {p name}, A p → isName name = true → A (p.join ⟨name⟩)

namespace AdmitsCopies

variable {I : Disk → Prop} {A : Path → Prop} {d d' : Disk} {source target : Path}

/-- The file is written twice, and then its mode is set. -/
theorem copyData (hI : AdmitsCopies I A) (hd : I d) (ht : A target) (h : Files.copyData source target d = .ok d') :
    I d' := by
  unfold Files.copyData at h
  cases hread : d.read source with
  | error e => rw [hread] at h; cases h
  | ok data =>
    rw [hread] at h
    dsimp only at h
    cases hopen : d.write target [] data.executable with
    | error e => rw [hopen] at h; cases h
    | ok opened =>
      have hd := hI.write hd ht hopen
      rw [hopen] at h
      dsimp only at h
      cases hleft : opened.read source with
      | error e => rw [hleft] at h; cases h
      | ok left =>
        rw [hleft] at h
        dsimp only at h
        cases hwrite : opened.write target left.bytes data.executable with
        | error e => rw [hwrite] at h; cases h
        | ok written =>
          have hd := hI.write hd ht hwrite
          rw [hwrite] at h
          dsimp only at h
          split at h
          · rename_i place copy hfind
            cases h
            exact hI.mark hd ht hfind
          · cases h
            exact hd

theorem copyFile (hI : AdmitsCopies I A) (ht : A target) : Keeps I (copyFile source target) :=
  Ensures.change fun _ _ hd h => hI.copyData hd ht h

theorem copyDirectory (hI : AdmitsCopies I A) (fuel : Nat) (source : Path) (ht : A target) :
    Keeps I (copyDirectory fuel source target) := by
  induction fuel generalizing source target with
  | zero =>
    unfold Files.copyDirectory
    refine Ensures.bind (hI.create ht) fun _ _ => ?_
    exact Ensures.bind (Q := fun _ => True) (Ensures.ask fun _ _ _ _ => trivial)
      fun _ _ => Ensures.pure trivial
  | succ fuel ih =>
    unfold Files.copyDirectory
    refine Ensures.bind (hI.create ht) fun _ _ => ?_
    refine Ensures.bind (Ensures.ask fun d entries hd h => (hI.sound hd).isName_of_mem_list h) fun entries hnames => ?_
    refine Ensures.forM fun ⟨name, entry⟩ he => ?_
    cases entry with
    | link _ => exact Ensures.fail
    | directory => exact ih (source.join ⟨name⟩) (hI.join ht (hnames _ he))
    | file _ => exact hI.copyFile (hI.join ht (hnames _ he))

theorem copy (hI : AdmitsCopies I A) (ht : A target) : Keeps I (copy source target) := by
  refine Ensures.bind (Q := fun _ => True) (Ensures.ask fun _ _ _ _ => trivial) fun entry _ => ?_
  cases entry with
  | directory => exact hI.copyDirectory _ source ht
  | file _ => exact Ensures.bind (hI.above ht) fun _ _ => hI.copyFile ht
  | link _ => exact Ensures.fail

theorem storeText (hI : AdmitsCopies I A) {text : String} (ht : A target) : Keeps I (storeText target text) :=
  Ensures.bind (hI.above ht) fun _ _ => Ensures.change fun _ _ hd h => hI.write hd ht h

end AdmitsCopies

/-! ### Into the site -/

namespace Inside

variable {s : Site} {d d' : Disk} {source target : Path}

theorem admitsCopies (s : Site) : AdmitsCopies (Inside s) s.Contains where
  sound h := h.sound
  create ht := (admitsDirectories s).createDirectories ht.borders
  above ht := (admitsDirectories s).ensureParent ht.borders
  write h ht hd' := h.write ht hd'
  mark h ht hfind := by
    obtain ⟨hin, hget⟩ := h.find_file ht hfind
    exact h.putOver hin hget
  join ht hname := ht.join (leadsDown_of_isName hname).staysIn

theorem copy_keeps (ht : s.Contains target) : Keeps (Inside s) (copy source target) := (admitsCopies s).copy ht

theorem storeText_keeps {text : String} (ht : s.Contains target) : Keeps (Inside s) (storeText target text) :=
  (admitsCopies s).storeText ht

end Inside

end PluginShading.Files
