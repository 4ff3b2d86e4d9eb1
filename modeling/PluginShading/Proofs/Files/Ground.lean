import PluginShading.Proofs.Files.Anchor

/-!
An empty directory that is filled.

A `Ground` is a path to an empty directory. What stands in it later is told by the directories that were
made and the files that were written (`Laid`): making a directory with those above it (`Laid.ensureDirectory`)
and writing a file (`Laid.storeText`) succeed and add just that, wherever the names can be held. The names
of directories have no dots in them and those of files do, so that neither is ever in the other's way.
-/
namespace PluginShading.Files

variable {d : Disk} {names more : List String} {name : String} {through : Bool}

/-- An empty directory, and a path that leads to it. -/
structure Ground where
  base : Disk
  root : Path
  place : Place
  sound : base.Sound
  found : base.find root true = .ok (.found place .directory)
  empty : ∀ p, Below place p → base.tree.get? p = none

namespace Ground

variable {g : Ground}

theorem findable (g : Ground) : Disk.Findable g.root.chars := (Disk.findText_eq_ok_iff.1 g.found).1

theorem root_ne_nil (g : Ground) : g.root.chars ≠ [] := g.findable.1

theorem get?_place (g : Ground) : g.base.tree.get? g.place = some .directory := Disk.get?_of_find g.found

/-- A way down from the ground that can be taken. -/
structure Leads (g : Ground) (names : List String) : Prop where
  named : ∀ name ∈ names, isName name = true
  free : ∀ name ∈ names, '\x00' ∉ name.toList
  fits : (g.root.under names).Fits

namespace Leads

theorem passable (h : g.Leads names) : ∀ name ∈ names, Passable name := by
  intro name hname
  refine passable_of_isName (h.named name hname) (h.fits.names name ?_)
  rw [Path.namesIn_under h.named]
  exact List.mem_append_right _ hname

theorem front (h : g.Leads (names ++ more)) : g.Leads names := by
  have hnamed := List.forall_mem_append.1 h.named
  obtain ⟨tail, htail, -⟩ := Path.exists_under hnamed.2 (g.root.under names)
  refine ⟨hnamed.1, (List.forall_mem_append.1 h.free).1, ?_, fun name hname => h.fits.names name ?_⟩
  · have hmore : (g.root.under (names ++ more)).text =
        (g.root.under names).text ++ String.ofList tail := by
      rw [Path.under_append]
      apply String.toList_injective
      rw [String.toList_append, String.toList_ofList]
      exact htail
    refine Nat.lt_of_le_of_lt ?_ h.fits.text
    rw [hmore, String.utf8ByteSize_append]
    exact Nat.le_add_right _ _
  · rw [Path.namesIn_under h.named, ← List.append_assoc,
      ← Path.namesIn_under hnamed.1]
    exact List.mem_append_left _ hname

/-- The path can be looked up. -/
theorem findable (h : g.Leads names) : Disk.Findable (g.root.under names).chars := by
  obtain ⟨tail, htail, hmem⟩ := Path.exists_under h.named g.root
  refine ⟨Path.under_ne_nil h.named g.root_ne_nil, fun hnul => ?_, ?_⟩
  · rw [htail] at hnul
    rcases List.mem_append.1 hnul with hnul | hnul
    · exact g.findable.2.1 hnul
    · rcases hmem _ hnul with heq | ⟨name, hname, hnul⟩
      · cases heq
      · exact h.free name hname hnul
  · rw [Path.chars, String.ofList_toList]
    exact Nat.not_le.2 h.fits.text

end Leads

/-- A way down is followed from the ground. -/
theorem findText_under (g : Ground) (hhere : d.here = g.base.here)
    (hkept : ∀ p entry, g.base.tree.get? p = some entry → d.tree.get? p = some entry) :
    ∃ left, ∀ names through, names ≠ [] → g.Leads names →
      d.findText (g.root.under names).chars through = follow d.tree left g.place names through := by
  obtain ⟨left, hleft⟩ := (Disk.anchored_of_find g.found).find_under hhere (.of_kept hkept)
  exact ⟨left, fun names through hne hnames => hleft names through hne hnames.named hnames.findable⟩

theorem findTrimmed_under (g : Ground) (hne : names ≠ []) (hnames : g.Leads names) :
    d.findTrimmed (g.root.under names) through = d.find (g.root.under names) through :=
  Disk.findTrimmed_of_last (Path.getLast?_under hnames.named hne)

end Ground

/-! ### What is laid -/

/-- The entry below the ground that directories and files, the newest first, make. -/
def entryAt (dirs : List Place) (written : List (Place × Bytes)) (now : Int) (rel : Place) : Option Entry :=
  match written.lookup rel with
  | some bytes => some (.file ⟨bytes, now, false⟩)
  | none => if ∃ dir ∈ dirs, rel <+: dir then some .directory else none

/-- The directories `dirs` with those above them and the files `written` stand on the ground, and nothing
else has changed. -/
structure Laid (g : Ground) (dirs : List Place) (written : List (Place × Bytes)) (d : Disk) : Prop where
  sound : d.Sound
  here : d.here = g.base.here
  now : d.now = g.base.now
  outside : ∀ p, ¬ Below g.place p → d.tree.get? p = g.base.tree.get? p
  inside : ∀ rel, rel ≠ [] → d.tree.get? (g.place ++ rel) = entryAt dirs written g.base.now rel
  dotless : ∀ dir ∈ dirs, ∀ name ∈ dir, '.' ∉ name.toList
  dotted : ∀ file ∈ written, ∃ name ∈ file.1, '.' ∈ name.toList

namespace Laid

variable {g : Ground} {dirs : List Place} {written : List (Place × Bytes)} {rel front : Place}

theorem start (g : Ground) : Laid g [] [] g.base where
  sound := g.sound
  here := rfl
  now := rfl
  outside _ _ := rfl
  inside _ hrel := g.empty _ (below_append _ hrel)
  dotless := nofun
  dotted := nofun

theorem kept (h : Laid g dirs written d) (p : Place) (entry : Entry)
    (hget : g.base.tree.get? p = some entry) : d.tree.get? p = some entry := by
  rw [h.outside p, hget]
  intro hbelow
  rw [g.empty p hbelow] at hget
  cases hget

theorem get?_place (h : Laid g dirs written d) : d.tree.get? g.place = some .directory :=
  h.kept _ _ g.get?_place

/-- Where no dot is, there is no file. -/
theorem lookup_dotless (h : Laid g dirs written d) (hrel : ∀ name ∈ rel, '.' ∉ name.toList) :
    written.lookup rel = none := by
  rw [List.lookup_eq_none_iff]
  intro file hfile
  obtain ⟨name, hname, hdot⟩ := h.dotted file hfile
  rw [bne_iff_ne]
  rintro rfl
  exact hrel name hname hdot

theorem get?_dotless (h : Laid g dirs written d) (hne : rel ≠ []) (hrel : ∀ name ∈ rel, '.' ∉ name.toList) :
    d.tree.get? (g.place ++ rel) = if ∃ dir ∈ dirs, rel <+: dir then some .directory else none := by
  rw [h.inside rel hne, entryAt, h.lookup_dotless hrel]

/-- Without dots, a directory is on the way to one that was made, and what is no directory is not there. -/
theorem directory_cases (h : Laid g dirs written d) (rel : Place) (hrel : ∀ name ∈ rel, '.' ∉ name.toList) :
    (d.tree.get? (g.place ++ rel) = some .directory ∧ (rel = [] ∨ ∃ dir ∈ dirs, rel <+: dir)) ∨
      d.tree.get? (g.place ++ rel) = none ∧ rel ≠ [] ∧ ¬ ∃ dir ∈ dirs, rel <+: dir := by
  by_cases hne : rel = []
  · subst hne
    rw [List.append_nil]
    exact .inl ⟨h.get?_place, .inl rfl⟩
  · have hget := h.get?_dotless hne hrel
    split at hget
    · rename_i hcovered
      exact .inl ⟨hget, .inr hcovered⟩
    · rename_i hfree
      exact .inr ⟨hget, hne, hfree⟩

/-- Where a dot is, there is no directory. -/
theorem get?_dotted (h : Laid g dirs written d) (hdot : ∃ name ∈ rel, '.' ∈ name.toList) :
    d.tree.get? (g.place ++ rel) =
      (written.lookup rel).map fun bytes => .file ⟨bytes, g.base.now, false⟩ := by
  obtain ⟨name, hname, hdot⟩ := hdot
  have hno : ¬ ∃ dir ∈ dirs, rel <+: dir := by
    rintro ⟨dir, hdir, hway⟩
    exact h.dotless dir hdir name (hway.subset hname) hdot
  rw [h.inside rel (List.ne_nil_of_mem hname), entryAt, if_neg hno]
  cases written.lookup rel <;> rfl

/-! ### Putting something more -/

/-- It only counts which directories are on the way to those that were made. -/
theorem regroup (h : Laid g dirs written d) {dirs' : List Place}
    (hiff : ∀ p, (∃ dir ∈ dirs', p <+: dir) ↔ ∃ dir ∈ dirs, p <+: dir) : Laid g dirs' written d where
  sound := h.sound
  here := h.here
  now := h.now
  outside := h.outside
  inside p hp := by simp only [h.inside p hp, entryAt, hiff]
  dotless dir hdir name hname := by
    obtain ⟨dir', hdir', hway⟩ := (hiff dir).1 ⟨dir, hdir, List.prefix_rfl⟩
    exact h.dotless dir' hdir' name (hway.subset hname)
  dotted := h.dotted

/-- Making a directory that is there already changes nothing. -/
theorem cover_iff (hcovered : ∃ dir ∈ dirs, rel <+: dir) :
    Laid g (rel :: dirs) written d ↔ Laid g dirs written d := by
  obtain ⟨dir, hdir, hway⟩ := hcovered
  have hiff : ∀ p, (∃ dir ∈ rel :: dirs, p <+: dir) ↔ ∃ dir ∈ dirs, p <+: dir := by
    intro p
    rw [List.exists_mem_cons_iff]
    exact or_iff_right_of_imp fun hrel => ⟨dir, hdir, hrel.trans hway⟩
  exact ⟨fun h => h.regroup fun p => (hiff p).symm, fun h => h.regroup hiff⟩

/-- What is put into a directory of the ground changes no other entry. -/
theorem put (h : Laid g dirs written d) {entry : Entry} {dirs' : List Place} {written' : List (Place × Bytes)}
    (hfront : d.tree.get? (g.place ++ front) = some .directory) (hname : isName name = true)
    (hold : d.tree.get? (g.place ++ (front ++ [name])) ≠ some .directory)
    (hdotless : ∀ dir ∈ dirs', ∀ name ∈ dir, '.' ∉ name.toList)
    (hdotted : ∀ file ∈ written', ∃ name ∈ file.1, '.' ∈ name.toList)
    (hself : entryAt dirs' written' g.base.now (front ++ [name]) = some entry)
    (hother : ∀ p, p ≠ [] → p ≠ front ++ [name] →
      entryAt dirs' written' g.base.now p = entryAt dirs written g.base.now p) :
    Laid g dirs' written' (d.put (g.place ++ (front ++ [name])) entry) := by
  have hne : g.place ++ (front ++ [name]) ≠ [] := by simp
  have hget : ∀ p, (d.put (g.place ++ (front ++ [name])) entry).tree.get? p =
      if p = g.place ++ (front ++ [name]) then some entry else d.tree.get? p :=
    d.tree.get?_set hne entry
  refine ⟨?_, h.here, h.now, fun p hp => ?_, fun p hp => ?_, hdotless, hdotted⟩
  · rw [← List.append_assoc] at hold ⊢
    exact h.sound.put hfront hname hold
  · rw [hget, if_neg, h.outside p hp]
    rintro rfl
    exact hp (below_append _ (append_singleton_ne_nil front name))
  · rw [hget]
    split
    · rename_i heq
      rw [List.append_cancel_left heq, hself]
    · rename_i hne
      rw [h.inside p hp, hother p hp fun heq => hne (heq ▸ rfl)]

/-- A directory comes to stand in one that is there. -/
theorem putDirectory (h : Laid g dirs written d)
    (hfront : d.tree.get? (g.place ++ front) = some .directory) (hname : isName name = true)
    (hdotless : ∀ n ∈ front ++ [name], '.' ∉ n.toList)
    (hnone : d.tree.get? (g.place ++ (front ++ [name])) = none) :
    Laid g ((front ++ [name]) :: dirs) written (d.put (g.place ++ (front ++ [name])) .directory) := by
  refine h.put hfront hname (by simp [hnone]) (List.forall_mem_cons.2 ⟨hdotless, h.dotless⟩) h.dotted ?_
    fun p hp hself => ?_
  · rw [entryAt, h.lookup_dotless hdotless]
    exact if_pos ⟨_, List.mem_cons_self, List.prefix_rfl⟩
  · have hiff : (∃ dir ∈ (front ++ [name]) :: dirs, p <+: dir) ↔ ∃ dir ∈ dirs, p <+: dir := by
      rw [List.exists_mem_cons_iff]
      refine or_iff_right_of_imp fun hrel => ?_
      have hpfront := (List.prefix_concat_iff.1 hrel).resolve_left hself
      rcases h.directory_cases front fun n hn => hdotless n (List.mem_append_left _ hn) with
        ⟨-, rfl | ⟨dir, hdir, hway⟩⟩ | ⟨hfree, -⟩
      · exact absurd (List.prefix_nil.1 hpfront) hp
      · exact ⟨dir, hdir, hpfront.trans hway⟩
      · rw [hfront] at hfree
        cases hfree
    simp only [entryAt, hiff]

/-- A file comes to stand in a directory, perhaps in place of another. -/
theorem putFile (h : Laid g dirs written d) {bytes : Bytes}
    (hfront : d.tree.get? (g.place ++ front) = some .directory) (hname : isName name = true)
    (hdot : '.' ∈ name.toList) :
    Laid g dirs ((front ++ [name], bytes) :: written)
      (d.put (g.place ++ (front ++ [name])) (.file ⟨bytes, g.base.now, false⟩)) := by
  have hdotted : ∃ n ∈ front ++ [name], '.' ∈ n.toList :=
    ⟨name, List.mem_append_right _ List.mem_cons_self, hdot⟩
  have hold : d.tree.get? (g.place ++ (front ++ [name])) ≠ some .directory := by
    rw [h.get?_dotted hdotted]
    cases written.lookup (front ++ [name]) <;> simp
  refine h.put hfront hname hold h.dotless (List.forall_mem_cons.2 ⟨hdotted, h.dotted⟩) ?_ fun p _ hp => ?_
  · rw [entryAt, List.lookup_cons_self]
  · have hne : (p == front ++ [name]) = false := beq_eq_false_iff_ne.2 hp
    rw [entryAt, List.lookup_cons, hne, entryAt]

/-! ### Looking up -/

/-- What stands below the ground is found by its path. -/
theorem findText_found (h : Laid g dirs written d) (hne : rel ≠ []) (hleads : g.Leads rel) {entry : Entry}
    (hget : d.tree.get? (g.place ++ rel) = some entry) (through : Bool) :
    d.findText (g.root.under rel).chars through = .ok (.found (g.place ++ rel) entry) := by
  obtain ⟨left, hleft⟩ := g.findText_under h.here h.kept
  rw [hleft rel through hne hleads]
  refine follow_found h.sound.tree hleads.passable hget ?_
  rw [h.inside rel hne, entryAt] at hget
  split at hget
  · cases hget
    rfl
  · split at hget
    · cases hget
      rfl
    · cases hget

theorem findText_missing (h : Laid g dirs written d) (hleads : g.Leads (front ++ [name]))
    (hfront : d.tree.get? (g.place ++ front) = some .directory)
    (hnone : d.tree.get? (g.place ++ (front ++ [name])) = none) (through : Bool) :
    d.findText (g.root.under (front ++ [name])).chars through = .ok (.missing (g.place ++ front) name) := by
  obtain ⟨left, hleft⟩ := g.findText_under h.here h.kept
  have hpassable := List.forall_mem_append.1 hleads.passable
  rw [hleft _ through (append_singleton_ne_nil front name) hleads]
  refine follow_missing h.sound.tree hpassable.1 (hpassable.2 name List.mem_cons_self) hfront ?_
  rwa [List.append_assoc]

/-- Nothing is found below a directory that is missing. -/
theorem findText_notFound (h : Laid g dirs written d) (hleads : g.Leads (front ++ [name]))
    (hdotless : ∀ n ∈ front, '.' ∉ n.toList) (hnone : d.tree.get? (g.place ++ front) = none) (through : Bool) :
    d.findText (g.root.under (front ++ [name])).chars through = .error .notFound := by
  obtain ⟨left, hleft⟩ := g.findText_under h.here h.kept
  have hpassable := List.forall_mem_append.1 hleads.passable
  rw [hleft _ through (append_singleton_ne_nil front name) hleads]
  refine follow_notFound hpassable.1 (fun p hp => ?_) hnone h.get?_place (List.cons_ne_nil _ _)
  rcases h.directory_cases p fun n hn => hdotless n (hp.subset hn) with ⟨hdir, -⟩ | ⟨hfree, -⟩
  · exact .inl hdir
  · exact .inr hfree

/-! ### Making directories -/

/-- A directory whose parent is there can be made. -/
theorem makeDirectory (h : Laid g dirs written d) (hleads : g.Leads (front ++ [name]))
    (hdotless : ∀ n ∈ front ++ [name], '.' ∉ n.toList)
    (hfront : d.tree.get? (g.place ++ front) = some .directory)
    (hnone : d.tree.get? (g.place ++ (front ++ [name])) = none) :
    ∃ d', d.makeDirectory (g.root.under (front ++ [name])) = .ok d' ∧
      Laid g ((front ++ [name]) :: dirs) written d' := by
  have hname := (List.forall_mem_append.1 hleads.named).2 name List.mem_cons_self
  refine ⟨_, ?_, h.putDirectory hfront hname hdotless hnone⟩
  rw [Disk.makeDirectory, g.findTrimmed_under (append_singleton_ne_nil front name) hleads, Disk.find,
    h.findText_missing hleads hfront hnone, ← List.append_assoc]

/-- **A directory is made with all that is missing above it.** -/
theorem makeDirectories (h : Laid g dirs written d) {rel : Place} (hne : rel ≠ []) (hleads : g.Leads rel)
    (hdotless : ∀ n ∈ rel, '.' ∉ n.toList) {fuel : Nat} (hfuel : rel.length ≤ fuel + 1) :
    ∃ d', makeDirectories fuel d (g.root.under rel) = (.ok (), d') ∧ Laid g (rel :: dirs) written d' := by
  induction rel using List.reverseRecOn generalizing fuel with
  | nil => contradiction
  | append_singleton front name ih =>
    have hcomponents : (g.root.under (front ++ [name])).components ≠ [] := by
      rw [Path.components_under hleads.named]
      simp
    have hfree : ∀ n ∈ front, '.' ∉ n.toList := fun n hn => hdotless n (List.mem_append_left _ hn)
    rcases h.directory_cases _ hdotless with ⟨hdir, hcovered⟩ | ⟨hnone, -, hbare⟩
    · -- It is there already.
      have hfound := h.findText_found hne hleads hdir
      refine ⟨d, ?_, (cover_iff (hcovered.resolve_left hne)).2 h⟩
      have hexists : d.makeDirectory (g.root.under (front ++ [name])) = .error .alreadyExists := by
        rw [Disk.makeDirectory, g.findTrimmed_under hne hleads, Disk.find, hfound]
      have hisdir : d.isDirectory (g.root.under (front ++ [name])) = true := by
        rw [Disk.isDirectory, Disk.stat, Disk.find, hfound]
        rfl
      exact makeDirectories_of_there hcomponents hexists hisdir
    · rcases h.directory_cases _ hfree with ⟨hfront, -⟩ | ⟨hlost, hfrontne, -⟩
      · -- Its parent is there.
        obtain ⟨d', hmade, hlaid⟩ := h.makeDirectory hleads hdotless hfront hnone
        exact ⟨d', makeDirectories_of_made hcomponents hmade, hlaid⟩
      · -- Its parent is made first.
        obtain ⟨k, rfl⟩ : ∃ k, fuel = k + 1 := by
          have := List.length_pos_iff.2 hfrontne
          rw [List.length_append, List.length_singleton] at hfuel
          exact ⟨fuel - 1, by omega⟩
        have hmissing : d.makeDirectory (g.root.under (front ++ [name])) = .error .notFound := by
          rw [Disk.makeDirectory, g.findTrimmed_under hne hleads, Disk.find,
            h.findText_notFound hleads hfree hlost]
        have hk : front.length ≤ k + 1 := by
          rw [List.length_append, List.length_singleton] at hfuel
          omega
        obtain ⟨above, habove, hlaid⟩ := ih hfrontne hleads.front hfree hk
        have hfront : above.tree.get? (g.place ++ front) = some .directory := by
          rw [hlaid.get?_dotless hfrontne hfree, if_pos ⟨front, List.mem_cons_self, List.prefix_rfl⟩]
        have hstill : above.tree.get? (g.place ++ (front ++ [name])) = none := by
          rw [hlaid.get?_dotless hne hdotless, if_neg]
          rw [List.exists_mem_cons_iff]
          rintro (hway | hcovered)
          · have hlength := hway.length_le
            rw [List.length_append, List.length_singleton] at hlength
            omega
          · exact hbare hcovered
        obtain ⟨d', hmade, hlaid'⟩ := hlaid.makeDirectory hleads hdotless hfront hstill
        refine ⟨d', makeDirectories_of_above hcomponents hmissing (Path.parent_under hleads.named hfrontne) habove hmade,
          hlaid'.regroup fun p => ?_⟩
        simp only [List.exists_mem_cons_iff]
        rw [← or_assoc]
        refine or_congr_left ⟨fun hp => .inl hp, fun hp => hp.elim id fun hp => ?_⟩
        exact hp.trans (List.prefix_append _ _)

theorem not_exists (h : Laid g dirs written d) {rel : Place} (hne : rel ≠ []) (hleads : g.Leads rel)
    (hdotless : ∀ n ∈ rel, '.' ∉ n.toList) (hnone : d.tree.get? (g.place ++ rel) = none) :
    d.exists? (g.root.under rel) = false := by
  obtain ⟨front, name, rfl⟩ := (List.eq_nil_or_concat' rel).resolve_left hne
  have hfree : ∀ n ∈ front, '.' ∉ n.toList := fun n hn => hdotless n (List.mem_append_left _ hn)
  rcases h.directory_cases front hfree with ⟨hfront, -⟩ | ⟨hlost, -, -⟩
  · rw [Disk.exists?, Disk.stat, Disk.find, h.findText_missing hleads hfront hnone]
  · rw [Disk.exists?, Disk.stat, Disk.find, h.findText_notFound hleads hfree hlost]

theorem ensureDirectory (h : Laid g dirs written d) {rel : Place} (hne : rel ≠ []) (hleads : g.Leads rel)
    (hdotless : ∀ n ∈ rel, '.' ∉ n.toList) :
    Act.Yields (ensureDirectory (g.root.under rel)) d fun _ d' => Laid g (rel :: dirs) written d' := by
  refine Act.Yields.bind Act.Yields.disk fun x d' ⟨hx, hd'⟩ => ?_
  rw [hx, hd']
  rcases h.directory_cases rel hdotless with ⟨hdir, hcovered⟩ | ⟨hnone, -, -⟩
  · have hexists : d.exists? (g.root.under rel) = true := by
      rw [Disk.exists?, Disk.stat, Disk.find, h.findText_found hne hleads hdir]
    rw [hexists, if_pos rfl]
    exact Act.Yields.pure ((cover_iff (hcovered.resolve_left hne)).2 h)
  · rw [h.not_exists hne hleads hdotless hnone, if_neg Bool.false_ne_true]
    have hfuel : rel.length ≤ (g.root.under rel).text.length + 1 := by
      have hle := Path.length_le_under hleads.named g.root
      rw [Path.chars, String.length_toList] at hle
      exact Nat.le_succ_of_le hle
    obtain ⟨d', hmade, hlaid⟩ := h.makeDirectories hne hleads hdotless hfuel
    rintro w rfl
    refine ⟨(), {w with disk := d'}, ?_, hlaid⟩
    rw [Files.createDirectories, hmade]

/-! ### Writing -/

/-- A file can be written into a directory, and written again. -/
theorem write (h : Laid g dirs written d) (hleads : g.Leads (front ++ [name])) (hdot : '.' ∈ name.toList)
    (hfront : d.tree.get? (g.place ++ front) = some .directory) (bytes : Bytes) :
    ∃ d', d.write (g.root.under (front ++ [name])) bytes false = .ok d' ∧
      Laid g dirs ((front ++ [name], bytes) :: written) d' := by
  have hne := append_singleton_ne_nil front name
  have hname := (List.forall_mem_append.1 hleads.named).2 name List.mem_cons_self
  have hlast : (g.root.under (front ++ [name])).chars.getLast? ≠ some '/' := Path.getLast?_under hleads.named hne
  have hmem : name ∈ front ++ [name] := List.mem_append_right _ List.mem_cons_self
  have hget := h.get?_dotted ⟨name, hmem, hdot⟩
  refine ⟨_, ?_, h.putFile hfront hname hdot⟩
  rw [Disk.write, g.findTrimmed_under hne hleads, Disk.find]
  cases hlookup : written.lookup (front ++ [name]) with
  | none =>
    rw [hlookup] at hget
    rw [h.findText_missing hleads hfront hget]
    simp only [if_neg hlast, h.now, List.append_assoc]
  | some old =>
    rw [hlookup] at hget
    rw [h.findText_found hne hleads hget]
    simp only [if_neg hlast, h.now]

/-- **A text is written to a file of a directory that was made.** -/
theorem storeText (h : Laid g dirs written d) (hleads : g.Leads (front ++ [name])) (hdot : '.' ∈ name.toList)
    (hne : front ≠ []) (hcovered : ∃ dir ∈ dirs, front <+: dir) (text : String) :
    Act.Yields (storeText (g.root.under (front ++ [name])) text) d fun _ d' =>
      Laid g dirs ((front ++ [name], Bytes.ofText text) :: written) d' := by
  have hdotless : ∀ n ∈ front, '.' ∉ n.toList := by
    obtain ⟨dir, hdir, hway⟩ := hcovered
    exact fun n hn => h.dotless dir hdir n (hway.subset hn)
  have hparent : Act.Yields (ensureParent (g.root.under (front ++ [name]))) d fun _ d' =>
      Laid g dirs written d' := by
    rw [Files.ensureParent, Path.parent_under hleads.named hne]
    exact (h.ensureDirectory hne hleads.front hdotless).weaken fun _ _ => (cover_iff hcovered).1
  refine Act.Yields.bind hparent fun _ d' hlaid => ?_
  have hfront : d'.tree.get? (g.place ++ front) = some .directory := by
    rw [hlaid.get?_dotless hne hdotless, if_pos hcovered]
  obtain ⟨d'', hwritten, hlaid''⟩ := hlaid.write hleads hdot hfront (Bytes.ofText text)
  exact (Act.Yields.change hwritten).weaken fun _ left hleft => hleft ▸ hlaid''

/-! ### What stands there -/

theorem file_iff (h : Laid g dirs written d) (hne : rel ≠ []) {data : FileData} :
    d.tree.get? (g.place ++ rel) = some (.file data) ↔
      ∃ bytes, written.lookup rel = some bytes ∧ data = ⟨bytes, g.base.now, false⟩ := by
  rw [h.inside rel hne, entryAt]
  cases written.lookup rel with
  | none => by_cases hcovered : ∃ dir ∈ dirs, rel <+: dir <;> simp [hcovered]
  | some bytes => simp [eq_comm]

theorem exists_file_iff (h : Laid g dirs written d) (hne : rel ≠ []) :
    (∃ data, d.tree.get? (g.place ++ rel) = some (.file data)) ↔ rel ∈ written.map Prod.fst := by
  simp only [h.file_iff hne]
  constructor
  · rintro ⟨_, bytes, hlookup, -⟩
    obtain ⟨before, after, rfl, -⟩ := List.lookup_eq_some_iff.1 hlookup
    simp
  · intro hmem
    obtain ⟨file, hfile, rfl⟩ := List.mem_map.1 hmem
    cases hlookup : written.lookup file.1 with
    | none =>
      rw [List.lookup_eq_none_iff] at hlookup
      exact absurd (hlookup file hfile) (by simp)
    | some bytes => exact ⟨_, bytes, rfl, rfl⟩

theorem directory_iff (h : Laid g dirs written d) (hne : rel ≠ []) :
    d.tree.get? (g.place ++ rel) = some .directory ↔ ∃ dir ∈ dirs, rel <+: dir := by
  constructor
  · intro hget
    rw [h.inside rel hne, entryAt] at hget
    split at hget
    · cases hget
    · split at hget
      · assumption
      · cases hget
  · rintro ⟨dir, hdir, hway⟩
    rw [h.get?_dotless hne fun name hname => h.dotless dir hdir name (hway.subset hname),
      if_pos ⟨dir, hdir, hway⟩]

theorem not_link (h : Laid g dirs written d) (hne : rel ≠ []) (target : String) :
    d.tree.get? (g.place ++ rel) ≠ some (.link target) := by
  rw [h.inside rel hne, entryAt]
  split
  · simp
  · split <;> simp

end Laid

end PluginShading.Files
