import PluginShading.Proofs.Build.Parts
import PluginShading.Proofs.Files.Clearing

/-!
What a failed build leaves behind.

Up to a complete staging directory nothing is lost and nothing is left, and an archive that cannot be
stored leaves no trace. What a failed build destroys or leaves, it does while it clears the way, where the
old output goes before it is certain that the new one can come: an output directory with what lies below it
(`failed_output_run`), or the file in the place of an archive (`failed_archive_run`). The names that it is
given may be any that do not lead above where they start (`failed_run_harmless_iff`). A build into the
directory that it is run from always gets that far and no farther (`run_into_here`).
-/
namespace PluginShading.Build

open Files (Disk Site Staged Grown SameFiles)

/-! ### Failing -/

theorem putArchive_fails {archive : Option (Path × List Archive.Entry)} {w w' : World} {f : Failure}
    (h : putArchive archive w = (.error f, w')) : w'.disk = w.disk := by
  cases archive with
  | none => cases h
  | some archive =>
    rcases Act.bind_eq_error h with h | ⟨_, _, _, h⟩
    · exact Archive.store_fails h
    · cases h

/-- Where the results cannot be put in place, clearing the way for them is all that has happened. -/
theorem replace_fails {o : Options} {staged : Path} {w w' : World} {f : Failure}
    (h : replace o staged w = (.error f, w')) : w'.disk = (clearWay o staged w).2.disk := by
  rcases Act.bind_eq_error h with h | ⟨archive, w₁, hclear, h⟩
  · rw [h]
  · rw [putArchive_fails h, hclear]

theorem withStaging_disk {α : Type} (staged : Path) (a : Act α) (w : World) :
    (withStaging staged a w).2.disk = (a w).2.disk.withoutDirectory staged := rfl

/-- A build fails before the staging directory is complete, and then no file is lost and none is left, or
afterwards, when the results cannot be put in place. -/
theorem failed_run_cases {o : Options} {w w' : World} {f : Failure}
    (hsound : (prepare o w).2.disk.Sound) (hnames : StayingNames o) (hmain : StayingMain o w)
    (hfail : run o w = (.error f, w')) :
    ((∀ staged w₁, ¬ Filled o w staged w₁) ∧ SameFiles (prepare o w).2.disk w'.disk) ∨
      ∃ staged w₁ w₂, Filled o w staged w₁ ∧ replace o staged w₁ = (.error f, w₂) ∧
        w'.disk = w₂.disk.withoutDirectory staged := by
  rw [run_eq] at hfail
  rcases Act.bind_eq_error hfail with hprepare | ⟨plan, w₁, hprepare, hfail⟩
  · refine .inl ⟨fun staged w₁ hfilled => ?_, ?_⟩
    · rw [Filled, fillUp, Act.bind_of_error hprepare] at hfilled
      cases hfilled
    · rw [hprepare]
      exact SameFiles.refl _
  rcases Act.bind_eq_error hfail with hstage | ⟨staged, w₂, hstage, hfail⟩
  · refine .inl ⟨fun staged w₁ hfilled => ?_, ?_⟩
    · rw [Filled, fillUp, Act.bind_of_ok hprepare, Act.bind_of_error hstage] at hfilled
      cases hfilled
    · rw [hprepare] at hsound ⊢
      rcases stage_cases o.outputDirectory (Grown.refl hsound) with
        ⟨_, _, hrun, hgrown⟩ | ⟨_, _, hrun, -⟩
      · rw [hstage] at hrun
        cases hrun
        exact hgrown.sameFiles
      · rw [hstage] at hrun
        cases hrun
  obtain ⟨s, rfl, hgrown, -, hinside⟩ := inside_fill hsound hnames hmain hprepare hstage
  have hdisk : w'.disk = (build o plan s.path w₂).2.disk.withoutDirectory s.path := by
    rw [← withStaging_disk, hfail]
  have herror : (build o plan s.path w₂).1 = .error f := by
    have houtcome : (withStaging s.path (build o plan s.path) w₂).1 = .error f := by rw [hfail]
    exact houtcome
  have hbuild : build o plan s.path w₂ = (.error f, (build o plan s.path w₂).2) := Prod.ext herror rfl
  rcases Act.bind_eq_error hbuild with hfill | ⟨tally, w₃, hfill, hrest⟩
  · refine .inl ⟨fun staged w₁ hfilled => ?_, ?_⟩
    · rw [Filled, fillUp, Act.bind_of_ok hprepare, Act.bind_of_ok hstage, Act.bind_of_error hfill]
        at hfilled
      cases hfilled
    · rw [hfill] at hinside
      rw [hdisk]
      exact (hgrown.trans hinside.toStaged.withoutDirectory).sameFiles
  · refine .inr ⟨s.path, w₃, (build o plan s.path w₂).2, ?_, ?_, hdisk⟩
    · rw [Filled, fillUp, Act.bind_of_ok hprepare, Act.bind_of_ok hstage, Act.bind_of_ok hfill]
      rfl
    · rcases Act.bind_eq_error hrest with hreplace | ⟨_, _, _, hpure⟩
      · exact hreplace
      · cases hpure

/-! ### Where the way is free -/

/-- A single result that nothing is in the way of: an output directory where nothing exists, or an archive
where no file is. -/
def Unobstructed (o : Options) (d : Disk) : Prop :=
  (o.archive = none ∧ ∃ directory, o.outputDirectory = some directory ∧ d.exists? directory = false) ∨
    (o.outputDirectory = none ∧ ∃ archive, o.archive = some archive ∧ d.isFile archive = false)

/-- For an archive alone, room is made. -/
theorem clearWay_archive {o : Options} {archive : Path} (ho : o.outputDirectory = none)
    (harchive : o.archive = some archive) (staged : Path) (w : World) :
    (clearWay o staged w).2.disk = (Archive.makeRoom staged archive w).2.disk := by
  rw [clearWay, publish, ho, harchive]
  dsimp only
  rw [pure_bind, Act.bind_apply]
  cases hrun : Archive.makeRoom staged archive w with
  | mk outcome w₁ => cases outcome <;> rfl

theorem replace_of_unobstructed {o : Options} {s : Site} {w w' : World} {f : Failure}
    (hw : Staged s w.disk) (hfree : Unobstructed o w.disk) (h : replace o s.path w = (.error f, w')) :
    Staged s w'.disk := by
  rcases hfree with ⟨harchive, directory, houtput, hfree⟩ | ⟨houtput, archive, harchive, hfree⟩
  · rw [replace_eq] at h
    rcases Act.bind_eq_error h with hpublish | ⟨_, _, _, hpackage⟩
    · unfold publish at hpublish
      rw [houtput] at hpublish
      dsimp only at hpublish
      rw [Act.bind_of_ok (Files.removeDirectory_of_missing hfree)] at hpublish
      rcases Act.bind_eq_error hpublish with hmove | ⟨_, _, _, hreport⟩
      · rw [Act.change_fails hmove]
        exact hw
      · cases hreport
    · unfold packageOutput at hpackage
      rw [harchive] at hpackage
      cases hpackage
  · have hroom := Archive.makeRoom_of_free (Staged.admitsDirectories s) s.path hw hfree
    rw [replace_fails h, clearWay_archive houtput harchive]
    exact hroom

/-- A build of a single result that nothing is in the way of is harmless if it fails. -/
theorem failed_run_harmless {o : Options} {w w' : World} {f : Failure}
    (hsound : (prepare o w).2.disk.Sound) (hnames : StayingNames o) (hmain : StayingMain o w)
    (hfree : ∀ staged w₁, Filled o w staged w₁ → Unobstructed o w₁.disk)
    (hfail : run o w = (.error f, w')) : SameFiles (prepare o w).2.disk w'.disk := by
  rcases failed_run_cases hsound hnames hmain hfail with
    ⟨-, hsame⟩ | ⟨staged, w₁, w₂, hfilled, hreplace, hdisk⟩
  · exact hsame
  · obtain ⟨s, rfl, hgrown, hinside⟩ := hfilled.inside hsound hnames hmain
    rw [hdisk]
    have hkept := replace_of_unobstructed hinside.toStaged (hfree _ _ hfilled) hreplace
    exact (hgrown.trans hkept.withoutDirectory).sameFiles

/-! ### Where the way is cleared in vain -/

theorem find_here {d : Disk} (hd : d.tree.get? d.here = some .directory) (through : Bool) :
    d.find ⟨"."⟩ through = .ok (.found d.here .directory) := by
  refine Disk.findText_eq_ok_iff.2 ⟨⟨by decide +kernel, by decide +kernel, by decide +kernel⟩, ?_⟩
  have hsteps : Files.steps (Path.mk ".").chars = ["."] := by decide +kernel
  rw [hsteps, if_neg (by decide +kernel), Files.follow_here, Files.follow_nil hd]

/-- The directory that one is in can be emptied, but not removed. -/
theorem removeDirectory_here {w : World} (hw : w.disk.tree.get? w.disk.here = some .directory) :
    Files.removeDirectory ⟨"."⟩ w = (.error (.io (.removeDirectory ⟨"."⟩) .invalidArgument),
      {w with disk := {w.disk with tree := w.disk.tree.eraseBelow w.disk.here}}) := by
  have hlast : (Files.steps (Disk.withoutSlash (Path.mk ".").chars)).getLast? = some "." := by
    decide +kernel
  have hexists : w.disk.exists? ⟨"."⟩ = true := by
    simp only [Disk.exists?, Disk.stat, find_here hw]
  have hremove : w.disk.removeTree ⟨"."⟩ =
      (.error .invalidArgument, {w.disk with tree := w.disk.tree.eraseBelow w.disk.here}) := by
    unfold Disk.removeTree
    rw [find_here hw]
    simp only [Disk.keepsDirectory, hlast]
  unfold Files.removeDirectory
  rw [if_pos hexists, hremove]

/-- **A build into the directory that it is run from fails and leaves that directory empty.** -/
theorem run_into_here {o : Options} {w w₁ : World} {staged : Path} (ho : o.outputDirectory = some ⟨"."⟩)
    (hfilled : Filled o w staged w₁) (hhere : w₁.disk.tree.get? w₁.disk.here = some .directory) :
    ∃ w', run o w = (.error (.io (.removeDirectory ⟨"."⟩) .invalidArgument), w') ∧
      ∀ p, Files.Below w₁.disk.here p → w'.disk.tree.get? p = none := by
  obtain ⟨plan, w₂, hprepare, h⟩ := Act.bind_eq_ok hfilled
  obtain ⟨_, w₃, hstage, h⟩ := Act.bind_eq_ok h
  obtain ⟨tally, _, hfill, h⟩ := Act.bind_eq_ok h
  cases h
  have hpublish : publish o staged w₁ = (.error (.io (.removeDirectory ⟨"."⟩) .invalidArgument),
      {w₁ with disk := {w₁.disk with tree := w₁.disk.tree.eraseBelow w₁.disk.here}}) := by
    unfold publish
    rw [ho]
    exact Act.bind_of_error (removeDirectory_here hhere)
  have hbuild : build o plan staged w₃ = (.error (.io (.removeDirectory ⟨"."⟩) .invalidArgument),
      {w₁ with disk := {w₁.disk with tree := w₁.disk.tree.eraseBelow w₁.disk.here}}) := by
    rw [build, Act.bind_of_ok hfill, replace_eq, Act.bind_of_error (Act.bind_of_error hpublish)]
  rw [run_eq, Act.bind_of_ok hprepare, Act.bind_of_ok hstage, withStaging, hbuild]
  refine ⟨_, rfl, fun p hp => ?_⟩
  cases hget : Files.Tree.get? _ p with
  | none => rfl
  | some entry =>
    have hbefore := Disk.get?_of_removeTree hget
    rw [Files.Tree.get?_eraseBelow, if_pos hp] at hbefore
    cases hbefore

/-! ### A single result -/

/-- Where the output directory cannot be put in place, taking the old one away is all that has happened. -/
theorem publish_fails {o : Options} {directory staged : Path} {w w' : World} {f : Failure}
    (ho : o.outputDirectory = some directory) (h : publish o staged w = (.error f, w')) :
    w'.disk = (Files.removeDirectory directory w).2.disk := by
  unfold publish at h
  rw [ho] at h
  rcases Act.bind_eq_error h with hremove | ⟨_, w₁, hremove, hrest⟩
  · rw [hremove]
  · rcases Act.bind_eq_error hrest with hmove | ⟨_, _, _, hreport⟩
    · rw [Act.change_fails hmove, hremove]
    · cases hreport

/-- Where none of the files before is in its place, making room for an archive leaves the staging directory as it is. -/
theorem staged_of_cleared {s : Site} {d d₁ d₂ : Disk} {archive : Path} (hgrown : Grown d s.base)
    (hstaged : Staged s d₁) (hclear : d₁.Cleared archive d₂)
    (hfree : ∀ q, d₁.Occupies archive q → d.tree.get? q = none) : Staged s d₂ where
  sound := hclear.sound
  here := hclear.here.trans hstaged.here
  kept q e hbase := by
    have hget := hstaged.kept q e hbase
    refine (hclear.kept q e hget).resolve_right fun hq => ?_
    rcases hgrown.gained q e hbase with hbefore | rfl
    · rw [hfree q hq] at hbefore
      cases hbefore
    · exact hq.not_directory hget
  gained q e hget := (hclear.gained q e hget).elim (hstaged.gained q e) fun hdir => .inr (.inl hdir)
  made := (hclear.kept _ _ hstaged.made).resolve_right fun hq => hq.not_directory hstaged.made

section Single

variable {o : Options} {w w' : World} {f : Failure} (hsound : (prepare o w).2.disk.Sound) (hnames : StayingNames o)
  (hmain : StayingMain o w) (hfail : run o w = (.error f, w'))
include hsound hnames hmain hfail

/-- A failed build of an output directory keeps a file exactly if this does not go with the directory that was there,
and what it leaves is left of its staging directory. -/
theorem failed_output_run {directory : Path} (ho : o.outputDirectory = some directory) (harchive : o.archive = none)
    {q : Files.Place} {e : Files.Entry} (he : e ≠ .directory) :
    ((prepare o w).2.disk.tree.get? q = some e →
      (w'.disk.tree.get? q = some e ↔ ∀ staged w₁, Filled o w staged w₁ → ¬ w₁.disk.Clears directory q)) ∧
    (w'.disk.tree.get? q = some e → (prepare o w).2.disk.tree.get? q = some e ∨
      ∃ staged w₁ place, Filled o w staged w₁ ∧ w₁.disk.find staged false = .ok (.found place .directory) ∧
        Files.Below place q) := by
  rcases failed_run_cases hsound hnames hmain hfail with
    ⟨hnone, hsame⟩ | ⟨staged, w₁, w₂, hfilled, hreplace, hdisk⟩
  · exact ⟨fun hget => iff_of_true ((hsame q e he).2 hget) fun _ _ hfilled => absurd hfilled (hnone _ _),
      fun hget => .inl ((hsame q e he).1 hget)⟩
  obtain ⟨s, rfl, hgrown, hinside⟩ := hfilled.inside hsound hnames hmain
  have hcleared : w₂.disk = (Files.removeDirectory directory w₁).2.disk := by
    rw [replace_eq] at hreplace
    rcases Act.bind_eq_error hreplace with hpublish | ⟨_, _, _, hpackage⟩
    · exact publish_fails ho hpublish
    · unfold packageOutput at hpackage
      rw [harchive] at hpackage
      cases hpackage
  rw [hdisk, hcleared]
  refine ⟨fun hget => ?_, fun hget => ?_⟩
  · have hbase := hgrown.kept q e hget
    rw [hinside.toStaged.get?_withoutDirectory (Files.removeDirectory_here directory w₁)
      (fun _ _ => Files.get?_of_removeDirectory) (Staged.not_prefix_of_base hbase), Files.get?_removeDirectory he,
      and_iff_right (hinside.kept q e hbase)]
    constructor
    · intro hfree staged w₁' hfilled'
      obtain ⟨-, rfl⟩ := hfilled.unique hfilled'
      exact hfree
    · exact fun h => h _ _ hfilled
  · rcases hinside.gained q e (Files.get?_of_removeDirectory (Disk.get?_of_removeTree hget)) with
      hbase | hdir | ⟨-, hin⟩
    · exact .inl ((hgrown.gained q e hbase).resolve_right he)
    · exact absurd hdir he
    · refine .inr ⟨s.path, w₁, s.place, hfilled, hinside.find_path, hin, ?_⟩
      rintro rfl
      have hmade := Files.get?_of_removeDirectory (Disk.get?_of_removeTree hget)
      rw [hinside.made] at hmade
      exact he (Option.some.inj hmade).symm

/-- A failed build of an archive is harmless exactly if no file was in its place, or the output could not be listed. -/
theorem failed_archive_run {archive : Path} (ho : o.outputDirectory = none) (harchive : o.archive = some archive) :
    SameFiles (prepare o w).2.disk w'.disk ↔ ∀ staged w₁, Filled o w staged w₁ →
      (∀ q, w₁.disk.Occupies archive q → (prepare o w).2.disk.tree.get? q = none) ∨
        ∃ f, (Archive.collect staged w₁).1 = .error f := by
  rcases failed_run_cases hsound hnames hmain hfail with
    ⟨hnone, hsame⟩ | ⟨staged, w₁, w₂, hfilled, hreplace, hdisk⟩
  · exact iff_of_true hsame fun _ _ hfilled => absurd hfilled (hnone _ _)
  obtain ⟨s, rfl, hgrown, hinside⟩ := hfilled.inside hsound hnames hmain
  have hcleared := (replace_fails hreplace).trans (clearWay_archive ho harchive s.path w₁)
  have hcollect := Archive.collect_snd s.path w₁
  rw [hdisk]
  cases hrun : (Archive.collect s.path w₁).1 with
  | error e =>
    have hlist := Act.eq_error hrun
    rw [Archive.makeRoom, Act.bind_of_error hlist, hcollect] at hcleared
    rw [hcleared]
    refine iff_of_true (hgrown.trans hinside.toStaged.withoutDirectory).sameFiles fun staged w₁' hfilled' => ?_
    obtain ⟨rfl, rfl⟩ := hfilled.unique hfilled'
    exact .inr ⟨e, hrun⟩
  | ok entries =>
    have hlist := Act.eq_ok hrun
    rw [hcollect] at hlist
    obtain ⟨hclear, -⟩ := Archive.makeRoom_clears archive hinside.sound hlist
    rw [← hcleared] at hclear
    constructor
    · intro hsame staged' w₁' hfilled'
      obtain ⟨rfl, rfl⟩ := hfilled.unique hfilled'
      refine .inl fun q hq => ?_
      by_contra hthere
      obtain ⟨e, hget⟩ := Option.ne_none_iff_exists'.1 hthere
      have hstaged := hinside.kept q e (hgrown.kept q e hget)
      have he : e ≠ .directory := fun heq => hq.not_directory (heq ▸ hstaged)
      exact he (hclear.gone q e hq (Disk.get?_of_removeTree ((hsame q e he).2 hget)))
    · intro h
      have hlisted : ¬ ∃ e, (Archive.collect s.path w₁).1 = .error e := by
        rintro ⟨e, he⟩
        rw [hrun] at he
        cases he
      have hfree := (h _ _ hfilled).resolve_right hlisted
      exact (hgrown.trans (staged_of_cleared hgrown hinside.toStaged hclear hfree).withoutDirectory).sameFiles

end Single

/-! ### Any results -/

/-- **A failed build is harmless exactly if clearing the way was.** If the staging directory never was complete, it is;
and what it does to the files otherwise is what it did to them before the archive was begun. A build of an output
directory keeps a file exactly if it does not go with the directory that was there; and one of an archive keeps all
exactly if none was in its place, or the output could not be listed. -/
theorem failed_run_harmless_iff {o : Options} {w w' : World} {f : Failure}
    (hsound : (prepare o w).2.disk.Sound) (hnames : StayingNames o) (hmain : StayingMain o w)
    (hfail : run o w = (.error f, w')) :
    (SameFiles (prepare o w).2.disk w'.disk ↔ ∀ staged w₁, Filled o w staged w₁ →
      SameFiles (prepare o w).2.disk (withStaging staged (clearWay o staged) w₁).2.disk) ∧
    (∀ directory, o.outputDirectory = some directory → o.archive = none → ∀ q e, e ≠ .directory →
      ((prepare o w).2.disk.tree.get? q = some e →
        (w'.disk.tree.get? q = some e ↔ ∀ staged w₁, Filled o w staged w₁ → ¬ w₁.disk.Clears directory q)) ∧
      (w'.disk.tree.get? q = some e → (prepare o w).2.disk.tree.get? q = some e ∨
        ∃ staged w₁ place, Filled o w staged w₁ ∧ w₁.disk.find staged false = .ok (.found place .directory) ∧
          Files.Below place q)) ∧
    ∀ archive, o.outputDirectory = none → o.archive = some archive →
      (SameFiles (prepare o w).2.disk w'.disk ↔ ∀ staged w₁, Filled o w staged w₁ →
        (∀ q, w₁.disk.Occupies archive q → (prepare o w).2.disk.tree.get? q = none) ∨
          ∃ f, (Archive.collect staged w₁).1 = .error f) := by
  refine ⟨?_, fun directory ho harchive q e he => failed_output_run hsound hnames hmain hfail ho harchive he,
    fun archive ho harchive => failed_archive_run hsound hnames hmain hfail ho harchive⟩
  rcases failed_run_cases hsound hnames hmain hfail with
    ⟨hnone, hsame⟩ | ⟨staged, w₁, w₂, hfilled, hreplace, hdisk⟩
  · exact iff_of_true hsame fun staged w₁ hfilled => absurd hfilled (hnone staged w₁)
  · rw [hdisk, replace_fails hreplace, ← withStaging_disk]
    constructor
    · intro hsame staged' w₁' hfilled'
      obtain ⟨rfl, rfl⟩ := hfilled.unique hfilled'
      exact hsame
    · exact fun h => h staged w₁ hfilled

/-- The statement holds of a build whose archive cannot take the place of a directory, and of one whose output directory
cannot take the place of a file. -/
theorem exists_failed_run_harmless : ∃ (o o' : Options) (w : World) (f f' : Failure) (directory file : Path)
    (q : Files.Place), o.outputDirectory = none ∧ o.archive = some directory ∧ o'.outputDirectory = some file ∧
      o'.archive = none ∧ run o w = (.error f, (run o w).2) ∧ run o' w = (.error f', (run o' w).2) ∧
      SameFiles (prepare o w).2.disk (run o w).2.disk ∧
      (∀ staged w₁, Filled o w staged w₁ →
        (∀ p, w₁.disk.Occupies directory p → (prepare o w).2.disk.tree.get? p = none) ∨
          ∃ f, (Archive.collect staged w₁).1 = .error f) ∧
      (run o' w).2.disk.tree.get? q = w.disk.tree.get? q ∧ w.disk.tree.get? q ≠ none ∧
      ∀ staged w₁, Filled o' w staged w₁ → ¬ w₁.disk.Clears file q := by
  let taken : Files.Entry := .file ⟨[104], 0, false⟩
  let tree : Files.Tree := ⟨[(["out"], .directory), (["out", "a.txt"], .file ⟨[104], 0, false⟩), (["taken"], taken)]⟩
  let o : Options := {archive := some ⟨"out"⟩}
  let o' : Options := {outputDirectory := some ⟨"taken"⟩}
  let w : World := {disk := {tree := tree}, temporary := ⟨"/"⟩}
  let f : Failure := .io (.moveArchive ⟨"out"⟩) .isADirectory
  let f' : Failure := .io (.removeDirectory ⟨"taken"⟩) .notADirectory
  have hsound : (prepare o w).2.disk.Sound := by decide +kernel
  have hsound' : (prepare o' w).2.disk.Sound := by decide +kernel
  have hnames : StayingNames o := ⟨nofun, by decide +kernel⟩
  have hnames' : StayingNames o' := ⟨nofun, by decide +kernel⟩
  have hmain : StayingMain o w := fun _ _ h => by cases h
  have hmain' : StayingMain o' w := fun _ _ h => by cases h
  have hfail : run o w = (.error f, (run o w).2) := Act.eq_error (by decide +kernel)
  have hfail' : run o' w = (.error f', (run o' w).2) := Act.eq_error (by decide +kernel)
  have hsame : SameFiles (prepare o w).2.disk (run o w).2.disk := by
    rw [show (run o w).2.disk = (prepare o w).2.disk by decide +kernel]
    exact SameFiles.refl _
  have hbefore : (prepare o' w).2.disk.tree.get? ["taken"] = some taken := by decide +kernel
  have hkept : (run o' w).2.disk.tree.get? ["taken"] = some taken := by decide +kernel
  have harmless := (failed_run_harmless_iff hsound hnames hmain hfail).2.2 _ rfl rfl
  have keeps := (failed_run_harmless_iff hsound' hnames' hmain' hfail').2.1 _ rfl rfl ["taken"] taken (by decide)
  exact ⟨o, o', w, f, f', ⟨"out"⟩, ⟨"taken"⟩, ["taken"], rfl, rfl, rfl, rfl, hfail, hfail', hsame, harmless.1 hsame,
    hkept, by decide, (keeps.1 hbefore).1 hkept⟩

/-- A build into the directory that it is run from loses a file there and fails. -/
theorem failed_run_loses_file : ∃ o w f w' place data, w.disk.Sound ∧ run o w = (.error f, w') ∧
    w.disk.tree.get? place = some (.file data) ∧ w'.disk.tree.get? place = none := by
  let o : Options := {outputDirectory := some ⟨"."⟩}
  let w : World := {disk := {tree := ⟨[(["a.txt"], .file ⟨[104], 0, false⟩)]⟩}}
  let f : Failure := .io (.removeDirectory ⟨"."⟩) .invalidArgument
  have hfail : run o w = (.error f, (run o w).2) := Act.eq_error (by decide +kernel)
  exact ⟨o, w, f, (run o w).2, ["a.txt"], ⟨[104], 0, false⟩, by decide +kernel, hfail,
    by decide +kernel, by decide +kernel⟩

end PluginShading.Build
