import PluginShading.Proofs.Archive.Storing
import PluginShading.Proofs.Build.Filling

/-!
The parts of a build.

A build prepares, fills a staging directory, clears the way for the results, and puts the archive there
(`run_eq`, `replace_eq`). The rules that it prepares lead below the source root where the plugin's own
namespace does (`prepare_target`), so all that is changed until the staging directory is complete is changed
in there (`inside_fill`).
-/
namespace PluginShading.Build

open Act (Ensures Keeps)
open Files (Disk Site Inside Grown)
open Shading (Rule Target Staying)

/-! ### The parts of a build -/

/-- What a build goes by once the libraries are known. -/
structure Plan where
  target : Target
  rules : List Rule
  roots : List Path

/-- The rules and source roots of a build with this target. -/
def planFor (o : Options) (target : Target) : Act Plan := do
  Act.report .debug ("target prefix is " ++ String.ofList target.text)
  let given ← o.shadedRoots.mapM (ruleFor target)
  let found ← match o.project with
    | none => pure {}
    | some project => libraries o target project
  pure ⟨target, given ++ found.rules, o.sourceRoots ++ found.sourceRoots⟩

/-- All that comes before the staging directory, the installation of libraries included. -/
def prepare (o : Options) : Act Plan := do
  if o.outputDirectory = none ∧ o.archive = none then Act.fail (.because .noOutput)
  let target ← chooseTarget o
  planFor o target

/-- Takes away what is in the place of the results, and puts the output directory there. -/
def clearWay (o : Options) (staged : Path) : Act (Option (Path × List Archive.Entry)) := do
  let built ← publish o staged
  match o.archive with
  | none => pure none
  | some archive =>
    let entries ← Archive.makeRoom built archive
    pure (some (archive, entries))

def putArchive : Option (Path × List Archive.Entry) → Act Unit
  | none => pure ()
  | some (archive, entries) => do
    Archive.store archive entries
    Act.report .info ("Generated archive at " ++ archive.text)

/-- Puts the results in the place of what was there. -/
def replace (o : Options) (staged : Path) : Act Unit := clearWay o staged >>= putArchive

def report (o : Options) (plan : Plan) (tally : Tally) : Report where
  target := plan.target
  filesParsed := tally.parsed
  declarationsWritten := tally.written
  filesDropped := tally.parsed - tally.kept
  rulesApplied := plan.rules.length
  outputDirectory := o.outputDirectory
  archive := o.archive

/-- What is done with the staging directory. -/
def build (o : Options) (plan : Plan) (staged : Path) : Act Report := do
  let tally ← fill o plan.roots plan.rules staged
  replace o staged
  pure (report o plan tally)

theorem replace_eq (o : Options) (staged : Path) :
    replace o staged = publish o staged >>= packageOutput o := by
  unfold replace clearWay packageOutput
  cases o.archive with
  | none => simp only [bind_assoc, pure_bind, putArchive]
  | some archive => simp only [bind_assoc, pure_bind, putArchive, Archive.package_eq]

theorem run_eq (o : Options) : run o = prepare o >>= fun plan =>
    stage o.outputDirectory >>= fun staged => withStaging staged (build o plan staged) := by
  unfold run prepare planFor build
  by_cases hnone : o.outputDirectory = none ∧ o.archive = none <;> cases o.project
  all_goals
    simp only [hnone, if_false, bind_assoc, pure_bind, replace_eq]
    rfl

/-! ### Preparing -/

theorem ruleFor_target (target : Target) (root : String) :
    Ensures (fun _ => True) (ruleFor target root) fun r => r.target = target := by
  refine Ensures.within (Ensures.ofExcept fun r hr => ?_)
  unfold Rule.ofRoot at hr
  split at hr
  · cases hr
    rfl
  · cases hr

theorem libraries_target (o : Options) (target : Target) (project : Path) :
    Ensures (fun _ => True) (libraries o target project)
      fun found => ∀ r ∈ found.rules, r.target = target := by
  have hresolve : Ensures (fun _ => True) (Act.disk >>= fun d =>
      Act.reports (Resolution.resolve d project target).2 >>= fun _ =>
        Act.ofExcept (fun e => ⟨[.resolveDependencies project], some (.manifest e)⟩)
          (Resolution.resolve d project target).1)
      fun found => ∀ r ∈ found.rules, r.target = target := by
    refine Ensures.bind (Ensures.any Act.disk) fun d _ => ?_
    refine Ensures.bind Ensures.reports fun _ _ => ?_
    exact Ensures.ofExcept fun found hfound => Resolution.resolve_target hfound
  unfold libraries
  dsimp only
  split
  · refine Ensures.bind (Ensures.any (Install.locate o.installer)) fun program _ => ?_
    exact Ensures.bind (Ensures.any (Install.install program project)) fun _ _ => hresolve
  · exact hresolve

theorem planFor_target (o : Options) (target : Target) :
    Ensures (fun _ => True) (planFor o target) fun plan => ∀ r ∈ plan.rules, r.target = target := by
  unfold planFor
  refine Ensures.bind Ensures.report fun _ _ => ?_
  refine Ensures.bind (Ensures.mapM fun root _ => ruleFor_target target root) fun given hgiven => ?_
  cases o.project with
  | none => exact Ensures.pure fun r hr => hgiven r (by simpa using hr)
  | some project =>
    refine Ensures.bind (libraries_target o target project) fun found hfound => ?_
    refine Ensures.pure fun r hr => ?_
    rcases List.mem_append.1 hr with hr | hr
    · exact hgiven r hr
    · exact hfound r hr

/-- The namespace of the main class never leads above the source root. -/
def StayingMain (o : Options) (w : World) : Prop :=
  ∀ space w', mainSpace o w = (.ok (some space), w') → Staying space

theorem prepare_target {o : Options} {w w' : World} {plan : Plan} (hmain : StayingMain o w)
    (h : prepare o w = (.ok plan, w')) : ∀ r ∈ plan.rules, Staying r.target.text := by
  have hchosen : (chooseTarget o >>= planFor o) w = (.ok plan, w') := by
    unfold prepare at h
    split at h
    · cases h
    · exact h
  obtain ⟨target, w₁, htarget, hplan⟩ := Act.bind_eq_ok hchosen
  obtain ⟨parent, w₂, hparent, hgenerated⟩ := Act.bind_eq_ok htarget
  obtain ⟨seed, w₃, -, hpure⟩ := Act.bind_eq_ok hgenerated
  cases hpure
  intro r hr
  rw [(planFor_target o _ w₁ trivial).2 plan (by rw [hplan]) r hr]
  refine Shading.staying_generate (fun space hspace => ?_) seed
  exact hmain space w₂ (hspace ▸ hparent)

/-! ### Staging -/

theorem stage_some (directory : Path) :
    stage (some directory) = Files.freshDirectory .createStaging ⟨"."⟩ stagingName ∨
      ∃ parent, stage (some directory) = Files.ensureDirectory parent >>= fun _ =>
        Files.freshDirectory (.createStagingIn parent) parent stagingName := by
  simp only [stage]
  cases directory.parent with
  | none => exact .inl rfl
  | some parent =>
    by_cases hempty : parent = ⟨""⟩
    · subst hempty
      exact .inl rfl
    · refine .inr ⟨parent, ?_⟩
      obtain ⟨text⟩ := parent
      have htext : text ≠ "" := fun h => hempty (h ▸ rfl)
      simp only

/-- The staging directory is a site beside which nothing has changed but that directories were made. -/
theorem stage_cases {d : Disk} (output : Option Path) {w : World} (hw : Grown d w.disk) :
    (∃ f w', stage output w = (.error f, w') ∧ Grown d w'.disk) ∨
      ∃ s w', stage output w = (.ok s.path, w') ∧ Grown d s.base ∧ Inside s w'.disk := by
  have hlead : '/' ∉ stagingName.toList := by decide
  have hfresh : ∀ note folder (w : World), Grown d w.disk →
      (∃ f w', Files.freshDirectory note folder stagingName w = (.error f, w') ∧ Grown d w'.disk) ∨
        ∃ s w', Files.freshDirectory note folder stagingName w = (.ok s.path, w') ∧ Grown d s.base ∧
          Inside s w'.disk := by
    intro note folder w hw
    rcases Files.freshDirectory_cases hlead hw.sound with
      ⟨f, w', hrun, hdisk⟩ | ⟨s, w', hrun, hbase, hinside⟩
    · exact .inl ⟨f, w', hrun, hdisk ▸ hw⟩
    · exact .inr ⟨s, w', hrun, hbase ▸ hw, hinside⟩
  cases output with
  | none => exact hfresh _ _ _ hw
  | some directory =>
    rcases stage_some directory with hstage | ⟨parent, hstage⟩ <;> rw [hstage]
    · exact hfresh _ _ _ hw
    · have hensure := ((Grown.admitsDirectories d).anywhere.ensureDirectory (p := parent) trivial w hw).1
      cases hrun : Files.ensureDirectory parent w with
      | mk outcome w₁ =>
        rw [hrun] at hensure
        cases outcome with
        | error f => exact .inl ⟨f, w₁, Act.bind_of_error hrun, hensure⟩
        | ok _ =>
          rw [Act.bind_of_ok hrun]
          exact hfresh _ _ _ hensure

/-- Filling the staging directory changes nothing but in there, also where it fails. -/
theorem inside_fill {o : Options} {plan : Plan} {w w₁ w₂ : World} {staged : Path}
    (hsound : (prepare o w).2.disk.Sound) (hnames : StayingNames o) (hmain : StayingMain o w)
    (hprepare : prepare o w = (.ok plan, w₁)) (hstage : stage o.outputDirectory w₁ = (.ok staged, w₂)) :
    ∃ s : Site, s.path = staged ∧ Grown (prepare o w).2.disk s.base ∧ Inside s w₂.disk ∧
      Inside s (fill o plan.roots plan.rules staged w₂).2.disk := by
  have hrules := prepare_target hmain hprepare
  rw [hprepare] at hsound ⊢
  rcases stage_cases o.outputDirectory (Grown.refl hsound) with
    ⟨e, w₃, hfail, -⟩ | ⟨s, w₃, hok, hgrown, hinside⟩
  · rw [hfail] at hstage
    cases hstage
  · rw [hok] at hstage
    cases hstage
    exact ⟨s, rfl, hgrown, hinside, (fill_keeps hnames hrules w₂ hinside).1⟩

/-- All that comes before the way is cleared for the results. -/
def fillUp (o : Options) : Act Path := do
  let plan ← prepare o
  let staged ← stage o.outputDirectory
  let _ ← fill o plan.roots plan.rules staged
  pure staged

/-- The staging directory is complete in this world. -/
def Filled (o : Options) (w : World) (staged : Path) (w' : World) : Prop := fillUp o w = (.ok staged, w')

theorem Filled.unique {o : Options} {w w₁ w₂ : World} {staged₁ staged₂ : Path}
    (h₁ : Filled o w staged₁ w₁) (h₂ : Filled o w staged₂ w₂) : staged₁ = staged₂ ∧ w₁ = w₂ := by
  have heq := h₁.symm.trans h₂
  cases heq
  exact ⟨rfl, rfl⟩

theorem Filled.inside {o : Options} {w w' : World} {staged : Path} (h : Filled o w staged w')
    (hsound : (prepare o w).2.disk.Sound) (hnames : StayingNames o) (hmain : StayingMain o w) :
    ∃ s : Site, s.path = staged ∧ Grown (prepare o w).2.disk s.base ∧ Inside s w'.disk := by
  obtain ⟨plan, w₁, hprepare, h⟩ := Act.bind_eq_ok h
  obtain ⟨_, w₂, hstage, h⟩ := Act.bind_eq_ok h
  obtain ⟨tally, w₃, hfill, h⟩ := Act.bind_eq_ok h
  cases h
  obtain ⟨s, hpath, hgrown, -, hinside⟩ := inside_fill hsound hnames hmain hprepare hstage
  rw [hfill] at hinside
  exact ⟨s, hpath, hgrown, hinside⟩

end PluginShading.Build
