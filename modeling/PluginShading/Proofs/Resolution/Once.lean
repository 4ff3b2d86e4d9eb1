import PluginShading.Proofs.Resolution.Precedence
import PluginShading.Proofs.Resolution.Reads

/-!
Packages that are counted once.

A name is looked up once however often it is required, and what is looked up are just the names that the project's
manifest and those of the packages it leads to require (`mem_lookups_iff`). The project itself is not among the names
that the walk starts with, so it is looked up as a package, and counted a second time, exactly if it leads back
to its own name (`packages_counted_once`).
-/
namespace PluginShading.Resolution

open Shading (Rule Target)

variable {load : String → Except ManifestError Manifest} {target : Target} {project m : Manifest}

/-- The manifests that a walk goes through: that of the project and those of the shadeable packages it leads to. -/
def Entered (load : String → Except ManifestError Manifest) (project m : Manifest) : Prop :=
  m = project ∨ ∃ name, Reached load project name ∧ load name = .ok m

/-- One of them requires the package `name`, which need not be shadeable. -/
def Required (load : String → Except ManifestError Manifest) (project : Manifest) (name : String) : Prop :=
  isPlatform name = false ∧ ∃ m, Entered load project m ∧ name ∈ m.require

theorem Reached.shadeable {name : String} (h : Reached load project name) : Shadeable load name := by
  obtain ⟨first, hfirst, hpath⟩ := h
  cases hpath with
  | refl => exact hfirst.shadeable
  | tail _ hlast =>
    obtain ⟨_, _, _, hrequires⟩ := hlast
    exact hrequires.shadeable

/-- The shadeable packages that are required are entered as well. -/
theorem Entered.reached {name : String} (hm : Entered load project m) (h : Requires load m name) :
    Reached load project name := by
  rcases hm with rfl | ⟨p, hp, hload⟩
  · exact ⟨name, h, .refl⟩
  · obtain ⟨package, hpackage, hshading⟩ := hp.shadeable
    obtain rfl : m = package := Except.ok.inj (hload.symm.trans hpackage)
    obtain ⟨first, hfirst, hpath⟩ := hp
    exact ⟨first, hfirst, hpath.tail ⟨m, hload, hshading, h⟩⟩

namespace Walk

variable {w v after : Walk}

/-! ### Steps -/

/-- What a step does to the stack and to the names that may be taken in. -/
inductive Move (load : String → Except ManifestError Manifest) (w after : Walk) : Prop
  | leave {f : Frame} {below : List Frame} : w.stack = f :: below → f.pending = [] →
      after.stack = below → after.fresh = w.fresh → Move load w after
  | pass {f : Frame} {below : List Frame} {name : String} {rest : List String} : w.stack = f :: below →
      f.pending = name :: rest → isPlatform name = true ∨ name ∉ w.fresh →
      after.stack = {f with pending := rest} :: below → after.fresh = w.fresh → Move load w after
  | take {f : Frame} {below : List Frame} {name : String} {rest : List String} {package : Manifest} :
      w.stack = f :: below → f.pending = name :: rest →
      isPlatform name = false → isPackageName name = true → name ∈ w.fresh → load name = .ok package →
      after.stack = (if package.shading.isNone then [] else [⟨name, package, package.require⟩]) ++
        {f with pending := rest} :: below →
      after.fresh = w.fresh.filter (· ≠ name) → Move load w after

theorem next_move (h : next load target w = .ok (some after)) : Move load w after := by
  cases Step.of_next h with
  | left hstack hpending hleave =>
    obtain ⟨hbelow, hfresh⟩ := leave_keeps hleave
    exact .leave hstack hpending hbelow hfresh
  | met hstack hpending hmet =>
    cases hmet with
    | platform hplatform => exact .pass hstack hpending (.inl hplatform) rfl rfl
    | known _ _ hknown => exact .pass hstack hpending (.inr hknown) rfl rfl
    | bare hplatform hpackage hfresh hload hshading =>
      exact .take hstack hpending hplatform hpackage hfresh hload (by rw [hshading]; rfl) rfl
    | entered hplatform hpackage hfresh hload hshading =>
      exact .take hstack hpending hplatform hpackage hfresh hload (by rw [hshading]; rfl) rfl

/-- A step that looks up a name takes it in. -/
theorem fresh_of_next (h : next load target w = .ok (some after)) :
    after.fresh = w.fresh.filter fun name => w.lookup? ≠ some name := by
  have hkeep : w.lookup? = none → w.fresh = w.fresh.filter fun name => w.lookup? ≠ some name := fun hnone => by
    simp [hnone]
  cases next_move h with
  | leave hstack hpending _ hfresh =>
    rw [hfresh]
    exact hkeep (by simp [lookup?, meets?, hstack, hpending])
  | pass hstack hpending hpass _ hfresh =>
    rw [hfresh]
    refine hkeep ?_
    rcases hpass with hpass | hpass <;> simp [lookup?, meets?, hstack, hpending, hpass]
  | @take f below name rest package hstack hpending hplatform hpackage hname _ _ hfresh =>
    have hlookup : w.lookup? = some name :=
      lookup?_eq_some_iff.2 ⟨_, meets?_eq_some_iff.2 ⟨f, rest, below, hstack, hpending, rfl⟩, hplatform, hpackage, hname⟩
    rw [hfresh, hlookup]
    simp only [ne_eq, Option.some.injEq, eq_comm]

/-! ### Runs -/

/-- **A run looks up no name twice**, and none but those that may be taken in. -/
theorem nodup_lookups : (lookups load target w).Nodup ∧ ∀ name ∈ lookups load target w, name ∈ w.fresh := by
  have hfirst : ∀ {w : Walk} {name : String}, name ∈ w.lookup?.toList → name ∈ w.fresh := by
    intro w name hname
    obtain ⟨-, -, -, -, hfresh⟩ := lookup?_eq_some_iff.1 (Option.mem_toList.1 hname)
    exact hfresh
  have honce : ∀ {w : Walk}, w.lookup?.toList.Nodup := fun {w} => by
    cases w.lookup? <;> simp
  fun_induction trail load target w with
  | case1 w after hnext ih =>
    rw [lookups_of_next hnext]
    have hfresh := fresh_of_next hnext
    have hlater : ∀ name ∈ lookups load target after, name ∈ w.fresh ∧ w.lookup? ≠ some name := by
      intro name hname
      have hafter := ih.2 name hname
      rw [hfresh, List.mem_filter] at hafter
      exact ⟨hafter.1, of_decide_eq_true hafter.2⟩
    refine ⟨List.nodup_append.2 ⟨honce, ih.1, fun name hname other hother => ?_⟩, fun name hname => ?_⟩
    · rintro rfl
      exact (hlater name hother).2 (Option.mem_toList.1 hname)
    · rcases List.mem_append.1 hname with hname | hname
      · exact hfirst hname
      · exact (hlater name hname).1
  | case2 w hnext =>
    rw [lookups_of_end fun after hafter => hnext after hafter]
    exact ⟨honce, fun name => hfirst⟩

/-- What a walk has taken in of the `names` that may be required is accounted for: it goes through manifests that the
project leads to, and what those require is taken in too or still to come. -/
structure Covers (load : String → Except ManifestError Manifest) (project : Manifest) (names : List String)
    (w : Walk) : Prop where
  frames : ∀ f ∈ w.stack, Entered load project f.manifest ∧ ∀ name ∈ f.pending, name ∈ f.manifest.require
  complete : ∀ m, (m = project ∨ ∃ p ∈ names, p ∉ w.fresh ∧ load p = .ok m ∧ m.shading.isNone = false) →
    ∀ name ∈ m.require, isPlatform name = false → name ∉ w.fresh ∨ ∃ f ∈ w.stack, f.manifest = m ∧ name ∈ f.pending

variable {names : List String}

theorem covers_start (names : List String) (project : Manifest) : Covers load project names (start names project) where
  frames f hf := by
    obtain rfl := List.mem_singleton.1 hf
    exact ⟨.inl rfl, fun _ hname => hname⟩
  complete m hm name hname _ := by
    rcases hm with rfl | ⟨p, hp, hfresh, -⟩
    · exact .inr ⟨_, List.mem_cons_self, rfl, hname⟩
    · exact absurd hp hfresh

/-- A requirement that is met was the next one, or is still to come. -/
theorem pending_of_next {f : Frame} {below : List Frame} {name next : String} {rest : List String}
    (hpending : f.pending = next :: rest)
    (h : ∃ g ∈ f :: below, g.manifest = m ∧ name ∈ g.pending) :
    name = next ∨ ∃ g ∈ {f with pending := rest} :: below, g.manifest = m ∧ name ∈ g.pending := by
  obtain ⟨g, hg, hm, hname⟩ := h
  rcases List.mem_cons.1 hg with rfl | hg
  · rw [hpending] at hname
    exact (List.mem_cons.1 hname).imp_right fun hname => ⟨_, List.mem_cons_self, hm, hname⟩
  · exact .inr ⟨g, List.mem_cons_of_mem _ hg, hm, hname⟩

/-- **A step keeps the account.** -/
theorem Covers.next (h : Covers load project names w) (hnext : next load target w = .ok (some after)) :
    Covers load project names after := by
  obtain ⟨hframes, hcomplete⟩ := h
  cases next_move hnext with
  | @leave f below hstack hpending hbelow hfresh =>
    rw [hstack, List.forall_mem_cons] at hframes
    refine ⟨hbelow ▸ hframes.2, fun m hm name hname hplatform => ?_⟩
    rw [hfresh] at hm ⊢
    refine (hcomplete m hm name hname hplatform).imp_right ?_
    rintro ⟨g, hg, hmanifest, hleft⟩
    rw [hstack] at hg
    rcases List.mem_cons.1 hg with rfl | hg
    · rw [hpending] at hleft
      cases hleft
    · exact ⟨g, hbelow ▸ hg, hmanifest, hleft⟩
  | @pass f below met rest hstack hpending hpass hafter hfresh =>
    rw [hstack, List.forall_mem_cons, hpending, List.forall_mem_cons] at hframes
    refine ⟨?_, fun m hm name hname hplatform => ?_⟩
    · rw [hafter]
      exact List.forall_mem_cons.2 ⟨⟨hframes.1.1, hframes.1.2.2⟩, hframes.2⟩
    · rw [hfresh] at hm ⊢
      rw [hafter]
      rcases hcomplete m hm name hname hplatform with htaken | hleft
      · exact .inl htaken
      · rcases pending_of_next hpending (hstack ▸ hleft) with rfl | hleft
        · exact .inl (hpass.resolve_left (by simp [hplatform]))
        · exact .inr hleft
  | @take f below met rest package hstack hpending hmet _ _ hload hafter hfresh =>
    rw [hstack, List.forall_mem_cons, hpending, List.forall_mem_cons] at hframes
    obtain ⟨⟨hentered, hlisted, hrest⟩, hbelow⟩ := hframes
    have hgone : ∀ {name}, name ∉ after.fresh ↔ name ∉ w.fresh ∨ name = met := by
      intro name
      rw [hfresh, List.mem_filter, decide_eq_true_eq, not_and_or, not_not]
    refine ⟨?_, fun m hm name hname hplatform => ?_⟩
    · rw [hafter, List.forall_mem_append, List.forall_mem_cons]
      refine ⟨fun g hg => ?_, ⟨hentered, hrest⟩, hbelow⟩
      cases hshading : package.shading.isNone with
      | true =>
        rw [hshading] at hg
        cases hg
      | false =>
        rw [hshading] at hg
        obtain rfl := List.mem_singleton.1 hg
        exact ⟨.inr ⟨met, hentered.reached ⟨hlisted, hmet, package, hload, hshading⟩, hload⟩, fun _ hname => hname⟩
    · by_cases hnew : m = package ∧ package.shading.isNone = false
      · -- The package that is taken in has all its requirements still to come.
        obtain ⟨rfl, hshading⟩ := hnew
        refine .inr ⟨⟨met, m, m.require⟩, ?_, rfl, hname⟩
        rw [hafter, hshading]
        exact List.mem_append_left _ List.mem_cons_self
      · have hold : m = project ∨ ∃ p ∈ names, p ∉ w.fresh ∧ load p = .ok m ∧ m.shading.isNone = false := by
          refine hm.imp_right ?_
          rintro ⟨p, hp, htaken, hpackage, hshading⟩
          refine ⟨p, hp, (hgone.1 htaken).resolve_right ?_, hpackage, hshading⟩
          rintro rfl
          obtain rfl : m = package := Except.ok.inj (hpackage.symm.trans hload)
          exact hnew ⟨rfl, hshading⟩
        rw [hgone, hafter]
        rcases hcomplete m hold name hname hplatform with htaken | hleft
        · exact .inl (.inl htaken)
        · rcases pending_of_next hpending (hstack ▸ hleft) with rfl | ⟨g, hg, hleft⟩
          · exact .inl (.inr rfl)
          · exact .inr ⟨g, List.mem_append_right _ hg, hleft⟩

theorem Covers.of_mem_trail (h : Covers load project names w) (hv : v ∈ trail load target w) :
    Covers load project names v := by
  fun_induction trail load target w with
  | case1 w after hnext ih =>
    rcases List.mem_cons.1 hv with rfl | hv
    · exact h
    · exact ih (h.next hnext) hv
  | case2 w hnext => exact List.mem_singleton.1 hv ▸ h

/-- A run that succeeds comes to the end of its stack. -/
theorem exists_end {found : Found} (h : (run load target w).1 = .ok found) :
    ∃ v ∈ trail load target w, v.stack = [] := by
  fun_induction run load target w with
  | case1 w e hnext => cases h
  | case2 w hnext =>
    have hsome : ∀ x : Except ManifestError Walk, x.map some ≠ .ok none := by
      rintro (e | after) <;> simp [Except.map]
    refine ⟨w, self_mem_trail, ?_⟩
    unfold next at hnext
    split at hnext
    · assumption
    · split at hnext <;> exact absurd hnext (hsome _)
  | case3 w after hnext ih =>
    obtain ⟨v, hv, hstack⟩ := ih h
    exact ⟨v, trail_of_next hnext ▸ List.mem_cons_of_mem w hv, hstack⟩

end Walk

/-! ### Projects -/

variable {d : Files.Disk} {directory : Path} {found : Found}

/-- **The names that are looked up are those that are required** of the project and of the packages it leads to. -/
theorem mem_lookups_iff (hload : Manifest.load d directory = .ok project)
    (hresolve : (resolve d directory target).1 = .ok found) {name : String} :
    name ∈ lookups d directory target ↔ Required (installed d directory) project name := by
  have hstart : Walk.Covers (installed d directory) project _ _ := Walk.covers_start (requiredNames d) project
  rw [lookups_of_load hload]
  constructor
  · intro h
    obtain ⟨w, hw, hlookup⟩ := List.mem_filterMap.1 h
    obtain ⟨m, hmeets, hplatform, -, -⟩ := Walk.lookup?_eq_some_iff.1 hlookup
    obtain ⟨f, rest, below, hstack, hpending, rfl⟩ := Walk.meets?_eq_some_iff.1 hmeets
    obtain ⟨hentered, hlisted⟩ := (hstart.of_mem_trail hw).frames f (hstack ▸ List.mem_cons_self)
    exact ⟨hplatform, f.manifest, hentered, hlisted name (hpending ▸ List.mem_cons_self)⟩
  · rw [resolve_of_load hload] at hresolve
    obtain ⟨v, hv, hstack⟩ := Walk.exists_end hresolve
    have hcovers := hstart.of_mem_trail hv
    -- Nothing is left on the stack, so all that is required is taken in.
    have htaken : ∀ m, (m = project ∨ ∃ p ∈ requiredNames d, p ∉ v.fresh ∧ installed d directory p = .ok m ∧
        m.shading.isNone = false) → ∀ name ∈ m.require, isPlatform name = false → name ∉ v.fresh := by
      intro m hm name hname hplatform
      refine (hcovers.complete m hm name hname hplatform).resolve_right ?_
      rw [hstack]
      rintro ⟨g, hg, -⟩
      cases hg
    have hreached : ∀ {p}, Reached (installed d directory) project p → p ∈ requiredNames d ∧ p ∉ v.fresh := by
      rintro p ⟨first, hfirst, hpath⟩
      induction hpath with
      | refl => exact ⟨mem_requiredNames hload _ hfirst.listed, htaken _ (.inl rfl) _ hfirst.listed hfirst.platform⟩
      | tail _ hlast ih =>
        obtain ⟨package, hpackage, hshading, hrequires⟩ := hlast
        exact ⟨mem_requiredNames hpackage _ hrequires.listed,
          htaken package (.inr ⟨_, ih.1, ih.2, hpackage, hshading⟩) _ hrequires.listed hrequires.platform⟩
    rintro ⟨hplatform, m, rfl | ⟨p, hp, hpackage⟩, hlisted⟩
    · exact Walk.mem_lookups_of_taken hv (mem_requiredNames hload _ hlisted) (htaken _ (.inl rfl) _ hlisted hplatform)
    · obtain ⟨package, hshadeable, hshading⟩ := hp.shadeable
      obtain rfl : m = package := Except.ok.inj (hpackage.symm.trans hshadeable)
      exact Walk.mem_lookups_of_taken hv (mem_requiredNames hpackage _ hlisted)
        (htaken m (.inr ⟨p, (hreached hp).1, (hreached hp).2, hpackage, hshading⟩) _ hlisted hplatform)

theorem nodup_toList_append_iff {own : Option String} {names : List String} (h : names.Nodup) :
    (own.toList ++ names).Nodup ↔ ∀ name, own = some name → name ∉ names := by
  cases own <;> simp [h]

/-- **Each package is counted once, and the project is counted as a package besides exactly if it leads back to its
own name.** Each shadeable package that the project leads to adds its rule and its source roots once, and each
name that is required is looked up once. With the project's own name among the visited ones, no name is entered
twice exactly if no shadeable package that the project leads to has that name, and none is looked up twice exactly
if none is required by it. -/
theorem packages_counted_once (hload : Manifest.load d directory = .ok project)
    (hresolve : (resolve d directory target).1 = .ok found) :
    (∃ order rules, Counted (installed d directory) target project found order rules ∧
      ((project.name.toList ++ order).Nodup ↔
        ∀ own, project.name = some own → ¬ Reached (installed d directory) project own)) ∧
    (lookups d directory target).Nodup ∧
    (∀ name, name ∈ lookups d directory target ↔ Required (installed d directory) project name) ∧
    ((project.name.toList ++ lookups d directory target).Nodup ↔
      ∀ own, project.name = some own → ¬ Required (installed d directory) project own) := by
  have honce : (lookups d directory target).Nodup := by
    rw [lookups_of_load hload]
    exact Walk.nodup_lookups.1
  obtain ⟨s, s', order, haccount, hneeds, hleave, rfl⟩ := exists_account hload hresolve
  have hcounted := haccount.counted hneeds hleave
  refine ⟨⟨order, s.found.rules, hcounted, ?_⟩, honce, fun name => mem_lookups_iff hload hresolve, ?_⟩
  · rw [nodup_toList_append_iff hcounted.once]
    simp only [hcounted.reached]
  · rw [nodup_toList_append_iff honce]
    simp only [mem_lookups_iff hload hresolve]

/-- The statement holds of a project with a package that needs one without a shading block. That one requires the
project, but the walk does not go on from it. -/
theorem exists_packages_counted_once : ∃ d directory target project found,
    Manifest.load d directory = .ok project ∧ (resolve d directory target).1 = .ok found ∧
      project.name = some "a/p" ∧ found.rules.length = 2 ∧
      (project.name.toList ++ lookups d directory target).Nodup := by
  let file (text : String) : Files.Entry := .file ⟨Files.Bytes.ofText text, 0, false⟩
  let d : Files.Disk := ⟨⟨[
    (["vendor"], .directory), (["vendor", "a"], .directory), (["vendor", "b"], .directory),
    (["vendor", "a", "q"], .directory), (["vendor", "b", "r"], .directory),
    (["composer.json"], file
      "\x7b\"name\":\"a/p\",\"require\":\x7b\"a/q\":\"*\"\x7d,\"extra\":\x7b\"shading\":[\"3.0\",\"A\\\\P\"]\x7d\x7d"),
    (["vendor", "a", "q", "composer.json"], file
      "\x7b\"require\":\x7b\"b/r\":\"*\"\x7d,\"extra\":\x7b\"shading\":[\"3.0\",\"A\\\\Q\"]\x7d\x7d"),
    (["vendor", "b", "r", "composer.json"], file "\x7b\"require\":\x7b\"a/p\":\"*\"\x7d\x7d")]⟩, [], 0⟩
  let t : Target := ⟨['t'], by decide⟩
  let plugin : Manifest := {
    path := ⟨"/composer.json"⟩, name := some "a/p", require := ["a/q"], shading := some ⟨some "3.0", some "A\\P", none⟩ }
  let q : Manifest := {
    path := ⟨"/vendor/a/q/composer.json"⟩, require := ["b/r"], shading := some ⟨some "3.0", some "A\\Q", none⟩ }
  let r : Manifest := {path := ⟨"/vendor/b/r/composer.json"⟩, require := ["a/p"]}
  let outer : Rule := ⟨"A\\P".toList, by decide +kernel, t, none, some []⟩
  let inner : Rule := ⟨"A\\Q".toList, by decide +kernel, t, none, some []⟩
  have hplugin : Manifest.load d ⟨"/"⟩ = .ok plugin := by decide +kernel
  have hq : installed d ⟨"/"⟩ "a/q" = .ok q := by decide +kernel
  have hr : installed d ⟨"/"⟩ "b/r" = .ok r := by decide +kernel
  have hinner : Visits (installed d ⟨"/"⟩) t q ["b/r"] ⟨["a/q"], {}⟩ (.ok ⟨["b/r", "a/q"], {}⟩) :=
    .bare ⟨by decide, by decide, by decide⟩ hr rfl .done
  have hvisit : VisitsPackage (installed d ⟨"/"⟩) t plugin {} (.ok ⟨["b/r", "a/q"], [], [inner, outer]⟩) :=
    ⟨.ok ⟨["b/r", "a/q"], [], [inner]⟩,
      .entered ⟨by decide, by decide, List.not_mem_nil⟩ hq rfl hinner (by decide +kernel) .done, by decide +kernel⟩
  have hresolve := (visitsProject_resolve d ⟨"/"⟩ t).unique (hvisit.visitsProject hplugin)
  have honly : ∀ {name}, Reached (installed d ⟨"/"⟩) plugin name → name = "a/q" := by
    rintro name ⟨first, hfirst, hpath⟩
    induction hpath with
    | refl => exact List.mem_singleton.1 hfirst.listed
    | tail _ hlast ih =>
      obtain ⟨package, hpackage, -, hrequires⟩ := hlast
      obtain rfl : q = package := Except.ok.inj (hq.symm.trans (ih ▸ hpackage))
      obtain rfl := List.mem_singleton.1 hrequires.listed
      obtain ⟨package, hpackage, hshading⟩ := hrequires.shadeable
      obtain rfl : r = package := Except.ok.inj (hr.symm.trans hpackage)
      cases hshading
  refine ⟨d, ⟨"/"⟩, t, plugin, _, hplugin, hresolve, rfl, rfl, ?_⟩
  refine (packages_counted_once hplugin hresolve).2.2.2.2 fun own hown => ?_
  obtain rfl := Option.some.inj hown
  rintro ⟨-, m, rfl | ⟨name, hname, hpackage⟩, hlisted⟩
  · exact absurd hlisted (by decide)
  · rw [honly hname] at hpackage
    obtain rfl : q = m := Except.ok.inj (hq.symm.trans hpackage)
    exact absurd hlisted (by decide)

/-- A project that leads back to its own name: the package installed under that name is looked up, and adds its source
roots and a second rule for the project's namespace. -/
theorem project_counted_twice : ∃ d directory target project own found,
    Manifest.load d directory = .ok project ∧ project.name = some own ∧
      (resolve d directory target).1 = .ok found ∧ own ∈ lookups d directory target ∧
      found.sourceRoots = [⟨"/src"⟩, ⟨"/vendor/a/p/src"⟩] ∧
      found.rules.map Rule.root = ["A\\P".toList, "A\\Q".toList, "A\\P".toList] := by
  let file (text : String) : Files.Entry := .file ⟨Files.Bytes.ofText text, 0, false⟩
  let own : Files.Entry := file ("\x7b\"name\":\"a/p\",\"require\":\x7b\"a/q\":\"*\"\x7d," ++
    "\"autoload\":\x7b\"classmap\":[\"src\"]\x7d,\"extra\":\x7b\"shading\":[\"3.0\",\"A\\\\P\"]\x7d\x7d")
  let d : Files.Disk := ⟨⟨[
    (["vendor"], .directory), (["vendor", "a"], .directory), (["vendor", "a", "p"], .directory),
    (["vendor", "a", "q"], .directory), (["composer.json"], own), (["vendor", "a", "p", "composer.json"], own),
    (["vendor", "a", "q", "composer.json"], file
      "\x7b\"require\":\x7b\"a/p\":\"*\"\x7d,\"extra\":\x7b\"shading\":[\"3.0\",\"A\\\\Q\"]\x7d\x7d")]⟩, [], 0⟩
  let t : Target := ⟨['t'], by decide⟩
  let manifest (path : String) : Manifest := {
    path := ⟨path⟩, name := some "a/p", require := ["a/q"], layouts := [.classMap ["src"]]
    shading := some ⟨some "3.0", some "A\\P", none⟩ }
  let q : Manifest := {
    path := ⟨"/vendor/a/q/composer.json"⟩, require := ["a/p"], shading := some ⟨some "3.0", some "A\\Q", none⟩ }
  let rule (root : String) (sources : List Path) (h : Shading.isRoot root.toList = true) : Rule :=
    ⟨root.toList, h, t, none, some sources⟩
  let theirs := rule "A\\P" [⟨"/vendor/a/p/src"⟩] (by decide +kernel)
  let inner := rule "A\\Q" [] (by decide +kernel)
  let mine := rule "A\\P" [⟨"/src"⟩] (by decide +kernel)
  let roots : List Path := [⟨"/src"⟩, ⟨"/vendor/a/p/src"⟩]
  have hplugin : Manifest.load d ⟨"/"⟩ = .ok (manifest "/composer.json") := by decide +kernel
  have hp : installed d ⟨"/"⟩ "a/p" = .ok (manifest "/vendor/a/p/composer.json") := by decide +kernel
  have hq : installed d ⟨"/"⟩ "a/q" = .ok q := by decide +kernel
  let first : Progress := ((Progress.enter {} (manifest "/composer.json")).mark "a/q").enter q
  let second : Progress := (first.mark "a/p").enter (manifest "/vendor/a/p/composer.json")
  have hcopy : Visits (installed d ⟨"/"⟩) t (manifest "/vendor/a/p/composer.json") ["a/q"] second (.ok second) :=
    .known (by decide) (by decide) (by decide) .done
  have hinner : Visits (installed d ⟨"/"⟩) t q ["a/p"] first (.ok ⟨["a/p", "a/q"], roots, [theirs]⟩) :=
    .entered ⟨by decide, by decide, by decide⟩ hp rfl hcopy (by decide +kernel) .done
  have hvisit : VisitsPackage (installed d ⟨"/"⟩) t (manifest "/composer.json") {}
      (.ok ⟨["a/p", "a/q"], roots, [theirs, inner, mine]⟩) :=
    ⟨.ok ⟨["a/p", "a/q"], roots, [theirs, inner]⟩,
      .entered ⟨by decide, by decide, List.not_mem_nil⟩ hq rfl hinner (by decide +kernel) .done, by decide +kernel⟩
  have hresolve := (visitsProject_resolve d ⟨"/"⟩ t).unique (hvisit.visitsProject hplugin)
  have hreached : Reached (installed d ⟨"/"⟩) (manifest "/composer.json") "a/q" :=
    ⟨"a/q", ⟨List.mem_cons_self, by decide, q, hq, rfl⟩, .refl⟩
  exact ⟨d, ⟨"/"⟩, t, _, "a/p", _, hplugin, rfl, hresolve,
    (mem_lookups_iff hplugin hresolve).2 ⟨by decide, q, .inr ⟨"a/q", hreached, hq⟩, List.mem_cons_self⟩, rfl, rfl⟩

end PluginShading.Resolution
