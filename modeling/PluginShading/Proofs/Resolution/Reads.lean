import PluginShading.Proofs.Files.Names
import PluginShading.Proofs.Resolution.Visit

/-!
Which manifests a resolution reads.

A step of the walk reads at most one manifest, that of a package which is required for the first time (`next_congr`).
So what a resolution reads can be listed (`tried`): what other files hold does not matter (`resolve_congr`), and the
first of these that cannot be read is where the resolution ends (`resolve_of_unreadable`). A name is looked up if
it has one slash in it, wherever that leads: only installed packages are read exactly if all such names consist of
two names of directory entries (`reads_only_installed_iff`).
-/
namespace PluginShading.Resolution

open Shading (Rule Target)

variable {load load' : String → Except ManifestError Manifest} {target : Target}

/-! ### Steps that look up a package -/

namespace Walk

variable {w v after : Walk}

/-- The requirement that the next step meets, with the package that has it. -/
def meets? (w : Walk) : Option (Manifest × String) :=
  w.stack.head?.bind fun f => f.pending.head?.map fun name => (f.manifest, name)

/-- The package that the next step looks up, one that is required for the first time. -/
def lookup? (w : Walk) : Option String :=
  w.meets?.bind fun r =>
    if isPlatform r.2 = false ∧ isPackageName r.2 = true ∧ r.2 ∈ w.fresh then some r.2 else none

/-- The walks that a walk goes through. -/
def trail (load : String → Except ManifestError Manifest) (target : Target) (w : Walk) : List Walk :=
  match _h : next load target w with
  | .ok (some after) => w :: trail load target after
  | _ => [w]
termination_by (w.fresh.length, w.size)
decreasing_by exact next_shrinks _h

/-- The packages that a walk looks up. -/
def lookups (load : String → Except ManifestError Manifest) (target : Target) (w : Walk) : List String :=
  (trail load target w).filterMap lookup?

theorem meets?_eq_some_iff {m : Manifest} {name : String} : w.meets? = some (m, name) ↔
    ∃ f rest below, w.stack = f :: below ∧ f.pending = name :: rest ∧ f.manifest = m := by
  unfold meets?
  cases w.stack with
  | nil => simp
  | cons f below =>
    cases hpending : f.pending with
    | nil => simp [hpending]
    | cons first rest => simp [hpending, and_comm]

theorem lookup?_eq_some_iff {name : String} : w.lookup? = some name ↔
    ∃ m, w.meets? = some (m, name) ∧ isPlatform name = false ∧ isPackageName name = true ∧ name ∈ w.fresh := by
  unfold lookup?
  cases w.meets? with
  | none => simp
  | some r =>
    obtain ⟨m, met⟩ := r
    simp only [Option.bind_some, Option.ite_none_right_eq_some, Option.some.injEq, Prod.mk.injEq]
    constructor
    · rintro ⟨h, rfl⟩
      exact ⟨m, ⟨rfl, rfl⟩, h⟩
    · rintro ⟨_, ⟨rfl, rfl⟩, h⟩
      exact ⟨h, rfl⟩

/-- A step that meets a requirement looks at it, without the rest of the stack. -/
theorem next_of_meets {m : Manifest} {name : String} (h : w.meets? = some (m, name)) :
    ∃ stack, ∀ (load : String → Except ManifestError Manifest) (target : Target),
      next load target w = (require load {w with stack := stack} m name).map some := by
  obtain ⟨f, rest, below, hstack, hpending, rfl⟩ := meets?_eq_some_iff.1 h
  exact ⟨{f with pending := rest} :: below, fun load target => by simp only [next, hstack, hpending]⟩

/-- A step that meets none reads no manifest and takes nothing in. -/
theorem next_of_not_meets (h : w.meets? = none) : (∀ load', next load' target w = next load target w) ∧
    ∀ after, next load target w = .ok (some after) → after.fresh = w.fresh := by
  constructor
  · intro load'
    unfold meets? at h
    unfold next
    cases hstack : w.stack with
    | nil => rfl
    | cons f below =>
      cases hpending : f.pending with
      | nil => simp only [hpending]
      | cons name rest => simp [hstack, hpending] at h
  · intro after hafter
    cases Step.of_next hafter with
    | left _ _ hleave => exact (leave_keeps hleave).2
    | met hstack hpending => simp [meets?, hstack, hpending] at h

/-- Only the package that is looked up matters to a step. -/
theorem next_congr (h : ∀ name, w.lookup? = some name → load' name = load name) :
    next load' target w = next load target w := by
  cases hmeets : w.meets? with
  | none => exact (next_of_not_meets hmeets).1 load'
  | some r =>
    obtain ⟨stack, hnext⟩ := next_of_meets hmeets
    rw [hnext, hnext]
    unfold require
    split
    · rfl
    split
    · rfl
    split
    · rfl
    rename_i hplatform hpackage hfresh
    rw [h r.2 (lookup?_eq_some_iff.2 ⟨r.1, hmeets, ?_, ?_, ?_⟩)]
    · simpa using hplatform
    · simpa using hpackage
    · simpa using hfresh

/-- A package that cannot be read ends the walk. -/
theorem next_of_unreadable {name : String} {e : ManifestError} (hlookup : w.lookup? = some name)
    (hload : load name = .error e) : next load target w = .error e := by
  obtain ⟨m, hmeets, hplatform, hpackage, hfresh⟩ := lookup?_eq_some_iff.1 hlookup
  obtain ⟨stack, hnext⟩ := next_of_meets hmeets
  rw [hnext]
  simp [require, hplatform, hpackage, hfresh, hload, Except.map]

/-- So does a name that is no name of a package. -/
theorem next_of_misnamed {m : Manifest} {name : String} (hmeets : w.meets? = some (m, name))
    (hplatform : isPlatform name = false) (hpackage : isPackageName name = false) :
    next load target w = .error (.invalidDependencyName name m.path) := by
  obtain ⟨stack, hnext⟩ := next_of_meets hmeets
  rw [hnext]
  simp [require, hplatform, hpackage, Except.map]

/-- A name is taken in by the step that looks it up. -/
theorem lookup?_of_taken {name : String} (hnext : next load target w = .ok (some after))
    (hfresh : name ∈ w.fresh) (htaken : name ∉ after.fresh) : w.lookup? = some name := by
  cases Step.of_next hnext with
  | left _ _ hleave => exact absurd ((leave_keeps hleave).2 ▸ hfresh) htaken
  | @met f below met rest hstack hpending hmet =>
    rcases hmet.fresh_cases with ⟨-, hkept⟩ | ⟨hplatform, hpackage, -, hleft⟩
    · exact absurd (hkept ▸ hfresh) htaken
    · have hsame : name = met := by
        by_contra hne
        exact htaken (hleft ▸ List.mem_filter.2 ⟨hfresh, by simpa using hne⟩)
      subst hsame
      exact lookup?_eq_some_iff.2
        ⟨_, meets?_eq_some_iff.2 ⟨f, rest, below, hstack, hpending, rfl⟩, hplatform, hpackage, hfresh⟩

/-! ### Runs -/

theorem trail_of_next (h : next load target w = .ok (some after)) :
    trail load target w = w :: trail load target after := by
  rw [trail]
  split
  · rename_i next hnext
    rw [h] at hnext
    cases hnext
    rfl
  · rename_i hnext
    exact absurd h (hnext after)

theorem trail_of_end (h : ∀ after, next load target w ≠ .ok (some after)) : trail load target w = [w] := by
  rw [trail]
  split
  · exact absurd ‹_› (h _)
  · rfl

theorem self_mem_trail : w ∈ trail load target w := by
  unfold trail
  split <;> exact List.mem_cons_self

theorem lookups_of_next (h : next load target w = .ok (some after)) :
    lookups load target w = w.lookup?.toList ++ lookups load target after := by
  unfold lookups
  rw [trail_of_next h]
  cases hlookup : w.lookup? <;> simp [hlookup]

theorem lookups_of_end (h : ∀ after, next load target w ≠ .ok (some after)) :
    lookups load target w = w.lookup?.toList := by
  unfold lookups
  rw [trail_of_end h]
  cases hlookup : w.lookup? <;> simp [hlookup]

theorem lookups_of_error {e : ManifestError} (h : next load target w = .error e) :
    lookups load target w = w.lookup?.toList := lookups_of_end (by simp [h])

theorem run_of_next (h : next load target w = .ok (some after)) :
    run load target w = run load target after := by
  rw [run]
  split <;> simp_all only [reduceCtorEq, Except.ok.injEq, Option.some.injEq]

theorem run_of_done (h : next load target w = .ok none) : run load target w = (.ok w.found, w.log) := by
  rw [run]
  split <;> simp_all only [reduceCtorEq, Except.ok.injEq]

theorem run_of_error {e : ManifestError} (h : next load target w = .error e) :
    run load target w = (.error e, w.log) := by
  rw [run]
  split <;> simp_all only [reduceCtorEq, Except.error.injEq]

/-- Only the packages that are looked up matter to a run. -/
theorem run_congr (h : ∀ name ∈ lookups load target w, load' name = load name) :
    run load' target w = run load target w ∧ lookups load' target w = lookups load target w := by
  fun_induction run load target w with
  | case1 w e hnext =>
    have hlookups := lookups_of_error hnext
    have hnext' : next load' target w = .error e :=
      (next_congr fun name hname => h name (by simp [hlookups, hname])).trans hnext
    exact ⟨run_of_error hnext', (lookups_of_error hnext').trans hlookups.symm⟩
  | case2 w hnext =>
    have hlookups : lookups load target w = w.lookup?.toList := lookups_of_end (by simp [hnext])
    have hnext' : next load' target w = .ok none :=
      (next_congr fun name hname => h name (by simp [hlookups, hname])).trans hnext
    exact ⟨run_of_done hnext', (lookups_of_end (by simp [hnext'])).trans hlookups.symm⟩
  | case3 w after hnext ih =>
    rw [lookups_of_next hnext] at h ⊢
    have hnext' : next load' target w = .ok (some after) :=
      (next_congr fun name hname => h name (by simp [hname])).trans hnext
    obtain ⟨hrun, hlookups⟩ := ih fun name hname => h name (List.mem_append_right _ hname)
    exact ⟨(run_of_next hnext').trans hrun, by rw [lookups_of_next hnext', hlookups]⟩

/-- A run that cannot read some package it looks up ends there, and has looked up no other packages. -/
theorem run_of_unreadable {e : ManifestError}
    (h : ∀ name ∈ lookups load target w, load' name = load name ∨ load' name = .error e)
    (hbad : ∃ name ∈ lookups load target w, load' name = .error e) :
    (run load' target w).1 = .error e ∧ lookups load' target w ⊆ lookups load target w := by
  -- The two runs go side by side up to the first of these packages, where one of them ends.
  have hstop : ∀ (w : Walk) (name : String), w.lookup? = some name → load' name = .error e →
      (run load' target w).1 = .error e ∧ lookups load' target w = w.lookup?.toList := by
    intro w name hlookup hload
    have hnext : next load' target w = .error e := next_of_unreadable hlookup hload
    exact ⟨by rw [run_of_error hnext], lookups_of_error hnext⟩
  fun_induction trail load target w with
  | case1 w after hnext ih =>
    rw [lookups_of_next hnext] at h hbad ⊢
    by_cases hhere : ∃ name, w.lookup? = some name ∧ load' name = .error e
    · obtain ⟨name, hlookup, hload⟩ := hhere
      obtain ⟨hrun, hlookups⟩ := hstop w name hlookup hload
      exact ⟨hrun, by rw [hlookups]; exact List.subset_append_left _ _⟩
    · have hnext' : next load' target w = .ok (some after) :=
        (next_congr fun name hname => (h name (by simp [hname])).resolve_right
          fun hload => hhere ⟨name, hname, hload⟩).trans hnext
      obtain ⟨name, hname, hload⟩ := hbad
      have hlater : name ∈ lookups load target after := by
        rcases List.mem_append.1 hname with hname | hname
        · exact absurd ⟨name, by simpa using hname, hload⟩ hhere
        · exact hname
      obtain ⟨hrun, hlookups⟩ := ih (fun name hname => h name (List.mem_append_right _ hname)) ⟨name, hlater, hload⟩
      rw [run_of_next hnext', lookups_of_next hnext']
      exact ⟨hrun, List.append_subset.2
        ⟨List.subset_append_left _ _, List.subset_append_of_subset_right _ hlookups⟩⟩
  | case2 w hnext =>
    rw [lookups_of_end fun after hafter => hnext after hafter] at h hbad ⊢
    obtain ⟨name, hname, hload⟩ := hbad
    obtain ⟨hrun, hlookups⟩ := hstop w name (by simpa using hname) hload
    exact ⟨hrun, by rw [hlookups]; exact List.Subset.refl _⟩

/-- A run goes on in the same way from each walk it comes to. -/
theorem run_of_mem_trail (h : v ∈ trail load target w) : run load target w = run load target v := by
  fun_induction trail load target w with
  | case1 w after hnext ih =>
    rcases List.mem_cons.1 h with rfl | h
    · rfl
    · exact (run_of_next hnext).trans (ih h)
  | case2 w hnext => rw [List.mem_singleton.1 h]

/-- What a run takes in, it has looked up. -/
theorem mem_lookups_of_taken {name : String} (hv : v ∈ trail load target w) (hfresh : name ∈ w.fresh)
    (htaken : name ∉ v.fresh) : name ∈ lookups load target w := by
  fun_induction trail load target w with
  | case1 w after hnext ih =>
    rw [lookups_of_next hnext]
    rcases List.mem_cons.1 hv with rfl | hv
    · exact absurd hfresh htaken
    · by_cases hafter : name ∈ after.fresh
      · exact List.mem_append_right _ (ih hv hafter)
      · exact List.mem_append_left _ (by simpa using lookup?_of_taken hnext hfresh hafter)
  | case2 w hnext =>
    rw [List.mem_singleton.1 hv] at htaken
    exact absurd hfresh htaken

theorem Follows.of_mem_trail {names : List String} {s : Progress} (h : Follows names w s)
    (hload : ∀ name m, load name = .ok m → ∀ n ∈ m.require, n ∈ names) (hv : v ∈ trail load target w) :
    ∃ s', Follows names v s' := by
  fun_induction trail load target w generalizing s with
  | case1 w after hnext ih =>
    rcases List.mem_cons.1 hv with rfl | hv
    · exact ⟨s, h⟩
    · have hstep := h.next target hload
      rw [hnext] at hstep
      obtain ⟨s', hafter, -⟩ := hstep
      exact ih hafter hv
  | case2 w hnext => exact ⟨s, List.mem_singleton.1 hv ▸ h⟩

end Walk

/-! ### Walks from a project -/

/-- The names that a walk may take in do not matter, as long as all that is required is among them. -/
theorem walk_names {names names' : List String} {m : Manifest}
    (hm : ∀ name ∈ m.require, name ∈ names) (hm' : ∀ name ∈ m.require, name ∈ names')
    (hload : ∀ name ∈ Walk.lookups load target (start names m), ∀ package, load name = .ok package →
      ∀ n ∈ package.require, n ∈ names)
    (hload' : ∀ name package, load name = .ok package → ∀ n ∈ package.require, n ∈ names') :
    (walk load names' target m).1 = (walk load names target m).1 := by
  -- An end that the walk does not come to stands for all that it does not look up.
  obtain ⟨e, he⟩ : ∃ e, (walk load names target m).1 ≠ .error e := by
    by_cases h : (walk load names target m).1 = .error (.malformed ⟨""⟩)
    · exact ⟨.invalidShading ⟨""⟩, by simp [h]⟩
    · exact ⟨_, h⟩
  let seen (name : String) : Except ManifestError Manifest :=
    if name ∈ Walk.lookups load target (start names m) then load name else .error e
  have hseen : ∀ name ∈ Walk.lookups load target (start names m), seen name = load name :=
    fun name h => if_pos h
  have hof : ∀ name package, seen name = .ok package →
      name ∈ Walk.lookups load target (start names m) ∧ load name = .ok package := by
    intro name package h
    simp only [seen] at h
    split at h
    · exact ⟨‹_›, h⟩
    · cases h
  have hrun : walk seen names target m = walk load names target m := (Walk.run_congr hseen).1
  obtain ⟨last, hlast, hends⟩ : ∃ last, VisitsPackage seen target m {} last ∧
      (walk seen names target m).1 = last.map Progress.found := visitsPackage_walk hm
    fun name package h => hload name (hof name package h).1 package (hof name package h).2
  obtain ⟨last', hlast', hends'⟩ : ∃ last, VisitsPackage seen target m {} last ∧
      (walk seen names' target m).1 = last.map Progress.found := visitsPackage_walk hm'
    fun name package h => hload' name package (hof name package h).2
  have hsame : (walk seen names' target m).1 = (walk load names target m).1 := by
    rw [← hrun, hends, hends', hlast.unique hlast']
  have hknown : ∀ name ∈ Walk.lookups seen target (start names' m),
      name ∈ Walk.lookups load target (start names m) := by
    intro name hname
    by_contra hnew
    have hbad : seen name = .error e := if_neg hnew
    exact he (hsame.symm.trans (Walk.run_of_unreadable (fun _ _ => .inl rfl) ⟨name, hname, hbad⟩).1)
  have hrun' : walk load names' target m = walk seen names' target m :=
    (Walk.run_congr fun name hname => (hseen name (hknown name hname)).symm).1
  rw [hrun', hsame]

/-! ### What a resolution reads -/

variable {d d' : Files.Disk} {project : Path}

def manifestIn (package : Path) : Path := package.join ⟨Manifest.fileName⟩

/-- Where the manifest of an installed package lies. -/
def manifestOf (project : Path) (name : String) : Path := manifestIn (packageDirectory project name)

/-- The walks that resolving a project goes through. -/
def trail (d : Files.Disk) (project : Path) (target : Target) : List Walk :=
  match Manifest.load d project with
  | .error _ => []
  | .ok m => Walk.trail (installed d project) target (start (requiredNames d) m)

/-- The requirements that are met, each with the package that has it. -/
def met (d : Files.Disk) (project : Path) (target : Target) : List (Manifest × String) :=
  (trail d project target).filterMap Walk.meets?

/-- The packages that are looked up. -/
def lookups (d : Files.Disk) (project : Path) (target : Target) : List String :=
  (trail d project target).filterMap Walk.lookup?

/-- The manifests that resolving a project tries to read. -/
def tried (d : Files.Disk) (project : Path) (target : Target) : List Path :=
  manifestIn project :: (lookups d project target).map (manifestOf project)

theorem load_congr {package : Path} (h : d'.readText (manifestIn package) = d.readText (manifestIn package)) :
    Manifest.load d' package = Manifest.load d package := by
  unfold manifestIn at h
  unfold Manifest.load
  simp only [h]

theorem load_of_unreadable {package : Path} {e : Files.IoError} (h : d.readText (manifestIn package) = .error e) :
    Manifest.load d package = .error (.read (manifestIn package) e) := by
  unfold manifestIn at h ⊢
  unfold Manifest.load
  simp only [h]

theorem resolve_of_load {m : Manifest} (h : Manifest.load d project = .ok m) :
    resolve d project target = walk (installed d project) (requiredNames d) target m := by
  unfold resolve
  rw [h]
  rfl

theorem resolve_of_error {e : ManifestError} (h : Manifest.load d project = .error e) :
    resolve d project target = (.error e, []) := by
  unfold resolve
  rw [h]

theorem trail_of_load {m : Manifest} (h : Manifest.load d project = .ok m) :
    trail d project target = Walk.trail (installed d project) target (start (requiredNames d) m) := by
  unfold trail
  rw [h]

/-- There are walks only where the manifest of the project is read. -/
theorem exists_load_of_mem_trail {w : Walk} (h : w ∈ trail d project target) : ∃ m,
    Manifest.load d project = .ok m ∧ w ∈ Walk.trail (installed d project) target (start (requiredNames d) m) := by
  unfold trail at h
  split at h
  · cases h
  · exact ⟨_, ‹_›, h⟩

theorem lookups_of_load {m : Manifest} (h : Manifest.load d project = .ok m) :
    lookups d project target = Walk.lookups (installed d project) target (start (requiredNames d) m) := by
  unfold lookups Walk.lookups
  rw [trail_of_load h]

/-- **What other files hold does not matter.** -/
theorem resolve_congr (h : ∀ p ∈ tried d project target, d'.readText p = d.readText p) :
    (resolve d' project target).1 = (resolve d project target).1 := by
  have hproject : Manifest.load d' project = Manifest.load d project := load_congr (h _ List.mem_cons_self)
  cases hload : Manifest.load d project with
  | error e => rw [resolve_of_error hload, resolve_of_error (hproject.trans hload)]
  | ok m =>
    have hload' := hproject.trans hload
    have hsame : ∀ name ∈ Walk.lookups (installed d project) target (start (requiredNames d) m),
        installed d' project name = installed d project name := by
      intro name hname
      rw [← lookups_of_load hload] at hname
      exact load_congr (h _ (List.mem_cons_of_mem _ (List.mem_map_of_mem hname)))
    obtain ⟨hrun, hlookups⟩ := Walk.run_congr hsame
    have hnames : ∀ name ∈ Walk.lookups (installed d' project) target (start (requiredNames d) m),
        ∀ package, installed d' project name = .ok package → ∀ n ∈ package.require, n ∈ requiredNames d := by
      intro name hname package hpackage
      rw [hlookups] at hname
      rw [hsame name hname] at hpackage
      exact mem_requiredNames hpackage
    rw [resolve_of_load hload, resolve_of_load hload', walk_names (mem_requiredNames hload)
      (mem_requiredNames hload') hnames fun _ _ h => mem_requiredNames h]
    exact congrArg Prod.fst hrun

/-- **One that cannot be read is where the resolution ends.** -/
theorem resolve_of_unreadable {p : Path} {e : Files.IoError} (hp : p ∈ tried d project target)
    (hothers : ∀ q ∈ tried d project target, q ≠ p → d'.readText q = d.readText q)
    (hbad : d'.readText p = .error e) : (resolve d' project target).1 = .error (.read p e) := by
  by_cases hhere : manifestIn project = p
  · subst hhere
    rw [resolve_of_error (load_of_unreadable hbad)]
  have hproject : Manifest.load d' project = Manifest.load d project :=
    load_congr (hothers _ List.mem_cons_self hhere)
  obtain ⟨bad, hname, rfl⟩ := List.mem_map.1 ((List.mem_cons.1 hp).resolve_left fun h => hhere h.symm)
  obtain ⟨w, hw, -⟩ := List.mem_filterMap.1 hname
  obtain ⟨m, hload, -⟩ := exists_load_of_mem_trail hw
  have hload' := hproject.trans hload
  have hread : ∀ name ∈ Walk.lookups (installed d project) target (start (requiredNames d) m),
      installed d' project name = installed d project name ∨
        installed d' project name = .error (.read (manifestOf project bad) e) := by
    intro name hname
    rw [← lookups_of_load hload] at hname
    by_cases hsame : manifestOf project name = manifestOf project bad
    · right
      rw [← hsame] at hbad ⊢
      exact load_of_unreadable hbad
    · exact .inl (load_congr (hothers _ (List.mem_cons_of_mem _ (List.mem_map_of_mem hname)) hsame))
  rw [lookups_of_load hload] at hname
  obtain ⟨hrun, hlookups⟩ := Walk.run_of_unreadable hread ⟨bad, hname, load_of_unreadable hbad⟩
  have hnames : ∀ name ∈ Walk.lookups (installed d' project) target (start (requiredNames d) m),
      ∀ package, installed d' project name = .ok package → ∀ n ∈ package.require, n ∈ requiredNames d := by
    intro name hname package hpackage
    rcases hread name (hlookups hname) with hsame | herror
    · rw [hsame] at hpackage
      exact mem_requiredNames hpackage
    · rw [herror] at hpackage
      cases hpackage
  rw [resolve_of_load hload', walk_names (mem_requiredNames hload) (mem_requiredNames hload') hnames
    fun _ _ h => mem_requiredNames h]
  exact hrun

/-! ### Which requirements are looked up -/

theorem met_of_mem_lookups {name : String} (h : name ∈ lookups d project target) :
    ∃ m, (m, name) ∈ met d project target ∧ isPlatform name = false ∧ isPackageName name = true := by
  obtain ⟨w, hw, hlookup⟩ := List.mem_filterMap.1 h
  obtain ⟨m, hmeets, hplatform, hpackage, -⟩ := Walk.lookup?_eq_some_iff.1 hlookup
  exact ⟨m, List.mem_filterMap.2 ⟨w, hw, hmeets⟩, hplatform, hpackage⟩

theorem met_of_mem_tried {p : Path} (h : p ∈ tried d project target) :
    p = manifestIn project ∨ ∃ r ∈ met d project target,
      isPlatform r.2 = false ∧ isPackageName r.2 = true ∧ p = manifestOf project r.2 := by
  refine (List.mem_cons.1 h).imp_right fun h => ?_
  obtain ⟨name, hname, rfl⟩ := List.mem_map.1 h
  obtain ⟨m, hmet, hplatform, hpackage⟩ := met_of_mem_lookups hname
  exact ⟨(m, name), hmet, hplatform, hpackage, rfl⟩

/-- A requirement with one slash is looked up when it is met, or was before. -/
theorem mem_lookups_of_met {m : Manifest} {name : String} (h : (m, name) ∈ met d project target)
    (hplatform : isPlatform name = false) (hpackage : isPackageName name = true) :
    name ∈ lookups d project target := by
  obtain ⟨w, hw, hmeets⟩ := List.mem_filterMap.1 h
  obtain ⟨own, hload, hw⟩ := exists_load_of_mem_trail hw
  obtain ⟨s, hfollows⟩ := (follows_start (mem_requiredNames hload)).of_mem_trail
    (fun _ _ h => mem_requiredNames h) hw
  obtain ⟨f, rest, below, hstack, hpending, -⟩ := Walk.meets?_eq_some_iff.1 hmeets
  have hname : name ∈ requiredNames d :=
    hfollows.pending f (hstack ▸ List.mem_cons_self) name (hpending ▸ List.mem_cons_self)
  rw [lookups_of_load hload]
  -- It is taken in by this step, or it was by one before.
  by_cases hfresh : name ∈ w.fresh
  · exact List.mem_filterMap.2 ⟨w, hw, Walk.lookup?_eq_some_iff.2 ⟨m, hmeets, hplatform, hpackage, hfresh⟩⟩
  · exact Walk.mem_lookups_of_taken hw hname hfresh

/-- Any other ends the resolution. -/
theorem resolve_of_misnamed {m : Manifest} {name : String} (h : (m, name) ∈ met d project target)
    (hplatform : isPlatform name = false) (hpackage : isPackageName name = false) :
    (resolve d project target).1 = .error (.invalidDependencyName name m.path) := by
  obtain ⟨w, hw, hmeets⟩ := List.mem_filterMap.1 h
  obtain ⟨own, hload, hw⟩ := exists_load_of_mem_trail hw
  rw [resolve_of_load hload]
  exact congrArg Prod.fst ((Walk.run_of_mem_trail hw).trans
    (Walk.run_of_error (Walk.next_of_misnamed hmeets hplatform hpackage)))

/-! ### Installed packages -/

/-- Two names of directory entries, with a slash between them. -/
def IsPackage (name : String) : Prop :=
  ∃ vendor package, name = vendor ++ "/" ++ package ∧ Files.isName vendor = true ∧ Files.isName package = true

theorem IsPackage.pieces {name : String} (h : IsPackage name) : ∃ vendor package : String,
    Text.pieces '/' name.toList = [vendor.toList, package.toList] ∧
      Files.isName vendor = true ∧ Files.isName package = true := by
  obtain ⟨vendor, package, rfl, hvendor, hpackage⟩ := h
  refine ⟨vendor, package, ?_, hvendor, hpackage⟩
  rw [String.toList_append, String.toList_append, List.append_assoc]
  exact (Text.pieces_append '/' vendor.toList package.toList).trans
    (by rw [Text.pieces_of_not_mem (Files.isName_iff.1 hvendor).2.1,
      Text.pieces_of_not_mem (Files.isName_iff.1 hpackage).2.1, List.singleton_append])

/-- The manifest of a package in the directory of its vendor. -/
def IsInstalled (project p : Path) : Prop :=
  ∃ vendor package, Files.isName vendor = true ∧ Files.isName package = true ∧
    p = manifestIn (((project.join ⟨vendorDirectory⟩).join ⟨vendor⟩).join ⟨package⟩)

theorem join_of_isName (p : Path) {vendor package : String} (hvendor : Files.isName vendor = true)
    (hpackage : Files.isName package = true) :
    p.join ⟨vendor ++ "/" ++ package⟩ = (p.join ⟨vendor⟩).join ⟨package⟩ := by
  obtain ⟨hne, hfree, -⟩ := Files.isName_iff.1 hvendor
  have hrelative : Path.isAbsolute ⟨vendor ++ "/" ++ package⟩ = false := by
    have hhead : (vendor ++ "/" ++ package).toList.head? = vendor.toList.head? := by
      rw [String.toList_append, String.toList_append, List.append_assoc, List.head?_append_of_ne_nil _ hne]
    have := (Files.leadsDown_of_isName hvendor).1
    simpa only [Path.isAbsolute, Path.chars, hhead] using this
  obtain ⟨front, hfront⟩ : ∃ front, (p.join ⟨vendor⟩).chars = front ++ vendor.toList := by
    rw [Path.chars_join_relative (Files.leadsDown_of_isName hvendor).1]
    split
    · exact ⟨_, rfl⟩
    · exact ⟨p.chars ++ ['/'], by simp [Path.chars]⟩
  have hlast : (p.join ⟨vendor⟩).chars.getLast? ≠ some '/' := by
    rw [hfront, List.getLast?_append_of_ne_nil _ hne]
    exact fun h => hfree (List.mem_of_getLast? h)
  have hsome : (p.join ⟨vendor⟩).chars ≠ [] := hfront ▸ List.append_ne_nil_of_right_ne_nil _ hne
  apply Path.chars_injective
  rw [Path.chars_join_relative (Files.leadsDown_of_isName hpackage).1, if_neg (not_or.2 ⟨hsome, hlast⟩),
    Path.chars_join_relative hrelative, Path.chars_join_relative (Files.leadsDown_of_isName hvendor).1]
  split <;> simp [Path.chars]

theorem isInstalled_of_isPackage {name : String} (h : IsPackage name) :
    IsInstalled project (manifestOf project name) := by
  obtain ⟨vendor, package, rfl, hvendor, hpackage⟩ := h
  exact ⟨vendor, package, hvendor, hpackage,
    by rw [manifestOf, packageDirectory, join_of_isName _ hvendor hpackage]⟩

/-- The resolution reads these files and no others: what the rest of a disk holds does not matter, and the first
of these that cannot be read is where it ends. -/
structure Reads (d : Files.Disk) (project : Path) (target : Target) (paths : List Path) : Prop where
  enough : ∀ d' : Files.Disk, (∀ p ∈ paths, d'.readText p = d.readText p) →
    (resolve d' project target).1 = (resolve d project target).1
  needed : ∀ (d' : Files.Disk) (p : Path) (e : Files.IoError), p ∈ paths →
    (∀ q ∈ paths, q ≠ p → d'.readText q = d.readText q) → d'.readText p = .error e →
      (resolve d' project target).1 = .error (.read p e)

/-- The resolution fails on a requirement, without looking it up. -/
def RefusedUnread (d : Files.Disk) (project : Path) (target : Target) (r : Manifest × String) : Prop :=
  r.2 ∉ lookups d project target ∧ (resolve d project target).1 = .error (.invalidDependencyName r.2 r.1.path)

theorem refused_of_misnamed {r : Manifest × String} (h : r ∈ met d project target)
    (hplatform : isPlatform r.2 = false) (hpackage : isPackageName r.2 = false) :
    RefusedUnread d project target r := by
  refine ⟨fun hlookup => ?_, resolve_of_misnamed h hplatform hpackage⟩
  obtain ⟨m, -, -, hname⟩ := met_of_mem_lookups hlookup
  rw [hpackage] at hname
  cases hname

/-- Besides the manifest of the project those of installed packages are read, and whatever else is required
is refused. -/
structure OnlyInstalled (d : Files.Disk) (project : Path) (target : Target) : Prop where
  read : ∀ p ∈ tried d project target, p = manifestIn project ∨ IsInstalled project p
  refused : ∀ r ∈ met d project target, isPlatform r.2 = false → ¬ IsPackage r.2 → RefusedUnread d project target r

/-- **What a resolution reads.** It is what `tried` lists: the manifest of the project, and one for each name with
a single slash that is required of it and is no platform. Other names are refused. So only installed packages are
read exactly if each of these names is made of two names of directory entries. -/
theorem reads_only_installed_iff (d : Files.Disk) (project : Path) (target : Target) :
    Reads d project target (tried d project target) ∧
      (∀ p ∈ tried d project target, p = manifestIn project ∨ ∃ r ∈ met d project target,
        isPlatform r.2 = false ∧ isPackageName r.2 = true ∧ p = manifestOf project r.2) ∧
      (∀ r ∈ met d project target, isPlatform r.2 = false → isPackageName r.2 = false →
        RefusedUnread d project target r) ∧
      (OnlyInstalled d project target ↔ ∀ r ∈ met d project target,
        isPlatform r.2 = false → isPackageName r.2 = true → IsPackage r.2) := by
  refine ⟨⟨fun d' h => resolve_congr h, fun d' p e hp hothers hbad => resolve_of_unreadable hp hothers hbad⟩,
    fun p => met_of_mem_tried, fun r => refused_of_misnamed, fun h r hr hplatform hpackage => ?_,
    fun h => ⟨fun p hp => ?_, fun r hr hplatform hnot => refused_of_misnamed hr hplatform ?_⟩⟩
  · by_contra hnot
    exact (h.refused r hr hplatform hnot).1 (mem_lookups_of_met hr hplatform hpackage)
  · rcases met_of_mem_tried hp with rfl | ⟨r, hr, hplatform, hpackage, rfl⟩
    · exact .inl rfl
    · exact .inr (isInstalled_of_isPackage (h r hr hplatform hpackage))
  · by_contra hpackage
    exact hnot (h r hr hplatform (by simpa using hpackage))

/-- A project may require a package beside the directory of the vendors, whose manifest is then read. -/
theorem requirement_leads_out : ∃ d project target m name found,
    (m, name) ∈ met d project target ∧ isPlatform name = false ∧ ¬ IsPackage name ∧
      manifestOf project name ∈ tried d project target ∧
        (resolve d project target).1 = .ok found ∧ ¬ OnlyInstalled d project target := by
  let file (text : String) : Files.Entry := .file ⟨Files.Bytes.ofText text, 0, false⟩
  let d : Files.Disk := ⟨⟨[
    (["vendor"], .directory), (["lib"], .directory),
    (["composer.json"], file "\x7b\"require\":\x7b\"../lib\":\"*\"\x7d\x7d"),
    (["lib", "composer.json"], file "\x7b\"extra\":\x7b\"shading\":[\"3.0\",\"A\\\\B\"]\x7d\x7d")]⟩, [], 0⟩
  let t : Target := ⟨['t'], by decide⟩
  let m : Manifest := {path := ⟨"/composer.json"⟩, require := ["../lib"]}
  let package : Manifest := {path := ⟨"/vendor/../lib/composer.json"⟩, shading := some ⟨some "3.0", some "A\\B", none⟩}
  let rule : Rule := ⟨"A\\B".toList, by decide +kernel, t, none, some []⟩
  have hm : Manifest.load d ⟨"/"⟩ = .ok m := by decide +kernel
  have hpackage : installed d ⟨"/"⟩ "../lib" = .ok package := by decide +kernel
  have hvisit : VisitsPackage (installed d ⟨"/"⟩) t m {} (.ok ⟨["../lib"], [], [rule]⟩) :=
    ⟨_, .entered ⟨by decide, by decide, List.not_mem_nil⟩ hpackage rfl .done (by decide +kernel) .done, rfl⟩
  have hmet : (m, "../lib") ∈ met d ⟨"/"⟩ t := by
    refine List.mem_filterMap.2 ⟨start (requiredNames d) m, ?_, rfl⟩
    rw [trail_of_load hm]
    exact Walk.self_mem_trail
  have hlookup := mem_lookups_of_met hmet (by decide) (by decide)
  have hnot : ¬ IsPackage "../lib" := by
    intro h
    obtain ⟨vendor, package, hpieces, hvendor, -⟩ := h.pieces
    have hup : [['.', '.'], ['l', 'i', 'b']] = [vendor.toList, package.toList] := hpieces
    rw [List.cons.injEq] at hup
    exact (Files.isName_iff.1 hvendor).2.2.2 hup.1.symm
  exact ⟨d, ⟨"/"⟩, t, m, "../lib", _, hmet, by decide, hnot, List.mem_cons_of_mem _ (List.mem_map_of_mem hlookup),
    (visitsProject_resolve d ⟨"/"⟩ t).unique (hvisit.visitsProject hm),
    fun h => (h.refused _ hmet (by decide) hnot).1 hlookup⟩

end PluginShading.Resolution
