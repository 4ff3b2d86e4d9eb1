import PluginShading.Proofs.Files.Follow
import PluginShading.Resolution.Walk

/-!
Resolution as a recursive visit.

`Visits` says what a visit comes to that goes into a package as soon as it is required and keeps nothing
but the names visited and what was found: no stack, and no list of the names there are. `resolve_eq_iff`
is the main statement: resolving a project ends in what the visit of the project comes to, whatever the
manifests require.
-/
namespace PluginShading.Resolution

open Shading (Target)

/-! ### The visit -/

/-- What a visit has come to. -/
structure Progress where
  visited : List String := []
  found : Found := {}
  deriving DecidableEq, Repr

namespace Progress

def mark (s : Progress) (name : String) : Progress := {s with visited := name :: s.visited}

/-- On entry a package adds the source roots that are not there yet. -/
def enter (s : Progress) (m : Manifest) : Progress :=
  {s with found := {s.found with sourceRoots := addRoots s.found.sourceRoots m.sourceRoots}}

/-- On exit a package with a shading block is checked and adds its rule. -/
def leave (target : Target) (m : Manifest) (s : Progress) : Except ManifestError Progress :=
  match m.shading with
  | none => .ok s
  | some block =>
    (ruleOf target m block).map fun rule => {s with found := {s.found with rules := s.found.rules ++ [rule]}}

/-- The requirement names a package that was not visited. -/
structure Fresh (s : Progress) (name : String) : Prop where
  platform : isPlatform name = false
  package : isPackageName name = true
  unvisited : name ∉ s.visited

end Progress

variable {load : String → Except ManifestError Manifest} {target : Target}

/-- `Visits load target m names s out`: from `s` on, the requirements `names` of the package `m` are
visited in order, which ends in `out`. -/
inductive Visits (load : String → Except ManifestError Manifest) (target : Target) :
    Manifest → List String → Progress → Except ManifestError Progress → Prop
  | done {m : Manifest} {s : Progress} : Visits load target m [] s (.ok s)
  | platform {m : Manifest} {name : String} {rest : List String} {s : Progress}
      {out : Except ManifestError Progress} : isPlatform name = true →
      Visits load target m rest s out → Visits load target m (name :: rest) s out
  | misnamed {m : Manifest} {name : String} {rest : List String} {s : Progress} :
      isPlatform name = false → isPackageName name = false →
      Visits load target m (name :: rest) s (.error (.invalidDependencyName name m.path))
  | known {m : Manifest} {name : String} {rest : List String} {s : Progress}
      {out : Except ManifestError Progress} : isPlatform name = false → isPackageName name = true →
      name ∈ s.visited → Visits load target m rest s out → Visits load target m (name :: rest) s out
  | unreadable {m : Manifest} {name : String} {rest : List String} {s : Progress} {e : ManifestError} :
      s.Fresh name → load name = .error e → Visits load target m (name :: rest) s (.error e)
  /-- A package without a shading block is left out, with everything below it. -/
  | bare {m package : Manifest} {name : String} {rest : List String} {s : Progress}
      {out : Except ManifestError Progress} : s.Fresh name → load name = .ok package →
      package.shading.isNone = true → Visits load target m rest (s.mark name) out →
      Visits load target m (name :: rest) s out
  | failed {m package : Manifest} {name : String} {rest : List String} {s : Progress}
      {inner : Except ManifestError Progress} {e : ManifestError} : s.Fresh name →
      load name = .ok package → package.shading.isNone = false →
      Visits load target package package.require ((s.mark name).enter package) inner →
      inner.bind (Progress.leave target package) = .error e →
      Visits load target m (name :: rest) s (.error e)
  | entered {m package : Manifest} {name : String} {rest : List String} {s after : Progress}
      {inner out : Except ManifestError Progress} : s.Fresh name → load name = .ok package →
      package.shading.isNone = false →
      Visits load target package package.require ((s.mark name).enter package) inner →
      inner.bind (Progress.leave target package) = .ok after → Visits load target m rest after out →
      Visits load target m (name :: rest) s out

/-- A package is visited: it is entered, its requirements are visited, it is left. -/
def VisitsPackage (load : String → Except ManifestError Manifest) (target : Target) (m : Manifest)
    (s : Progress) (out : Except ManifestError Progress) : Prop :=
  ∃ inner, Visits load target m m.require (s.enter m) inner ∧
    out = inner.bind (Progress.leave target m)

/-- The manifests of a project's packages, as they are installed on a disk. -/
def installed (d : Files.Disk) (project : Path) (name : String) : Except ManifestError Manifest :=
  Manifest.load d (packageDirectory project name)

/-- The visit of the project in a directory of a disk, with nothing visited before. -/
def VisitsProject (d : Files.Disk) (project : Path) (target : Target) (out : Except ManifestError Found) :
    Prop :=
  match Manifest.load d project with
  | .error e => out = .error e
  | .ok m => ∃ last, VisitsPackage (installed d project) target m {} last ∧ out = last.map Progress.found

/-! ### Requirement by requirement -/

@[simp] theorem visits_nil_iff {m : Manifest} {s : Progress} {out : Except ManifestError Progress} :
    Visits load target m [] s out ↔ out = .ok s := by
  constructor
  · intro h
    cases h
    rfl
  · rintro rfl
    exact .done

/-- What a visit makes of the first requirement. -/
theorem visits_cons_iff {m : Manifest} {name : String} {rest : List String} {s : Progress}
    {out : Except ManifestError Progress} :
    Visits load target m (name :: rest) s out ↔
      if isPlatform name then Visits load target m rest s out
      else if isPackageName name = false then out = .error (.invalidDependencyName name m.path)
      else if name ∈ s.visited then Visits load target m rest s out
      else match load name with
        | .error e => out = .error e
        | .ok package =>
          if package.shading.isNone then Visits load target m rest (s.mark name) out
          else ∃ inner, Visits load target package package.require ((s.mark name).enter package) inner ∧
            match inner.bind (Progress.leave target package) with
            | .error e => out = .error e
            | .ok after => Visits load target m rest after out := by
  constructor
  · intro h
    cases h with
    | platform hp h => rwa [if_pos hp]
    | misnamed hp hn => simp [hp, hn]
    | known hp hn hv h => simpa [hp, hn, hv] using h
    | unreadable hs hl => simp [hs.platform, hs.package, hs.unvisited, hl]
    | bare hs hl hm h => simpa [hs.platform, hs.package, hs.unvisited, hl, hm] using h
    | failed hs hl hm h he =>
      simp only [hs.platform, hs.package, hs.unvisited, hl, hm]
      exact ⟨_, h, by rw [he]⟩
    | entered hs hl hm h he hrest =>
      simp only [hs.platform, hs.package, hs.unvisited, hl, hm]
      exact ⟨_, h, by rwa [he]⟩
  · intro h
    split at h
    · exact .platform ‹_› h
    rename_i hplatform
    rw [Bool.not_eq_true] at hplatform
    split at h
    · subst h
      exact .misnamed hplatform ‹_›
    rename_i hpackage
    rw [Bool.not_eq_false] at hpackage
    split at h
    · exact .known hplatform hpackage ‹_› h
    have hs : s.Fresh name := ⟨hplatform, hpackage, ‹_›⟩
    split at h
    · subst h
      exact .unreadable hs ‹_›
    split at h
    · exact .bare hs ‹_› ‹_› h
    rename_i hshading
    rw [Bool.not_eq_true] at hshading
    obtain ⟨inner, hinner, h⟩ := h
    split at h
    · subst h
      exact .failed hs ‹_› hshading hinner ‹_›
    · exact .entered hs ‹_› hshading hinner ‹_› h

/-- A visit comes to one end only. -/
theorem Visits.unique {m : Manifest} {names : List String} {s : Progress}
    {out out' : Except ManifestError Progress} (h : Visits load target m names s out)
    (h' : Visits load target m names s out') : out = out' := by
  induction h generalizing out' with
  | done => exact (visits_nil_iff.1 h').symm
  | platform hp _ ih =>
    rw [visits_cons_iff, if_pos hp] at h'
    exact ih h'
  | misnamed hp hn =>
    simp only [visits_cons_iff, hp, hn] at h'
    exact h'.symm
  | known hp hn hv _ ih =>
    simp only [visits_cons_iff, hp, hn, hv] at h'
    exact ih h'
  | unreadable hs hl =>
    simp only [visits_cons_iff, hs.platform, hs.package, hs.unvisited, hl] at h'
    exact h'.symm
  | bare hs hl hm _ ih =>
    simp only [visits_cons_iff, hs.platform, hs.package, hs.unvisited, hl, hm] at h'
    exact ih h'
  | failed hs hl hm _ he ih =>
    simp only [visits_cons_iff, hs.platform, hs.package, hs.unvisited, hl, hm] at h'
    obtain ⟨inner, hinner, h'⟩ := h'
    rw [← ih hinner, he] at h'
    exact h'.symm
  | entered hs hl hm _ he _ ih ihrest =>
    simp only [visits_cons_iff, hs.platform, hs.package, hs.unvisited, hl, hm] at h'
    obtain ⟨inner, hinner, h'⟩ := h'
    rw [← ih hinner, he] at h'
    exact ihrest h'

/-! ### The walk -/

/-- What is left to visit for a stack of packages, the innermost first. -/
def Completes (load : String → Except ManifestError Manifest) (target : Target) :
    List Frame → Progress → Except ManifestError Progress → Prop
  | [], s, out => out = .ok s
  | f :: below, s, out => ∃ inner, Visits load target f.manifest f.pending s inner ∧
      match inner.bind (Progress.leave target f.manifest) with
      | .error e => out = .error e
      | .ok after => Completes load target below after out

theorem completes_of_error {f : Frame} {below : List Frame} {s : Progress} {e : ManifestError}
    (h : Visits load target f.manifest f.pending s (.error e)) :
    Completes load target (f :: below) s (.error e) :=
  ⟨_, h, rfl⟩

/-- A requirement that is done with leaves the rest of its package to visit. -/
theorem completes_cons {f : Frame} {below : List Frame} {name : String} {rest : List String}
    {s s' : Progress} {out : Except ManifestError Progress} (hf : f.pending = name :: rest)
    (h : ∀ inner, Visits load target f.manifest rest s' inner →
      Visits load target f.manifest (name :: rest) s inner)
    (hrest : Completes load target ({f with pending := rest} :: below) s' out) :
    Completes load target (f :: below) s out := by
  obtain ⟨inner, hinner, hout⟩ := hrest
  exact ⟨inner, hf ▸ h inner hinner, hout⟩

namespace Walk

variable {names : List String} {w after : Walk} {s : Progress}

/-- The walk has come as far as the visit. `names` are all that is ever required. -/
structure Follows (names : List String) (w : Walk) (s : Progress) : Prop where
  found : w.found = s.found
  fresh : ∀ name ∈ names, name ∈ w.fresh ↔ name ∉ s.visited
  pending : ∀ f ∈ w.stack, ∀ name ∈ f.pending, name ∈ names

theorem Follows.report (h : Follows names w s) (severity : Severity) (message : String) :
    Follows names (w.report severity message) s := ⟨h.found, h.fresh, h.pending⟩

theorem Follows.mark (h : Follows names w s) (name : String) :
    Follows names {w with fresh := w.fresh.filter (· ≠ name)} (s.mark name) where
  found := h.found
  fresh other hother := by
    have := h.fresh other hother
    simp only [List.mem_filter, ne_eq, decide_not, Bool.not_eq_true', decide_eq_false_iff_not,
      Progress.mark, List.mem_cons, not_or, this]
    exact And.comm
  pending := h.pending

theorem Follows.enter (h : Follows names w s) {m : Manifest} (label : String)
    (hm : ∀ name ∈ m.require, name ∈ names) : Follows names (w.enter label m) (s.enter m) where
  found := by
    rw [Progress.enter, ← h.found]
    rfl
  fresh := h.fresh
  pending f hf := by
    rcases List.mem_cons.1 hf with rfl | hf
    · exact hm
    · exact h.pending f hf

/-- Leaving a package, the walk does what the visit does. -/
theorem Follows.leave (target : Target) {f : Frame} (h : Follows names w s) :
    match Walk.leave target w f with
    | .error e => Progress.leave target f.manifest s = .error e
    | .ok after => after.stack = w.stack ∧
        ∃ s', Progress.leave target f.manifest s = .ok s' ∧ Follows names after s' := by
  unfold Walk.leave Progress.leave
  cases hblock : f.manifest.shading with
  | none => exact ⟨rfl, s, rfl, h⟩
  | some block =>
    dsimp only
    cases hrule : ruleOf target f.manifest block with
    | error e => rfl
    | ok rule =>
      refine ⟨rfl, _, rfl, ?_, h.fresh, h.pending⟩
      rw [← h.found]
      rfl

/-- Meeting a requirement, the walk does what the visit does. -/
theorem Follows.require (target : Target) {f : Frame} {below : List Frame} {name : String}
    {rest : List String} (h : Follows names w s) (hw : w.stack = {f with pending := rest} :: below)
    (hf : f.pending = name :: rest) (hname : name ∈ names)
    (hload : ∀ name m, load name = .ok m → ∀ n ∈ m.require, n ∈ names) :
    match Walk.require load w f.manifest name with
    | .error e => Visits load target f.manifest (name :: rest) s (.error e)
    | .ok after => ∃ s', Follows names after s' ∧ ∀ out, Completes load target after.stack s' out →
        Completes load target (f :: below) s out := by
  have hfresh := h.fresh name hname
  unfold Walk.require
  by_cases hplatform : isPlatform name = true
  · rw [if_pos hplatform]
    exact ⟨s, h, fun out hout => completes_cons hf (fun _ => .platform hplatform) (hw ▸ hout)⟩
  rw [if_neg hplatform]
  rw [Bool.not_eq_true] at hplatform
  by_cases hpackage : isPackageName name = false
  · rw [if_pos hpackage]
    exact .misnamed hplatform hpackage
  rw [if_neg hpackage]
  rw [Bool.not_eq_false] at hpackage
  by_cases hvisited : name ∈ s.visited
  · rw [if_pos fun hmem => hfresh.1 hmem hvisited]
    exact ⟨s, h.report _ _,
      fun out hout => completes_cons hf (fun _ => .known hplatform hpackage hvisited) (hw ▸ hout)⟩
  rw [if_neg fun hold => hold (hfresh.2 hvisited)]
  have hs : s.Fresh name := ⟨hplatform, hpackage, hvisited⟩
  dsimp only
  cases hpackage : load name with
  | error e => exact .unreadable hs hpackage
  | ok package =>
    dsimp only
    by_cases hshading : package.shading.isNone = true
    · rw [if_pos hshading]
      exact ⟨s.mark name, (h.mark name).report _ _,
        fun out hout => completes_cons hf (fun _ => .bare hs hpackage hshading) (hw ▸ hout)⟩
    · rw [if_neg hshading]
      rw [Bool.not_eq_true] at hshading
      refine ⟨(s.mark name).enter package, (h.mark name).enter name (hload name package hpackage), ?_⟩
      rintro out ⟨inner, hinner, hout⟩
      split at hout
      · subst hout
        exact completes_of_error (hf ▸ .failed hs hpackage hshading hinner ‹_›)
      · rename_i left hleft
        have hout : Completes load target w.stack left out := hout
        rw [hw] at hout
        exact completes_cons hf (fun _ => .entered hs hpackage hshading hinner hleft) hout

theorem Follows.restack (h : Follows names w s) {stack : List Frame}
    (hstack : ∀ f ∈ stack, ∀ name ∈ f.pending, name ∈ names) : Follows names {w with stack := stack} s :=
  ⟨h.found, h.fresh, hstack⟩

/-- One step of the walk takes the visit on, or ends both. -/
theorem Follows.next (target : Target) (h : Follows names w s)
    (hload : ∀ name m, load name = .ok m → ∀ n ∈ m.require, n ∈ names) :
    match Walk.next load target w with
    | .error e => Completes load target w.stack s (.error e)
    | .ok none => w.stack = []
    | .ok (some after) => ∃ s', Follows names after s' ∧ ∀ out, Completes load target after.stack s' out →
        Completes load target w.stack s out := by
  have hpending := h.pending
  unfold Walk.next
  cases hw : w.stack with
  | nil => rfl
  | cons f below =>
    rw [hw] at hpending
    have hbelow : ∀ g ∈ below, ∀ name ∈ g.pending, name ∈ names :=
      fun g hg => hpending g (List.mem_cons_of_mem f hg)
    dsimp only
    cases hf : f.pending with
    | nil =>
      have hleave := (h.restack hbelow).leave target (f := f)
      dsimp only
      cases hrun : Walk.leave target {w with stack := below} f with
      | error e =>
        rw [hrun] at hleave
        exact ⟨.ok s, hf ▸ .done, by simp only [Except.bind, hleave]⟩
      | ok after =>
        rw [hrun] at hleave
        obtain ⟨hstack, s', hs', hfollows⟩ := hleave
        refine ⟨s', hfollows, fun out hout => ⟨.ok s, hf ▸ .done, ?_⟩⟩
        rw [hstack] at hout
        simpa only [Except.bind, hs'] using hout
    | cons name rest =>
      have hin := hpending f List.mem_cons_self
      rw [hf] at hin
      have htop : ∀ g ∈ {f with pending := rest} :: below, ∀ name ∈ g.pending, name ∈ names := by
        intro g hg
        rcases List.mem_cons.1 hg with rfl | hg
        · exact fun other hother => hin other (List.mem_cons_of_mem name hother)
        · exact hbelow g hg
      have hrequire := (h.restack htop).require target rfl hf (hin name List.mem_cons_self) hload
      dsimp only
      cases hrun : Walk.require load {w with stack := {f with pending := rest} :: below} f.manifest name with
      | error e =>
        rw [hrun] at hrequire
        exact completes_of_error (hf ▸ hrequire)
      | ok after =>
        rw [hrun] at hrequire
        exact hrequire

/-- **The walk ends in what is left to visit for its stack.** -/
theorem Follows.run (target : Target) (h : Follows names w s)
    (hload : ∀ name m, load name = .ok m → ∀ n ∈ m.require, n ∈ names) :
    ∃ out, Completes load target w.stack s out ∧
      (Walk.run load target w).1 = out.map Progress.found := by
  fun_induction Walk.run load target w generalizing s with
  | case1 w e hnext =>
    have hstep := h.next target hload
    rw [hnext] at hstep
    exact ⟨.error e, hstep, rfl⟩
  | case2 w hnext =>
    have hstep := h.next target hload
    rw [hnext] at hstep
    refine ⟨.ok s, ?_, by rw [h.found]; rfl⟩
    rw [show w.stack = [] from hstep]
    rfl
  | case3 w after hnext ih =>
    have hstep := h.next target hload
    rw [hnext] at hstep
    obtain ⟨s', hfollows, hcompletes⟩ := hstep
    obtain ⟨out, hout, hrun⟩ := ih hfollows
    exact ⟨out, hcompletes out hout, hrun⟩

end Walk

/-! ### Projects -/

/-- What a manifest requires does not depend on where it lies. -/
theorem exists_parse_of_parse {path : Path} (path' : Path) {text : List Char} {m : Manifest}
    (h : Manifest.parse path text = .ok m) :
    ∃ m', Manifest.parse path' text = .ok m' ∧ m'.require = m.require := by
  unfold Manifest.parse Manifest.ofValue at h ⊢
  cases hjson : Json.parse text with
  | none =>
    rw [hjson] at h
    cases h
  | some v =>
    rw [hjson] at h
    dsimp only at h ⊢
    cases houtline : outlineOf v with
    | none =>
      rw [houtline] at h
      cases h
    | some outline =>
      rw [houtline] at h
      dsimp only at h ⊢
      cases hshading : outline.shading with
      | none =>
        rw [hshading] at h
        cases h
        exact ⟨_, rfl, rfl⟩
      | some block =>
        rw [hshading] at h
        dsimp only at h ⊢
        cases hblock : shadingOf block with
        | none =>
          rw [hblock] at h
          cases h
        | some _ =>
          rw [hblock] at h
          cases h
          exact ⟨_, rfl, rfl⟩

/-- What is read is the text of a file on the disk. -/
theorem exists_file_of_readText {d : Files.Disk} {p : Path} {text : String} (h : d.readText p = .ok text) :
    ∃ place data, (place, .file data) ∈ d.tree.entries ∧ data.bytes.text? = some text := by
  unfold Files.Disk.readText Files.Disk.read Files.Disk.stat at h
  cases hfind : d.find p true with
  | error e =>
    rw [hfind] at h
    cases h
  | ok spot =>
    rw [hfind] at h
    cases spot with
    | missing parent name => cases h
    | found place entry =>
      have hget := Files.Disk.get?_of_find hfind
      cases entry with
      | directory => cases h
      | link target => cases h
      | file data =>
        dsimp only at h
        unfold Files.Tree.get? at hget
        split at hget
        · cases hget
        · obtain ⟨before, after, hentries, -⟩ := List.lookup_eq_some_iff.1 hget
          refine ⟨place, data, by simp [hentries], ?_⟩
          split at h
          · cases h
          · cases h
            assumption

/-- `requiredNames` holds all that a manifest on the disk requires. -/
theorem mem_requiredNames {d : Files.Disk} {package : Path} {m : Manifest}
    (h : Manifest.load d package = .ok m) : ∀ name ∈ m.require, name ∈ requiredNames d := by
  intro name hname
  unfold Manifest.load at h
  dsimp only at h
  split at h
  · cases h
  · rename_i text htext
    obtain ⟨place, data, hmem, hbytes⟩ := exists_file_of_readText htext
    obtain ⟨m', hm', hrequire⟩ := exists_parse_of_parse ⟨""⟩ h
    refine List.mem_flatMap.2 ⟨(place, .file data), hmem, ?_⟩
    simp only [hbytes, hm', hrequire]
    exact hname

theorem VisitsPackage.visitsProject {d : Files.Disk} {project : Path} {m : Manifest}
    {last : Except ManifestError Progress} (h : VisitsPackage (installed d project) target m {} last)
    (hload : Manifest.load d project = .ok m) : VisitsProject d project target (last.map Progress.found) := by
  unfold VisitsProject
  rw [hload]
  exact ⟨last, h, rfl⟩

/-- The walk that starts from a project. -/
def start (names : List String) (project : Manifest) : Walk :=
  Walk.enter ⟨[], names, {}, []⟩ (project.name.getD "project") project

theorem follows_start {names : List String} {m : Manifest} (hm : ∀ name ∈ m.require, name ∈ names) :
    Walk.Follows names (start names m) (Progress.enter {} m) := by
  have hempty : Walk.Follows names ⟨[], names, {}, []⟩ {} :=
    ⟨rfl, fun name hname => iff_of_true hname List.not_mem_nil, nofun⟩
  exact hempty.enter _ hm

/-- A walk ends in what the visit of its project comes to, if the names it may take in are all that is required. -/
theorem visitsPackage_walk {names : List String} {m : Manifest} (hm : ∀ name ∈ m.require, name ∈ names)
    (hload : ∀ name package, load name = .ok package → ∀ n ∈ package.require, n ∈ names) :
    ∃ last, VisitsPackage load target m {} last ∧ (walk load names target m).1 = last.map Progress.found := by
  obtain ⟨last, ⟨inner, hinner, hlast⟩, hrun⟩ := (follows_start hm).run target hload
  refine ⟨last, ⟨inner, hinner, ?_⟩, hrun⟩
  split at hlast
  · rw [hlast]
    exact Eq.symm ‹_›
  · rw [show last = .ok _ from hlast]
    exact Eq.symm ‹_›

theorem VisitsPackage.unique {m : Manifest} {s : Progress} {out out' : Except ManifestError Progress}
    (h : VisitsPackage load target m s out) (h' : VisitsPackage load target m s out') : out = out' := by
  obtain ⟨inner, hinner, rfl⟩ := h
  obtain ⟨inner', hinner', rfl⟩ := h'
  rw [hinner.unique hinner']

/-- Resolving ends in something that the visit of the project comes to. -/
theorem visitsProject_resolve (d : Files.Disk) (project : Path) (target : Target) :
    VisitsProject d project target (resolve d project target).1 := by
  unfold resolve VisitsProject
  cases hproject : Manifest.load d project with
  | error e => rfl
  | ok m => exact visitsPackage_walk (mem_requiredNames hproject) fun _ _ h => mem_requiredNames h

theorem VisitsProject.unique {d : Files.Disk} {project : Path} {out out' : Except ManifestError Found}
    (h : VisitsProject d project target out) (h' : VisitsProject d project target out') : out = out' := by
  unfold VisitsProject at h h'
  cases hproject : Manifest.load d project with
  | error e =>
    rw [hproject] at h h'
    exact h.trans h'.symm
  | ok m =>
    rw [hproject] at h h'
    obtain ⟨last, hvisit, rfl⟩ := h
    obtain ⟨last', hvisit', rfl⟩ := h'
    rw [hvisit.unique hvisit']

/-- **Resolving a project ends in what the visit of the project comes to**, whatever the manifests
require: both end, and alike. -/
theorem resolve_eq_iff {d : Files.Disk} {project : Path} {target : Target}
    {out : Except ManifestError Found} :
    (resolve d project target).1 = out ↔ VisitsProject d project target out := by
  have hvisits := visitsProject_resolve d project target
  constructor
  · rintro rfl
    exact hvisits
  · exact hvisits.unique

end PluginShading.Resolution
