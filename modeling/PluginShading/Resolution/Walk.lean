import PluginShading.Manifest.Reader
import PluginShading.Log
import PluginShading.Shading.Rule
import PluginShading.Version.Spec

/-!
Resolving a project: which source roots it takes in and which namespaces of its dependencies are to be
shaded.

The walk keeps a stack of the packages whose requirements it is going through. A package is entered
when it is first required, which adds its source roots, and left when its requirements are done, which
adds its rule; so the rules of dependencies come before those of the packages that need them. A package
without a shading block is reported and left out, with everything below it.
-/
namespace PluginShading.Resolution

open Shading (Rule Target)

def vendorDirectory : String := "vendor"

/-- What a walk has found. -/
structure Found where
  sourceRoots : List Path := []
  rules : List Rule := []
  deriving DecidableEq, Repr

/-! ### Packages -/

/-- `text` is `start` and then at least one character, none of them a slash. -/
def continues (start : String) (text : String) : Bool :=
  let rest := text.toList.drop start.length
  start.toList.isPrefixOf text.toList && !rest.isEmpty && rest.all (· != '/')

/-- The requirement is the runtime, or part of it, and no package. -/
def isPlatform (name : String) : Bool :=
  name == "php" || ["ext-", "php-", "lib-", "composer-"].any (continues · name)

/-- A vendor and a package, with one slash between them. -/
def isPackageName (name : String) : Bool := name.toList.count '/' == 1

/-- Adds the roots that are not there yet. -/
def addRoots (known : List Path) : List Path → List Path
  | [] => known
  | p :: rest => addRoots (if known.any p.same then known else known ++ [p]) rest

/-- The rule of a package that has a shading block. -/
def ruleOf (target : Target) (m : Manifest) (block : ShadingBlock) : Except ManifestError Rule :=
  match block.spec with
  | none => .error (.missingSpec m.path)
  | some spec =>
    match Version.check? spec.toList with
    | none => .error (.invalidSpecVersion m.path spec)
    | some (.tooNew _) => .error (.specTooNew m.path spec)
    | some (.tooOld _) => .error (.specTooOld m.path spec)
    | some (.supported _) =>
      match block.root with
      | none => .error (.missingNamespaceRoot m.path)
      | some root =>
        match Rule.ofRoot root.toList target with
        | .error e => .error (.invalidNamespace m.path e)
        | .ok rule =>
          .ok {rule with shared := block.shared.map String.toList, sources := some m.sourceRoots}

/-! ### The walk -/

/-- A package whose requirements are being gone through. -/
structure Frame where
  label : String
  manifest : Manifest
  /-- The requirements not looked at yet. -/
  pending : List String
  deriving Repr

structure Walk where
  stack : List Frame
  /-- The names that may still be taken in. Each is taken in once, which is why the walk ends. -/
  fresh : List String
  found : Found
  log : Log
  deriving Repr

namespace Walk

def report (w : Walk) (severity : Severity) (message : String) : Walk :=
  {w with log := w.log ++ [⟨severity, message⟩]}

/-- Takes a package in. -/
def enter (w : Walk) (label : String) (m : Manifest) : Walk :=
  { w.report .debug ("including source roots of " ++ label) with
    stack := ⟨label, m, m.require⟩ :: w.stack
    found := {w.found with sourceRoots := addRoots w.found.sourceRoots m.sourceRoots} }

/-- Takes leave of a package whose requirements are done, and adds its rule. -/
def leave (target : Target) (w : Walk) (f : Frame) : Except ManifestError Walk :=
  match f.manifest.shading with
  | none => .ok w
  | some block =>
    match ruleOf target f.manifest block with
    | .error e => .error e
    | .ok rule =>
      .ok ({w with found := {w.found with rules := w.found.rules ++ [rule]}}.report .debug
        (f.label ++ ": namespace " ++ String.ofList rule.root ++ " will be shaded"))

def skipWarning (name : String) (m : Manifest) : String :=
  "dependency " ++ name ++ " is not shadeable (no shading block in " ++ m.path.text ++
    "), skipping it; it should declare `extra.shading` with a spec version and namespace root"

/-- One requirement of the package `requirer`. -/
def require (load : String → Except ManifestError Manifest) (w : Walk) (requirer : Manifest)
    (name : String) : Except ManifestError Walk :=
  if isPlatform name then .ok w
  else if isPackageName name = false then .error (.invalidDependencyName name requirer.path)
  else if name ∉ w.fresh then .ok (w.report .debug (name ++ " already visited"))
  else
    let w := {w with fresh := w.fresh.filter (· ≠ name)}
    match load name with
    | .error e => .error e
    | .ok m =>
      if m.shading.isNone then .ok (w.report .warning (skipWarning name m))
      else .ok (w.enter name m)

/-- One step: the next requirement of the package on top, or its end. Nothing once the stack is
empty. -/
def next (load : String → Except ManifestError Manifest) (target : Target) (w : Walk) :
    Except ManifestError (Option Walk) :=
  match w.stack with
  | [] => .ok none
  | f :: below =>
    match f.pending with
    | [] => (leave target {w with stack := below} f).map some
    | name :: rest =>
      (require load {w with stack := {f with pending := rest} :: below} f.manifest name).map some

/-- The requirements on the stack and the packages there. -/
def size (w : Walk) : Nat := w.stack.foldr (fun f n => f.pending.length + 1 + n) 0

/-! ### What a step does -/

/-- What it comes to that the requirement `name` is met. A name that is looked up is taken from the fresh ones, whether
its package is shadeable or not. -/
inductive Met (load : String → Except ManifestError Manifest) (w : Walk) (name : String) : Walk → Prop
  | platform : isPlatform name = true → Met load w name w
  | known : isPlatform name = false → isPackageName name = true → name ∉ w.fresh →
      Met load w name (w.report .debug (name ++ " already visited"))
  | bare {m : Manifest} : isPlatform name = false → isPackageName name = true → name ∈ w.fresh →
      load name = .ok m → m.shading.isNone = true →
      Met load w name ({w with fresh := w.fresh.filter (· ≠ name)}.report .warning (skipWarning name m))
  | entered {m : Manifest} : isPlatform name = false → isPackageName name = true → name ∈ w.fresh →
      load name = .ok m → m.shading.isNone = false →
      Met load w name ({w with fresh := w.fresh.filter (· ≠ name)}.enter name m)

/-- A step takes leave of the package on top, or meets its next requirement. -/
inductive Step (load : String → Except ManifestError Manifest) (target : Target) (w after : Walk) : Prop
  | left {f : Frame} {below : List Frame} : w.stack = f :: below → f.pending = [] →
      leave target {w with stack := below} f = .ok after → Step load target w after
  | met {f : Frame} {below : List Frame} {name : String} {rest : List String} : w.stack = f :: below →
      f.pending = name :: rest → Met load {w with stack := {f with pending := rest} :: below} name after →
      Step load target w after

section

variable {load : String → Except ManifestError Manifest} {target : Target} {w after : Walk} {name : String}

theorem Met.of_require {requirer : Manifest} (h : require load w requirer name = .ok after) :
    Met load w name after := by
  unfold require at h
  split at h
  · cases h
    exact .platform ‹_›
  rename_i hplatform
  rw [Bool.not_eq_true] at hplatform
  split at h
  · cases h
  rename_i hpackage
  rw [Bool.not_eq_false] at hpackage
  split at h
  · cases h
    exact .known hplatform hpackage ‹_›
  rename_i hfresh
  rw [Decidable.not_not] at hfresh
  cases hload : load name with
  | error e => simp [hload] at h
  | ok m =>
    simp only [hload] at h
    split at h <;> cases h
    · exact .bare hplatform hpackage hfresh hload ‹_›
    · exact .entered hplatform hpackage hfresh hload (Bool.not_eq_true _ ▸ ‹_›)

theorem Step.of_next (h : next load target w = .ok (some after)) : Step load target w after := by
  unfold next at h
  split at h
  · cases h
  rename_i f below hstack
  split at h
  · rename_i hpending
    cases hleave : leave target {w with stack := below} f with
    | error e => simp [hleave, Except.map] at h
    | ok v =>
      rw [hleave] at h
      cases h
      exact .left hstack hpending hleave
  · rename_i name rest hpending
    cases hrequire : require load {w with stack := {f with pending := rest} :: below} f.manifest name with
    | error e => simp [hrequire, Except.map] at h
    | ok v =>
      rw [hrequire] at h
      cases h
      exact .met hstack hpending (.of_require hrequire)

theorem leave_keeps {f : Frame} (h : leave target w f = .ok after) :
    after.stack = w.stack ∧ after.fresh = w.fresh := by
  unfold leave at h
  repeat' split at h
  all_goals simp only [Except.ok.injEq, reduceCtorEq] at h
  all_goals subst h; exact ⟨rfl, rfl⟩

/-- The fresh names are as they were, or `name` was one of them and is none any longer. -/
theorem Met.fresh_cases (h : Met load w name after) : after.stack = w.stack ∧ after.fresh = w.fresh ∨
    isPlatform name = false ∧ isPackageName name = true ∧ name ∈ w.fresh ∧
      after.fresh = w.fresh.filter (· ≠ name) := by
  cases h with
  | platform | known => exact .inl ⟨rfl, rfl⟩
  | bare hplatform hpackage hfresh | entered hplatform hpackage hfresh =>
    exact .inr ⟨hplatform, hpackage, hfresh, rfl⟩

/-- Names to take in first, then what is on the stack. -/
theorem next_shrinks (h : next load target w = .ok (some after)) :
    Prod.Lex (· < ·) (· < ·) (after.fresh.length, after.size) (w.fresh.length, w.size) := by
  cases Step.of_next h with
  | left hstack hpending hleave =>
    obtain ⟨hbelow, hfresh⟩ := leave_keeps hleave
    simp only [size, hbelow, hfresh, hstack, List.foldr_cons]
    exact Prod.Lex.right _ (by omega)
  | @met f below name rest hstack hpending hmet =>
    rcases hmet.fresh_cases with ⟨hafter, hfresh⟩ | ⟨-, -, hname, hfresh⟩
    · simp only [size, hafter, hfresh, hstack, hpending, List.foldr_cons, List.length_cons]
      exact Prod.Lex.right _ (by omega)
    · refine Prod.Lex.left _ _ ?_
      rw [hfresh]
      exact List.length_filter_lt_length_iff_exists.2 ⟨name, hname, by simp⟩

end

/-- Goes on until the stack is empty. -/
def run (load : String → Except ManifestError Manifest) (target : Target) (w : Walk) :
    Except ManifestError Found × Log :=
  match _h : next load target w with
  | .error e => (.error e, w.log)
  | .ok none => (.ok w.found, w.log)
  | .ok (some after) => run load target after
termination_by (w.fresh.length, w.size)
decreasing_by exact next_shrinks _h

end Walk

/-! ### Projects -/

/-- Walks from a project. `names` are all the names that any package requires. -/
def walk (load : String → Except ManifestError Manifest) (names : List String) (target : Target)
    (project : Manifest) : Except ManifestError Found × Log :=
  Walk.run load target (Walk.enter ⟨[], names, {}, []⟩ (project.name.getD "project") project)

/-- The names that the manifests on a disk require, whatever the files are called. -/
def requiredNames (d : Files.Disk) : List String :=
  d.tree.entries.flatMap fun e =>
    match e.2 with
    | .file data =>
      match data.bytes.text? with
      | none => []
      | some text =>
        match Manifest.parse ⟨""⟩ text.toList with
        | .error _ => []
        | .ok m => m.require
    | _ => []

/-- Where an installed package lies. -/
def packageDirectory (project : Path) (name : String) : Path :=
  (project.join ⟨vendorDirectory⟩).join ⟨name⟩

/-- Resolves the project in a directory of a disk. -/
def resolve (d : Files.Disk) (project : Path) (target : Target) :
    Except ManifestError Found × Log :=
  match Manifest.load d project with
  | .error e => (.error e, [])
  | .ok m => walk (fun name => Manifest.load d (packageDirectory project name)) (requiredNames d) target m

end PluginShading.Resolution
