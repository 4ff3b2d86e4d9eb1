import Mathlib.Data.List.Forall2
import Mathlib.Data.List.Nodup
import Mathlib.Logic.Relation
import PluginShading.Proofs.Resolution.Visit

/-!
Rules of dependencies before those of their dependents.

`rules_in_order` is the main statement: where no package leads back to itself, every shadeable package that
the project leads to has one rule, behind the rules of the packages it requires. The proof goes through
the visit: a package that is met again is done with, or it is still open and then leads to the package
that requires it (`Account.order`).
-/
namespace PluginShading.Resolution

open Relation (ReflTransGen TransGen)
open Shading (Rule Target)

variable {load : String → Except ManifestError Manifest} {target : Target}

/-! ### Packages and what they require -/

/-- The package is there and has a shading block. -/
def Shadeable (load : String → Except ManifestError Manifest) (name : String) : Prop :=
  ∃ package, load name = .ok package ∧ package.shading.isNone = false

/-- The manifest requires the shadeable package `name`. -/
structure Requires (load : String → Except ManifestError Manifest) (m : Manifest) (name : String) : Prop where
  listed : name ∈ m.require
  platform : isPlatform name = false
  shadeable : Shadeable load name

/-- The shadeable package `p` requires the shadeable package `q`. -/
def DependsOn (load : String → Except ManifestError Manifest) (p q : String) : Prop :=
  ∃ package, load p = .ok package ∧ package.shading.isNone = false ∧ Requires load package q

/-- The project leads to the package through shadeable packages. -/
def Reached (load : String → Except ManifestError Manifest) (project : Manifest) (name : String) : Prop :=
  ∃ first, Requires load project first ∧ ReflTransGen (DependsOn load) first name

/-- `rule` is the rule of the package `name`. -/
def RuleFor (load : String → Except ManifestError Manifest) (target : Target) (name : String)
    (rule : Rule) : Prop :=
  ∃ package block, load name = .ok package ∧ package.shading = some block ∧
    ruleOf target package block = .ok rule

/-- The path is a source root of the package `name`. -/
def RootOf (load : String → Except ManifestError Manifest) (name : String) (root : Path) : Prop :=
  ∃ package, load name = .ok package ∧ root ∈ package.sourceRoots

/-! ### Source roots -/

theorem mem_addRoots {known roots : List Path} {p : Path} (h : p ∈ addRoots known roots) :
    p ∈ known ∨ p ∈ roots := by
  induction roots generalizing known with
  | nil => exact .inl h
  | cons q rest ih =>
    rcases ih h with h | h
    · split at h
      · exact .inl h
      · rcases List.mem_append.1 h with h | h
        · exact .inl h
        · exact .inr (List.mem_singleton.1 h ▸ List.mem_cons_self)
    · exact .inr (List.mem_cons_of_mem q h)

theorem subset_addRoots (known roots : List Path) : known ⊆ addRoots known roots := by
  induction roots generalizing known with
  | nil => exact List.Subset.refl known
  | cons q rest ih =>
    refine List.Subset.trans ?_ (ih _)
    split
    · exact List.Subset.refl known
    · exact List.subset_append_left known [q]

theorem exists_same_addRoots {known roots : List Path} {p : Path} (h : p ∈ roots) :
    ∃ q ∈ addRoots known roots, p.same q = true := by
  induction roots generalizing known with
  | nil => cases h
  | cons q rest ih =>
    rcases List.mem_cons.1 h with rfl | h
    · by_cases hknown : known.any p.same = true
      · obtain ⟨q, hq, hsame⟩ := List.any_eq_true.1 hknown
        refine ⟨q, subset_addRoots _ rest ?_, hsame⟩
        rwa [if_pos hknown]
      · refine ⟨p, subset_addRoots _ rest ?_, beq_self_eq_true _⟩
        rw [if_neg hknown]
        exact List.mem_append_right known List.mem_cons_self
    · exact ih h

/-- No two entries of the list are spellings of one path. -/
def Distinct (roots : List Path) : Prop := roots.Pairwise fun p q => p.same q = false

theorem Distinct.addRoots {known : List Path} (h : Distinct known) (roots : List Path) :
    Distinct (addRoots known roots) := by
  induction roots generalizing known with
  | nil => exact h
  | cons q rest ih =>
    refine ih ?_
    split
    · exact h
    · rename_i hnew
      refine List.pairwise_append.2 ⟨h, List.pairwise_singleton _ _, fun p hp r hr => ?_⟩
      obtain rfl := List.mem_singleton.1 hr
      rw [List.any_eq_true, not_exists] at hnew
      have hne : ¬ r.same p = true := fun hsame => hnew p ⟨hp, hsame⟩
      rw [Path.same, beq_eq_false_iff_ne]
      exact fun heq => hne (beq_iff_eq.2 heq.symm)

/-! ### Accounts of a visit -/

/-- What leaving a package adds: the rule of its shading block, if it has one. -/
theorem Progress.leave_cases {m : Manifest} {s s' : Progress} (h : Progress.leave target m s = .ok s') :
    (m.shading = none ∧ s' = s) ∨ ∃ block rule, m.shading = some block ∧ ruleOf target m block = .ok rule ∧
      s' = {s with found := {s.found with rules := s.found.rules ++ [rule]}} := by
  unfold Progress.leave at h
  split at h
  · cases h
    exact .inl ⟨‹_›, rfl⟩
  · rename_i block hblock
    cases hrule : ruleOf target m block with
    | error e =>
      rw [hrule] at h
      cases h
    | ok rule =>
      rw [hrule] at h
      cases h
      exact .inr ⟨block, rule, hblock, hrule, rfl⟩

theorem Progress.leave_sourceRoots {m : Manifest} {s s' : Progress}
    (h : Progress.leave target m s = .ok s') : s'.found.sourceRoots = s.found.sourceRoots := by
  rcases Progress.leave_cases h with ⟨-, rfl⟩ | ⟨-, -, -, -, rfl⟩ <;> rfl

/-- What a visit has come to: `done` are the packages whose rules stand, in the order of the rules, `opened`
the ones that are being visited. -/
structure Account (load : String → Except ManifestError Manifest) (target : Target) (project : Manifest)
    (s : Progress) (done opened : List String) : Prop where
  rules : List.Forall₂ (RuleFor load target) done s.found.rules
  once : done.Nodup
  visited : ∀ name, name ∈ done ∨ name ∈ opened → name ∈ s.visited
  known : ∀ name ∈ s.visited, Shadeable load name → name ∈ done ∨ name ∈ opened
  apart : ∀ name ∈ opened, name ∉ done
  single : opened.Nodup
  reached : ∀ name, name ∈ done ∨ name ∈ opened → Reached load project name
  /-- A package stands behind one that it requires, unless that one leads back to it. -/
  order : ∀ before p after q, done = before ++ p :: after → DependsOn load p q →
    q ∈ before ∨ (q ∈ done ∨ q ∈ opened) ∧ ReflTransGen (DependsOn load) q p
  distinct : Distinct s.found.sourceRoots
  listed : ∀ root ∈ s.found.sourceRoots, root ∈ project.sourceRoots ∨
    ∃ name, (name ∈ done ∨ name ∈ opened) ∧ RootOf load name root
  covered : ∀ root, (root ∈ project.sourceRoots ∨
    ∃ name, (name ∈ done ∨ name ∈ opened) ∧ RootOf load name root) →
      ∃ q ∈ s.found.sourceRoots, root.same q = true

namespace Account

variable {project : Manifest} {s s' : Progress} {done opened : List String} {name : String}
  {package : Manifest}

/-- A package without a shading block is visited and done with. -/
theorem mark (h : Account load target project s done opened) (hname : ¬ Shadeable load name) :
    Account load target project (s.mark name) done opened :=
  { h with
    visited := fun other hother => List.mem_cons_of_mem name (h.visited other hother)
    known := fun other hother hshadeable => by
      rcases List.mem_cons.1 hother with rfl | hother
      · exact absurd hshadeable hname
      · exact h.known other hother hshadeable }

theorem enter (h : Account load target project s done opened) (hs : s.Fresh name)
    (hload : load name = .ok package) (hreached : Reached load project name) :
    Account load target project ((s.mark name).enter package) done (name :: opened) where
  rules := h.rules
  once := h.once
  visited other hother := by
    rw [List.mem_cons, or_left_comm] at hother
    rcases hother with rfl | hother
    · exact List.mem_cons_self
    · exact List.mem_cons_of_mem name (h.visited other hother)
  known other hother hshadeable := by
    rcases List.mem_cons.1 hother with rfl | hother
    · exact .inr List.mem_cons_self
    · exact (h.known other hother hshadeable).imp_right (List.mem_cons_of_mem name)
  apart other hother hdone := by
    rcases List.mem_cons.1 hother with rfl | hother
    · exact hs.unvisited (h.visited other (.inl hdone))
    · exact h.apart other hother hdone
  single := List.nodup_cons.2 ⟨fun hname => hs.unvisited (h.visited name (.inr hname)), h.single⟩
  reached other hother := by
    rw [List.mem_cons, or_left_comm] at hother
    rcases hother with rfl | hother
    · exact hreached
    · exact h.reached other hother
  order before p after q hdone hq :=
    (h.order before p after q hdone hq).imp_right (.imp_left (.imp_right (List.mem_cons_of_mem name)))
  distinct := h.distinct.addRoots _
  listed root hroot := by
    rcases mem_addRoots hroot with hroot | hroot
    · refine (h.listed root hroot).imp_right ?_
      rintro ⟨other, hother, hof⟩
      exact ⟨other, hother.imp_right (List.mem_cons_of_mem name), hof⟩
    · exact .inr ⟨name, .inr List.mem_cons_self, package, hload, hroot⟩
  covered root hroot := by
    have hold : ∀ {q}, q ∈ s.found.sourceRoots →
        q ∈ ((s.mark name).enter package).found.sourceRoots := fun hq => subset_addRoots _ _ hq
    rcases hroot with hroot | ⟨other, hother, hof⟩
    · obtain ⟨q, hq, hsame⟩ := h.covered root (.inl hroot)
      exact ⟨q, hold hq, hsame⟩
    · rw [List.mem_cons, or_left_comm] at hother
      rcases hother with rfl | hother
      · obtain ⟨loaded, hloaded, hroot⟩ := hof
        rw [hload, Except.ok.injEq] at hloaded
        exact exists_same_addRoots (hloaded ▸ hroot)
      · obtain ⟨q, hq, hsame⟩ := h.covered root (.inr ⟨other, hother, hof⟩)
        exact ⟨q, hold hq, hsame⟩

/-- A package is done with behind all that it requires, but for what leads back to it. -/
theorem leave (h : Account load target project s done (name :: opened)) (hload : load name = .ok package)
    (hshading : package.shading.isNone = false)
    (hneeds : ∀ q, Requires load package q → q ∈ done ∨ q ∈ name :: opened)
    (hleads : ∀ p ∈ opened, ReflTransGen (DependsOn load) p name)
    (hs : Progress.leave target package s = .ok s') :
    Account load target project s' (done ++ [name]) opened := by
  have hsplit : ∀ other, other ∈ done ++ [name] ∨ other ∈ opened ↔ other ∈ done ∨ other ∈ name :: opened := by
    intro other
    rw [List.mem_append, List.mem_singleton, List.mem_cons, or_assoc]
  rcases Progress.leave_cases hs with ⟨hnone, -⟩ | ⟨block, rule, hblock, hrule, rfl⟩
  · rw [hnone] at hshading
    cases hshading
  exact {
    rules := List.rel_append h.rules (.cons ⟨package, block, hload, hblock, hrule⟩ .nil)
    once := by
      refine List.nodup_append.2 ⟨h.once, List.nodup_singleton name, fun p hp q hq => ?_⟩
      obtain rfl := List.mem_singleton.1 hq
      rintro rfl
      exact h.apart p List.mem_cons_self hp
    visited := fun other hother => h.visited other ((hsplit other).1 hother)
    known := fun other hother hshadeable => (hsplit other).2 (h.known other hother hshadeable)
    apart := by
      intro other hother hdone
      rcases List.mem_append.1 hdone with hdone | hdone
      · exact h.apart other (List.mem_cons_of_mem name hother) hdone
      · exact (List.nodup_cons.1 h.single).1 (List.mem_singleton.1 hdone ▸ hother)
    single := (List.nodup_cons.1 h.single).2
    reached := fun other hother => h.reached other ((hsplit other).1 hother)
    order := by
      intro before p after q hdone hq
      rcases List.eq_nil_or_concat after with rfl | ⟨after, last, rfl⟩
      · -- The package that is left is the last one.
        obtain ⟨rfl, hp⟩ := List.append_inj' hdone rfl
        cases hp
        obtain ⟨loaded, hloaded, -, hrequires⟩ := hq
        rw [hload, Except.ok.injEq] at hloaded
        subst hloaded
        rcases hneeds q hrequires with hq | hq
        · exact .inl hq
        · refine .inr ⟨(hsplit q).2 (.inr hq), ?_⟩
          rcases List.mem_cons.1 hq with rfl | hq
          · exact .refl
          · exact hleads q hq
      · rw [List.concat_eq_append, ← List.cons_append, ← List.append_assoc] at hdone
        exact (h.order before p after q (List.append_inj' hdone rfl).1 hq).imp_right
          (.imp_left (hsplit q).2)
    distinct := h.distinct
    listed := by
      simp only [hsplit]
      exact h.listed
    covered := by
      simp only [hsplit]
      exact h.covered }

/-- The account of a visit that starts: the project's source roots are there, and no package is open. -/
theorem start : Account load target project (({} : Progress).enter project) [] [] where
  rules := .nil
  once := List.nodup_nil
  visited _ h := by simp at h
  known _ h := absurd h List.not_mem_nil
  apart _ h := absurd h List.not_mem_nil
  single := List.nodup_nil
  reached _ h := by simp at h
  order _ _ _ _ h := by simp at h
  distinct := Distinct.addRoots List.Pairwise.nil _
  listed root hroot := .inl ((mem_addRoots hroot).resolve_left List.not_mem_nil)
  covered root hroot := by
    rcases hroot with hroot | ⟨name, hname, -⟩
    · exact exists_same_addRoots hroot
    · simp at hname

end Account

/-- **What a visit adds to an account.** The visit of requirements that can be reached, and that whatever is
open leads to, ends with all of them done with or open. -/
theorem Visits.account (project : Manifest) {m : Manifest} {names : List String} {s : Progress}
    {out : Except ManifestError Progress} (h : Visits load target m names s out) :
    ∀ {done opened : List String}, Account load target project s done opened →
      (∀ q ∈ names, isPlatform q = false → Shadeable load q →
        Reached load project q ∧ ∀ p ∈ opened, ReflTransGen (DependsOn load) p q) →
      ∀ {s' : Progress}, out = .ok s' → ∃ done', done ⊆ done' ∧ Account load target project s' done' opened ∧
        ∀ q ∈ names, isPlatform q = false → Shadeable load q → q ∈ done' ∨ q ∈ opened := by
  induction h with
  | done =>
    rintro done opened hs - s' hout
    cases hout
    exact ⟨done, List.Subset.refl done, hs, nofun⟩
  | platform hp _ ih =>
    intro done opened hs hnames s' hout
    obtain ⟨done', hdone, hs', hsettled⟩ := ih hs (fun q hq => hnames q (List.mem_cons_of_mem _ hq)) hout
    refine ⟨done', hdone, hs', fun q hq hplatform => ?_⟩
    rcases List.mem_cons.1 hq with rfl | hq
    · rw [hp] at hplatform
      cases hplatform
    · exact hsettled q hq hplatform
  | misnamed => exact fun _ _ _ hout => nomatch hout
  | known hp hn hv _ ih =>
    intro done opened hs hnames s' hout
    obtain ⟨done', hdone, hs', hsettled⟩ := ih hs (fun q hq => hnames q (List.mem_cons_of_mem _ hq)) hout
    refine ⟨done', hdone, hs', fun q hq hplatform hshadeable => ?_⟩
    rcases List.mem_cons.1 hq with rfl | hq
    · exact (hs.known q hv hshadeable).imp_left (hdone ·)
    · exact hsettled q hq hplatform hshadeable
  | unreadable => exact fun _ _ _ hout => nomatch hout
  | @bare m package name rest s out hs hload hshading _ ih =>
    intro done opened haccount hnames s' hout
    have hbare : ¬ Shadeable load name := by
      rintro ⟨loaded, hloaded, hblock⟩
      rw [hload, Except.ok.injEq] at hloaded
      rw [← hloaded, hshading] at hblock
      cases hblock
    obtain ⟨done', hdone, hs', hsettled⟩ :=
      ih (haccount.mark hbare) (fun q hq => hnames q (List.mem_cons_of_mem _ hq)) hout
    refine ⟨done', hdone, hs', fun q hq hplatform hshadeable => ?_⟩
    rcases List.mem_cons.1 hq with rfl | hq
    · exact absurd hshadeable hbare
    · exact hsettled q hq hplatform hshadeable
  | failed => exact fun _ _ _ hout => nomatch hout
  | @entered m package name rest s after inner out hs hload hshading _ hleave _ ih ihrest =>
    intro done opened haccount hnames s' hout
    obtain ⟨hreached, hleads⟩ := hnames name List.mem_cons_self hs.platform ⟨package, hload, hshading⟩
    cases inner with
    | error e => cases hleave
    | ok left =>
      have hdepends : ∀ q, Requires load package q → DependsOn load name q :=
        fun q hq => ⟨package, hload, hshading, hq⟩
      obtain ⟨entered, hentered, hinner, hneeds⟩ := ih (haccount.enter hs hload hreached) (by
        intro q hq hplatform hshadeable
        have hstep := hdepends q ⟨hq, hplatform, hshadeable⟩
        obtain ⟨first, hfirst, hpath⟩ := hreached
        refine ⟨⟨first, hfirst, hpath.tail hstep⟩, fun p hp => ?_⟩
        rcases List.mem_cons.1 hp with rfl | hp
        · exact .single hstep
        · exact (hleads p hp).tail hstep) rfl
      have hafter := hinner.leave hload hshading
        (fun q hq => hneeds q hq.listed hq.platform hq.shadeable) hleads hleave
      obtain ⟨done', hdone, hs', hsettled⟩ :=
        ihrest hafter (fun q hq => hnames q (List.mem_cons_of_mem _ hq)) hout
      refine ⟨done', fun q hq => hdone (List.mem_append_left _ (hentered hq)), hs',
        fun q hq hplatform hshadeable => ?_⟩
      rcases List.mem_cons.1 hq with rfl | hq
      · exact .inl (hdone (List.mem_append_right _ List.mem_cons_self))
      · exact hsettled q hq hplatform hshadeable

/-! ### Projects -/

/-- What was found for a project. `order` are the packages in the order of their rules `rules`. -/
structure Counted (load : String → Except ManifestError Manifest) (target : Target) (project : Manifest)
    (found : Found) (order : List String) (rules : List Rule) : Prop where
  once : order.Nodup
  reached : ∀ name, name ∈ order ↔ Reached load project name
  each : List.Forall₂ (RuleFor load target) order rules
  /-- The project's own rule is the last one. -/
  own : match project.shading with
    | none => found.rules = rules
    | some block => ∃ rule, ruleOf target project block = .ok rule ∧ found.rules = rules ++ [rule]
  distinct : Distinct found.sourceRoots
  listed : ∀ root ∈ found.sourceRoots, root ∈ project.sourceRoots ∨ ∃ name ∈ order, RootOf load name root
  covered : ∀ root, (root ∈ project.sourceRoots ∨ ∃ name ∈ order, RootOf load name root) →
    ∃ q ∈ found.sourceRoots, root.same q = true

/-- The same, and no package stands in front of one that it requires. -/
structure Scheduled (load : String → Except ManifestError Manifest) (target : Target) (project : Manifest)
    (found : Found) (order : List String) (rules : List Rule) : Prop where
  once : order.Nodup
  reached : ∀ name, name ∈ order ↔ Reached load project name
  each : List.Forall₂ (RuleFor load target) order rules
  before : ∀ {i j : Nat} {p q : String}, order[i]? = some p → order[j]? = some q →
    DependsOn load p q → j < i
  /-- The project's own rule is the last one. -/
  own : match project.shading with
    | none => found.rules = rules
    | some block => ∃ rule, ruleOf target project block = .ok rule ∧ found.rules = rules ++ [rule]
  distinct : Distinct found.sourceRoots
  listed : ∀ root ∈ found.sourceRoots, root ∈ project.sourceRoots ∨ ∃ name ∈ order, RootOf load name root
  covered : ∀ root, (root ∈ project.sourceRoots ∨ ∃ name ∈ order, RootOf load name root) →
    ∃ q ∈ found.sourceRoots, root.same q = true

/-- When nothing is open any more, all that the project leads to is done with. -/
theorem Account.counted {project : Manifest} {s s' : Progress} {order : List String}
    (h : Account load target project s order [])
    (hneeds : ∀ q, Requires load project q → q ∈ order) (hs : Progress.leave target project s = .ok s') :
    Counted load target project s'.found order s.found.rules where
  once := h.once
  reached name := by
    refine ⟨fun hname => h.reached name (.inl hname), ?_⟩
    rintro ⟨first, hfirst, hpath⟩
    induction hpath with
    | refl => exact hneeds first hfirst
    | @tail p q _ hq hp =>
      obtain ⟨before, after, hsplit⟩ := List.append_of_mem hp
      rcases h.order before p after q hsplit hq with hbefore | ⟨hin | hin, -⟩
      · exact hsplit ▸ List.mem_append_left _ hbefore
      · exact hin
      · cases hin
  each := h.rules
  own := by
    rcases Progress.leave_cases hs with ⟨hnone, rfl⟩ | ⟨block, rule, hblock, hrule, rfl⟩
    · rw [hnone]
    · rw [hblock]
      exact ⟨rule, hrule, rfl⟩
  distinct := (Progress.leave_sourceRoots hs).symm ▸ h.distinct
  listed root hroot := by
    rw [Progress.leave_sourceRoots hs] at hroot
    refine (h.listed root hroot).imp_right ?_
    rintro ⟨name, hname, hof⟩
    exact ⟨name, hname.resolve_right List.not_mem_nil, hof⟩
  covered root hroot := by
    rw [Progress.leave_sourceRoots hs]
    refine h.covered root (hroot.imp_right ?_)
    rintro ⟨name, hname, hof⟩
    exact ⟨name, .inl hname, hof⟩

/-- Where nothing leads back to itself, a package stands behind all that it requires. -/
theorem Account.scheduled {project : Manifest} {s s' : Progress} {order : List String}
    (h : Account load target project s order [])
    (hneeds : ∀ q, Requires load project q → q ∈ order)
    (hacyclic : ∀ name, ¬ TransGen (DependsOn load) name name)
    (hs : Progress.leave target project s = .ok s') :
    Scheduled load target project s'.found order s.found.rules :=
  { h.counted hneeds hs with
    before := by
      intro i j p q hi hj hq
      obtain ⟨hlt, hp⟩ := List.getElem?_eq_some_iff.1 hi
      have hsplit : order = order.take i ++ p :: order.drop (i + 1) := by
        rw [← hp, List.getElem_cons_drop, List.take_append_drop]
      rcases h.order _ p _ q hsplit hq with hbefore | ⟨-, hback⟩
      · obtain ⟨k, hk, hkq⟩ := List.mem_take_iff_getElem.1 hbefore
        obtain ⟨hjlt, hjq⟩ := List.getElem?_eq_some_iff.1 hj
        have hjk : j = k := (h.once.getElem_inj_iff).1 (hjq.trans hkq.symm)
        omega
      · exact absurd (TransGen.head' hq hback) (hacyclic p) }

/-- A resolution that succeeds ends with the account of a visit. -/
theorem exists_account {d : Files.Disk} {project : Path} {m : Manifest} {found : Found}
    (hload : Manifest.load d project = .ok m) (hresolve : (resolve d project target).1 = .ok found) :
    ∃ s s' order, Account (installed d project) target m s order [] ∧
      (∀ q, Requires (installed d project) m q → q ∈ order) ∧
        Progress.leave target m s = .ok s' ∧ s'.found = found := by
  have hvisits := visitsProject_resolve d project target
  rw [hresolve] at hvisits
  unfold VisitsProject at hvisits
  rw [hload] at hvisits
  obtain ⟨last, ⟨inner, hinner, rfl⟩, hfound⟩ := hvisits
  cases inner with
  | error e => cases hfound
  | ok s =>
    cases hleave : Progress.leave target m s with
    | error e =>
      simp only [Except.bind, hleave] at hfound
      cases hfound
    | ok s' =>
      simp only [Except.bind, hleave] at hfound
      cases hfound
      obtain ⟨order, -, haccount, hneeds⟩ := hinner.account m Account.start
        (fun q hq hplatform hshadeable => ⟨⟨q, ⟨hq, hplatform, hshadeable⟩, .refl⟩, nofun⟩) rfl
      exact ⟨s, s', order, haccount,
        fun q hq => (hneeds q hq.listed hq.platform hq.shadeable).resolve_right List.not_mem_nil, hleave, rfl⟩

/-- **Dependencies come before their dependents.** Where no package leads back to itself, a project that is
resolved has one rule for each shadeable package it leads to, behind the rules of what that package
requires, and then its own. -/
theorem rules_in_order {d : Files.Disk} {project : Path} {found : Found}
    (hacyclic : ∀ name, ¬ TransGen (DependsOn (installed d project)) name name)
    (hresolve : (resolve d project target).1 = .ok found) :
    ∃ m order rules, Manifest.load d project = .ok m ∧
      Scheduled (installed d project) target m found order rules := by
  cases hload : Manifest.load d project with
  | error e =>
    unfold resolve at hresolve
    rw [hload] at hresolve
    cases hresolve
  | ok m =>
    obtain ⟨s, s', order, haccount, hneeds, hleave, rfl⟩ := exists_account hload hresolve
    exact ⟨m, order, s.found.rules, rfl, haccount.scheduled hneeds hacyclic hleave⟩

/-- The statement holds of a project that requires a package after one that requires it as well. All three have a
source root. -/
theorem exists_rules_in_order : ∃ (d : Files.Disk) (project : Path) (target : Target) (found : Found)
    (m : Manifest) (order : List String) (rules : List Rule),
    (∀ name, ¬ TransGen (DependsOn (installed d project)) name name) ∧
      (resolve d project target).1 = .ok found ∧ found.rules.length = 2 ∧
      found.sourceRoots = [⟨"/src"⟩, ⟨"/vendor/a/b/src"⟩, ⟨"/vendor/c/d/lib"⟩] ∧
      Scheduled (installed d project) target m found order rules := by
  let file (text : String) : Files.Entry := .file ⟨Files.Bytes.ofText text, 0, false⟩
  let d : Files.Disk := ⟨⟨[
    (["vendor"], .directory), (["vendor", "a"], .directory), (["vendor", "c"], .directory),
    (["vendor", "a", "b"], .directory), (["vendor", "c", "d"], .directory),
    (["composer.json"], file ("\x7b\"require\":\x7b\"a/b\":\"*\",\"c/d\":\"*\"\x7d," ++
      "\"autoload\":\x7b\"classmap\":[\"src\"]\x7d\x7d")),
    (["vendor", "a", "b", "composer.json"], file ("\x7b\"require\":\x7b\"c/d\":\"*\"\x7d," ++
      "\"autoload\":\x7b\"classmap\":[\"src\"]\x7d,\"extra\":\x7b\"shading\":[\"3.0\",\"A\\\\B\"]\x7d\x7d")),
    (["vendor", "c", "d", "composer.json"], file ("\x7b\"autoload\":\x7b\"classmap\":[\"lib\"]\x7d," ++
      "\"extra\":\x7b\"shading\":[\"3.1\",\"C\\\\D\"]\x7d\x7d"))]⟩, [], 0⟩
  let t : Target := ⟨['t'], by decide⟩
  let outer : Manifest := {
    path := ⟨"/vendor/a/b/composer.json"⟩, require := ["c/d"], layouts := [.classMap ["src"]]
    shading := some ⟨some "3.0", some "A\\B", none⟩ }
  let inner : Manifest := {
    path := ⟨"/vendor/c/d/composer.json"⟩, layouts := [.classMap ["lib"]]
    shading := some ⟨some "3.1", some "C\\D", none⟩ }
  let plugin : Manifest := {path := ⟨"/composer.json"⟩, require := ["a/b", "c/d"], layouts := [.classMap ["src"]]}
  let first : Rule := ⟨"C\\D".toList, by decide +kernel, t, none, some [⟨"/vendor/c/d/lib"⟩]⟩
  let second : Rule := ⟨"A\\B".toList, by decide +kernel, t, none, some [⟨"/vendor/a/b/src"⟩]⟩
  let roots : List Path := [⟨"/src"⟩, ⟨"/vendor/a/b/src"⟩, ⟨"/vendor/c/d/lib"⟩]
  have hplugin : Manifest.load d ⟨"/"⟩ = .ok plugin := by decide +kernel
  have houter : installed d ⟨"/"⟩ "a/b" = .ok outer := by decide +kernel
  have hinner : installed d ⟨"/"⟩ "c/d" = .ok inner := by decide +kernel
  have hnames : requiredNames d = ["a/b", "c/d", "c/d"] := by decide +kernel
  let entered : Progress := ((Progress.enter {} plugin).mark "a/b").enter outer
  have hvisit : Visits (installed d ⟨"/"⟩) t outer ["c/d"] entered (.ok ⟨["c/d", "a/b"], roots, [first]⟩) :=
    .entered ⟨by decide, by decide, by decide⟩ hinner rfl .done (by decide +kernel) .done
  have hpackage : VisitsPackage (installed d ⟨"/"⟩) t plugin {} (.ok ⟨["c/d", "a/b"], roots, [first, second]⟩) :=
    ⟨_, .entered ⟨by decide, by decide, List.not_mem_nil⟩ houter rfl hvisit (by decide +kernel)
      (.known (by decide) (by decide) (by decide) .done), rfl⟩
  have hresolve : (resolve d ⟨"/"⟩ t).1 = .ok ⟨roots, [first, second]⟩ :=
    (visitsProject_resolve d ⟨"/"⟩ t).unique (hpackage.visitsProject hplugin)
  have hedge : ∀ p q, p ∈ requiredNames d → DependsOn (installed d ⟨"/"⟩) p q → p = "a/b" ∧ q = "c/d" := by
    rintro p q hp ⟨package, hload, -, hq⟩
    simp only [hnames, List.mem_cons, List.not_mem_nil, or_false, or_self] at hp
    rcases hp with rfl | rfl
    · rw [houter, Except.ok.injEq] at hload
      subst hload
      exact ⟨rfl, List.mem_singleton.1 hq.listed⟩
    · rw [hinner, Except.ok.injEq] at hload
      subst hload
      exact absurd hq.listed List.not_mem_nil
  have hacyclic : ∀ name, ¬ TransGen (DependsOn (installed d ⟨"/"⟩)) name name := by
    intro name hname
    obtain ⟨p, -, package, hload, -, hq⟩ := TransGen.tail'_iff.1 hname
    obtain ⟨q, hedge₁, hback⟩ := TransGen.head'_iff.1 hname
    obtain ⟨rfl, rfl⟩ := hedge name q (mem_requiredNames hload _ hq.listed) hedge₁
    rcases hback.cases_head with heq | ⟨next, hedge₂, -⟩
    · exact absurd heq (by decide)
    · exact absurd (hedge "c/d" next (by rw [hnames]; decide) hedge₂).1 (by decide)
  obtain ⟨m, order, rules, -, hscheduled⟩ := rules_in_order hacyclic hresolve
  exact ⟨d, ⟨"/"⟩, t, _, m, order, rules, hacyclic, hresolve, rfl, rfl, hscheduled⟩

end PluginShading.Resolution
