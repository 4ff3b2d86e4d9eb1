import PluginShading.Proofs.Shading.Fragment

/-!
Which files a list of rules keeps.

`only_strays_dropped_iff` is the main statement. A rule looks at the namespace that the rules before it
have left, so a file is not judged by the namespace that its source declares: a rule drops a file of its
own library once an earlier rule has moved it (`displaced_iff`). That is the only way in which a file is
lost that no rule finds outside of its library.
-/
namespace PluginShading.Shading

open Source

variable {locate : Path → Path} {r : Rule}

/-! ### One rule -/

/-- The namespace is the library's, be it moved or left alone. -/
def Rule.claims (r : Rule) (space : List Char) : Bool := r.shades space || r.shares space

/-- The namespace behind a rule. -/
def Rule.move (r : Rule) (space : List Char) : List Char :=
  if r.shades space then r.relocate space else space

/-- What a rule leaves of a file; nothing where the file is dropped. -/
def passed (locate : Path → Path) (r : Rule) (f : File) : Option File :=
  if strays locate r f then none else (shadeFile r f).toOption

theorem strays_iff {f : File} :
    strays locate r f = true ↔ owns locate r f.path = true ∧ r.claims f.space = false := by
  simp only [strays, Rule.claims, Bool.and_eq_true, Bool.not_eq_true', Bool.or_eq_false_iff]
  exact and_comm

theorem shadeFile_path {f g : File} (h : shadeFile r f = .ok g) : g.path = f.path := by
  obtain ⟨ts, ds, -, -, rfl⟩ := shadeFile_eq_ok h
  rfl

theorem shadeFile_space {f g : File} (h : shadeFile r f = .ok g) : g.space = r.move f.space := by
  obtain ⟨ts, ds, -, -, rfl⟩ := shadeFile_eq_ok h
  rfl

/-- A pass that succeeds is `passed` on every file, in order, and reads every file that it keeps. -/
theorem pass_eq_ok {files kept : List File} (h : pass locate r files = .ok kept) :
    kept = files.filterMap (passed locate r) ∧
      ∀ f ∈ files, strays locate r f = false → ∃ g, shadeFile r f = .ok g := by
  induction files generalizing kept with
  | nil =>
    cases h
    simp
  | cons f rest ih =>
    simp only [pass] at h
    split at h
    · rename_i hstrays
      obtain ⟨rfl, hread⟩ := ih h
      refine ⟨by simp [passed, hstrays], fun e he hkept => ?_⟩
      rcases List.mem_cons.1 he with rfl | he
      · rw [hstrays] at hkept
        cases hkept
      · exact hread e he hkept
    · rename_i hstrays
      split at h
      · cases h
      · rename_i g hg
        cases hrest : pass locate r rest with
        | error e =>
          rw [hrest] at h
          cases h
        | ok more =>
          rw [hrest] at h
          obtain rfl : g :: more = kept := Except.ok.inj h
          obtain ⟨rfl, hread⟩ := ih hrest
          refine ⟨by simp [passed, hstrays, hg, Except.toOption], fun e he hkept => ?_⟩
          rcases List.mem_cons.1 he with rfl | he
          · exact ⟨g, hg⟩
          · exact hread e he hkept

/-! ### A list of rules -/

/-- The namespace behind a list of rules. -/
def spaceAfter (rules : List Rule) (space : List Char) : List Char :=
  rules.foldl (fun space r => r.move space) space

/-- What a list of rules leaves of a file. -/
def survivor (locate : Path → Path) : List Rule → File → Option File
  | [], f => some f
  | r :: rest, f => (passed locate r f).bind (survivor locate rest)

theorem applyRules_cons {rest : List Rule} {files result : List File}
    (h : applyRules locate (r :: rest) files = .ok result) :
    ∃ kept, pass locate r files = .ok kept ∧ applyRules locate rest kept = .ok result := by
  simp only [applyRules] at h
  split at h
  · cases h
  · exact ⟨_, ‹_›, h⟩

/-- The rules decide about every file on its own, and keep the order. -/
theorem applyRules_eq_filterMap {rules : List Rule} {files result : List File}
    (h : applyRules locate rules files = .ok result) :
    result = files.filterMap (survivor locate rules) := by
  induction rules generalizing files with
  | nil =>
    cases h
    simp [survivor]
  | cons r rest ih =>
    obtain ⟨kept, hpass, hrest⟩ := applyRules_cons h
    rw [ih hrest, (pass_eq_ok hpass).1, List.filterMap_filterMap]
    rfl

theorem survivor_cases {rest : List Rule} {files result : List File} {f : File}
    (h : applyRules locate (r :: rest) files = .ok result) (hf : f ∈ files) :
    (strays locate r f = true ∧ survivor locate (r :: rest) f = none) ∨
      ∃ g kept, shadeFile r f = .ok g ∧ strays locate r f = false ∧ g ∈ kept ∧
        applyRules locate rest kept = .ok result ∧
          survivor locate (r :: rest) f = survivor locate rest g := by
  obtain ⟨kept, hpass, hrest⟩ := applyRules_cons h
  obtain ⟨hkept, hread⟩ := pass_eq_ok hpass
  cases hstrays : strays locate r f with
  | true => exact .inl ⟨rfl, by simp [survivor, passed, hstrays]⟩
  | false =>
    obtain ⟨g, hg⟩ := hread f hf hstrays
    have hpassed : passed locate r f = some g := by simp [passed, hstrays, hg, Except.toOption]
    refine .inr ⟨g, kept, hg, rfl, ?_, hrest, by simp [survivor, hpassed]⟩
    rw [hkept]
    exact List.mem_filterMap.2 ⟨f, hf, hpassed⟩

/-- A file is dropped by a rule that owns it and does not claim the namespace that it then has. -/
theorem survivor_eq_none_iff {rules : List Rule} {files result : List File} {f : File}
    (h : applyRules locate rules files = .ok result) (hf : f ∈ files) :
    survivor locate rules f = none ↔ ∃ before r after, rules = before ++ r :: after ∧
      owns locate r f.path = true ∧ r.claims (spaceAfter before f.space) = false := by
  induction rules generalizing files f with
  | nil => simp [survivor]
  | cons r rest ih =>
    rcases survivor_cases h hf with ⟨hstrays, hnone⟩ | ⟨g, kept, hg, hstrays, hmem, hrest, hrun⟩
    · exact iff_of_true hnone ⟨[], r, rest, rfl, strays_iff.1 hstrays⟩
    · rw [hrun, ih hrest hmem, shadeFile_path hg, shadeFile_space hg]
      constructor
      · rintro ⟨before, s, after, rfl, howns, hout⟩
        exact ⟨r :: before, s, after, rfl, howns, hout⟩
      · rintro ⟨before, s, after, heq, howns, hout⟩
        cases before with
        | nil =>
          obtain ⟨rfl, rfl⟩ := List.cons_eq_cons.1 heq
          rw [strays_iff.2 ⟨howns, hout⟩] at hstrays
          cases hstrays
        | cons b before =>
          obtain ⟨rfl, rfl⟩ := List.cons_eq_cons.1 heq
          exact ⟨before, s, after, rfl, howns, hout⟩

theorem survivor_cons_eq_some {rest : List Rule} {f g : File}
    (h : survivor locate (r :: rest) f = some g) :
    ∃ k, shadeFile r f = .ok k ∧ survivor locate rest k = some g := by
  obtain ⟨k, hk, hrest⟩ := Option.bind_eq_some_iff.1 h
  unfold passed at hk
  split at hk
  · cases hk
  · cases hshade : shadeFile r f with
    | error e =>
      rw [hshade] at hk
      cases hk
    | ok kept =>
      rw [hshade] at hk
      obtain rfl : kept = k := Option.some.inj hk
      exact ⟨kept, rfl, hrest⟩

/-- A file that is kept is the file it was, in the namespace behind the rules. -/
theorem survivor_eq_some {rules : List Rule} {f g : File} (h : survivor locate rules f = some g) :
    g.path = f.path ∧ g.space = spaceAfter rules f.space := by
  induction rules generalizing f with
  | nil =>
    cases h
    exact ⟨rfl, rfl⟩
  | cons r rest ih =>
    obtain ⟨k, hk, hg⟩ := survivor_cons_eq_some h
    obtain ⟨hpath, hspace⟩ := ih hg
    rw [hpath, hspace, shadeFile_path hk, shadeFile_space hk]
    exact ⟨rfl, rfl⟩

/-! ### Files that are lost -/

/-- Some rule finds that the file sits in its library without belonging to it. -/
def Stray (locate : Path → Path) (rules : List Rule) (f : File) : Prop :=
  ∃ r ∈ rules, strays locate r f = true

/-- The file belongs to the library of a rule, which no longer sees that once earlier rules have moved
the file. -/
def Displaced (locate : Path → Path) (rules : List Rule) (f : File) : Prop :=
  ∃ before r after, rules = before ++ r :: after ∧ owns locate r f.path = true ∧
    r.claims f.space = true ∧ r.claims (spaceAfter before f.space) = false

/-- A name that has been moved is under no root that is apart from the target. -/
theorem under_relocate {root : List Char} {t : Target} (hroot : under root t.text = false)
    (htarget : under t.text root = false) (name : List Char) :
    under root (t.relocate name) = false := by
  cases h : under root (t.relocate name) with
  | false => rfl
  | true =>
    exfalso
    have hcases : (∃ tail, root = t.text ++ separator :: tail) ∨
        t.text = root ∨ ∃ tail, t.text = root ++ separator :: tail := by
      rcases under_iff.1 h with heq | ⟨rest, heq⟩
      · exact .inl ⟨name, heq.symm⟩
      · rcases List.append_eq_append_iff.1 heq with ⟨mid, hr, hsep⟩ | ⟨mid, ht, hsep⟩
        · cases mid with
          | nil => exact .inr (.inl (by rw [hr, List.append_nil]))
          | cons c tail =>
            obtain ⟨rfl, -⟩ := List.cons_eq_cons.1 hsep
            exact .inl ⟨tail, hr⟩
        · cases mid with
          | nil => exact .inr (.inl (by rw [ht, List.append_nil]))
          | cons c tail =>
            obtain ⟨rfl, -⟩ := List.cons_eq_cons.1 hsep
            exact .inr (.inr ⟨tail, ht⟩)
    rcases hcases with hr | ht
    · rw [under_iff.2 (.inr hr)] at htarget
      cases htarget
    · rw [under_iff.2 ht] at hroot
      cases hroot

/-- Without an earlier rule for it a namespace stays what it is. -/
theorem spaceAfter_of_not_shades {rules : List Rule} {space : List Char}
    (h : ∀ r ∈ rules, r.shades space = false) : spaceAfter rules space = space := by
  induction rules with
  | nil => rfl
  | cons r rest ih =>
    have hmove : r.move space = space := by simp [Rule.move, h r List.mem_cons_self]
    show spaceAfter rest (r.move space) = space
    rw [hmove]
    exact ih fun s hs => h s (List.mem_cons_of_mem r hs)

/-- The first rule for a namespace moves it behind the target, where no rule finds it again. -/
theorem spaceAfter_of_shades {rules : List Rule} {space : List Char} {t : Target}
    (htarget : ∀ r ∈ rules, r.target = t) (hfree : ∀ r ∈ rules, ∀ name, r.shades (t.relocate name) = false)
    (h : ∃ r ∈ rules, r.shades space = true) : spaceAfter rules space = t.relocate space := by
  induction rules with
  | nil => simp at h
  | cons r rest ih =>
    show spaceAfter rest (r.move space) = t.relocate space
    cases hs : r.shades space with
    | true =>
      have hmove : r.move space = t.relocate space := by
        simp [Rule.move, hs, Rule.relocate, htarget r List.mem_cons_self]
      rw [hmove]
      exact spaceAfter_of_not_shades fun s hmem => hfree s (List.mem_cons_of_mem r hmem) space
    | false =>
      have hmove : r.move space = space := by simp [Rule.move, hs]
      rw [hmove]
      refine ih (fun s hmem => htarget s (List.mem_cons_of_mem r hmem))
        (fun s hmem => hfree s (List.mem_cons_of_mem r hmem)) ?_
      obtain ⟨s, hmem, hshades⟩ := h
      rcases List.mem_cons.1 hmem with rfl | hmem
      · rw [hs] at hshades
        cases hshades
      · exact ⟨s, hmem, hshades⟩

/-- Where the target is apart from the namespaces of the libraries, a file is displaced by every earlier
rule for its namespace. -/
theorem displaced_iff {rules : List Rule} {f : File} {t : Target} (htarget : ∀ r ∈ rules, r.target = t)
    (hfree : ∀ r ∈ rules, ∀ name, r.claims (t.relocate name) = false) :
    Displaced locate rules f ↔ ∃ before r after, rules = before ++ r :: after ∧
      owns locate r f.path = true ∧ r.claims f.space = true ∧ ∃ s ∈ before, s.shades f.space = true := by
  have hshades : ∀ r ∈ rules, ∀ name, r.shades (t.relocate name) = false := by
    intro r hr name
    exact (Bool.or_eq_false_iff.1 (hfree r hr name)).1
  constructor
  · rintro ⟨before, r, after, heq, howns, hclaims, hout⟩
    refine ⟨before, r, after, heq, howns, hclaims, ?_⟩
    by_cases hmoved : ∃ s ∈ before, s.shades f.space = true
    · exact hmoved
    · have hstay : spaceAfter before f.space = f.space := by
        refine spaceAfter_of_not_shades fun s hs => ?_
        cases h : s.shades f.space with
        | false => rfl
        | true => exact absurd ⟨s, hs, h⟩ hmoved
      rw [hstay, hclaims] at hout
      cases hout
  · rintro ⟨before, r, after, heq, howns, hclaims, hmoved⟩
    have hbefore : ∀ s ∈ before, s ∈ rules := by
      intro s hs
      rw [heq]
      exact List.mem_append_left _ hs
    have hspace := spaceAfter_of_shades (fun s hs => htarget s (hbefore s hs))
      (fun s hs => hshades s (hbefore s hs)) hmoved
    refine ⟨before, r, after, heq, howns, hclaims, ?_⟩
    rw [hspace]
    exact hfree r (heq ▸ List.mem_append_right _ List.mem_cons_self) f.space

theorem Displaced.dropped {rules : List Rule} {files result : List File} {f : File}
    (h : applyRules locate rules files = .ok result) (hf : f ∈ files)
    (hd : Displaced locate rules f) : survivor locate rules f = none := by
  obtain ⟨before, r, after, heq, howns, -, hout⟩ := hd
  exact (survivor_eq_none_iff h hf).2 ⟨before, r, after, heq, howns, hout⟩

theorem stray_or_displaced {rules : List Rule} {files result : List File} {f : File}
    (h : applyRules locate rules files = .ok result) (hf : f ∈ files)
    (hnone : survivor locate rules f = none) : Stray locate rules f ∨ Displaced locate rules f := by
  obtain ⟨before, r, after, heq, howns, hout⟩ := (survivor_eq_none_iff h hf).1 hnone
  cases hclaims : r.claims f.space with
  | true => exact .inr ⟨before, r, after, heq, howns, hclaims, hout⟩
  | false =>
    refine .inl ⟨r, ?_, strays_iff.2 ⟨howns, hclaims⟩⟩
    rw [heq]
    exact List.mem_append_right _ List.mem_cons_self

/-- **No file is lost but for the strays, exactly where every displaced file is a stray as well.** What is
kept is kept in order, in the namespace behind the rules. -/
theorem only_strays_dropped_iff {rules : List Rule} {files result : List File}
    (h : applyRules locate rules files = .ok result) :
    result = files.filterMap (survivor locate rules) ∧
      (∀ f ∈ files, ∀ g, survivor locate rules f = some g →
        g.path = f.path ∧ g.space = spaceAfter rules f.space) ∧
      ((∀ f ∈ files, survivor locate rules f = none → Stray locate rules f) ↔
        ∀ f ∈ files, Displaced locate rules f → Stray locate rules f) := by
  refine ⟨applyRules_eq_filterMap h, fun f _ g hg => survivor_eq_some hg, ?_, ?_⟩
  · intro hstray f hf hd
    exact hstray f hf (hd.dropped h hf)
  · intro hstray f hf hnone
    rcases stray_or_displaced h hf hnone with hs | hd
    · exact hs
    · exact hstray f hf hd

/-- The statement holds of a library with a stray beside one of its own files. -/
theorem exists_only_strays_dropped : ∃ r stray own plugin own' plugin',
    applyRules id [r] [stray, own, plugin] = .ok [own', plugin'] ∧
      ∀ f ∈ [stray, own, plugin], survivor id [r] f = none ↔ Stray id [r] f := by
  let r : Rule := ⟨"A\\B".toList, by decide +kernel, ⟨['t'], by decide⟩, none, some [⟨"lib"⟩]⟩
  let stray : File := ⟨⟨"lib/S.php"⟩, "<?php namespace C;".toList, ['C'], []⟩
  let own : File := ⟨⟨"lib/O.php"⟩, "<?php namespace A\\B;".toList, "A\\B".toList, []⟩
  let plugin : File := ⟨⟨"P.php"⟩, "<?php namespace C;".toList, ['C'], []⟩
  let own' : File := ⟨⟨"lib/O.php"⟩, "<?php namespace t\\A\\B;".toList, "t\\A\\B".toList, []⟩
  have happly : applyRules id [r] [stray, own, plugin] = .ok [own', plugin] := by decide +kernel
  refine ⟨r, stray, own, plugin, own', plugin, happly, fun f hf => ⟨?_, ?_⟩⟩
  · refine (only_strays_dropped_iff happly).2.2.2 (fun f _ hd => ?_) f hf
    obtain ⟨before, s, after, heq, -, hclaims, hout⟩ := hd
    cases before with
    | nil => rw [show spaceAfter [] f.space = f.space from rfl, hclaims] at hout; cases hout
    | cons b before => simp at heq
  · rintro ⟨s, hs, hstrays⟩
    obtain rfl := List.mem_singleton.1 hs
    exact (survivor_eq_none_iff happly hf).2 ⟨[], r, [], rfl, strays_iff.1 hstrays⟩

/-- A root that is listed once by itself and once with its sources loses the library's own file: the first
rule moves the file, and the second finds it outside of the library. -/
theorem own_file_dropped : ∃ (t : Target) (rules : List Rule) (f : File),
    (∀ r ∈ rules, r.target = t) ∧ applyRules id rules [f] = .ok [] ∧
      ¬ ∃ r ∈ rules, owns id r f.path = true ∧ r.shades f.space = false ∧ r.shares f.space = false := by
  let bare : Rule := ⟨"Foo\\Bar".toList, by decide +kernel, ⟨"libs_xyz".toList, by decide +kernel⟩, none, none⟩
  let full : Rule := {bare with sources := some [⟨"lib"⟩]}
  let f : File := ⟨⟨"lib/Own.php"⟩, "<?php namespace Foo\\Bar;".toList, "Foo\\Bar".toList, []⟩
  refine ⟨bare.target, [bare, full], f, ?_, by decide +kernel, ?_⟩
  · intro r hr
    simp only [List.mem_cons, List.not_mem_nil, or_false] at hr
    rcases hr with rfl | rfl <;> rfl
  · rintro ⟨r, hr, -, hshades, -⟩
    have hroot : r.root = "Foo\\Bar".toList := by
      simp only [List.mem_cons, List.not_mem_nil, or_false] at hr
      rcases hr with rfl | rfl <;> rfl
    rw [Rule.shades, hroot] at hshades
    exact absurd hshades (by decide +kernel)

end PluginShading.Shading
