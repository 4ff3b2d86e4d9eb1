import PluginShading.Proofs.Files.Site
import PluginShading.Proofs.Shading.Survival
import PluginShading.Proofs.Source.Words
import PluginShading.Resolution.Walk

/-!
Where namespaces lead as directories.

The declarations of a file go to the directory that its namespace spells. A namespace is `Staying` when
that directory lies below the source root or is the source root, as it does where no segment leads up
(`Confined.staying`). What a source declares is staying (`staying_split`), and so it stays under rules with a
staying target (`staying_applyRules`), which the rules of a project have as soon as the plugin's own namespace
is staying (`staying_generate`, `resolve_target`).
-/
namespace PluginShading

namespace Text

/-- Marks at the ends of a text only add empty pieces. -/
theorem pieces_dropWhile (mark : Char) (s : List Char) :
    ∃ count, pieces mark s = List.replicate count [] ++ pieces mark (s.dropWhile (· == mark)) := by
  induction s with
  | nil => exact ⟨0, rfl⟩
  | cons c rest ih =>
    by_cases hc : c = mark
    · obtain ⟨count, hcount⟩ := ih
      refine ⟨count + 1, ?_⟩
      rw [List.dropWhile_cons_of_pos (by simpa using hc), List.replicate_succ, List.cons_append, ← hcount]
      simp only [pieces, if_pos hc]
    · exact ⟨0, by rw [List.dropWhile_cons_of_neg (by simpa using hc)]; rfl⟩

theorem pieces_append_marks (mark : Char) (s : List Char) (count : Nat) :
    pieces mark (s ++ List.replicate count mark) = pieces mark s ++ List.replicate count [] := by
  induction count with
  | zero => simp
  | succ count ih =>
    rw [List.replicate_succ', ← List.append_assoc, pieces_append, ih, List.append_assoc, List.replicate_succ']
    rfl

end Text

namespace Shading

open Files (StaysIn namesIn stays stays_append stays_of_not_mem)
open Source (File Declaration)

/-- No segment holds a separator of paths, and none means the directory above. -/
def Confined (space : List Char) : Prop := '/' ∉ space ∧ ['.', '.'] ∉ Text.pieces separator space

/-- No segment is a path from the root, and together they never lead above where they start. -/
structure Staying (space : List Char) : Prop where
  relative : ∀ segment ∈ Text.pieces separator space, segment.head? ≠ some '/'
  names : stays 0 ((Text.pieces separator space).flatMap namesIn) = true

theorem Confined.staying {space : List Char} (h : Confined space) : Staying space where
  relative segment hs hhead := h.1 (Text.mem_of_mem_pieces hs _ (List.mem_of_mem_head? hhead))
  names := by
    refine stays_of_not_mem fun hmem => ?_
    obtain ⟨segment, hs, hup⟩ := List.mem_flatMap.1 hmem
    have hfree : '/' ∉ segment := fun hslash => h.1 (Text.mem_of_mem_pieces hs _ hslash)
    by_cases hne : segment = []
    · rw [hne] at hup
      cases hup
    · rw [Files.namesIn_singleton hne hfree, List.mem_singleton] at hup
      rw [← String.toList_ofList (l := segment), ← hup] at hs
      exact h.2 hs

theorem confined_of_parts {space : List Char} (h : ∀ c ∈ space, Source.isNamePart c = true) :
    Confined space := by
  constructor
  · intro hmem
    exact absurd (h _ hmem) (by decide)
  · intro hmem
    exact absurd (h _ (Text.mem_of_mem_pieces hmem '.' List.mem_cons_self)) (by decide)

theorem Staying.append {a b : List Char} (ha : Staying a) (hb : Staying b) :
    Staying (a ++ separator :: b) where
  relative := by
    rw [Text.pieces_append]
    exact List.forall_mem_append.2 ⟨ha.relative, hb.relative⟩
  names := by
    rw [Text.pieces_append, List.flatMap_append]
    exact stays_append ha.names hb.names

theorem Staying.move {r : Rule} (hr : Staying r.target.text) {space : List Char}
    (h : Staying space) : Staying (r.move space) := by
  unfold Rule.move
  split
  · exact hr.append h
  · exact h

/-! ### Targets -/

/-- Empty pieces do not count. -/
theorem flatMap_namesIn_replicate (count : Nat) : (List.replicate count []).flatMap namesIn = [] := by
  rw [List.flatMap_eq_nil_iff]
  intro piece hpiece
  rw [List.eq_of_mem_replicate hpiece]
  rfl

theorem pieces_trimSeparators (space : List Char) : ∃ before after, Text.pieces separator space =
    List.replicate before [] ++ (Text.pieces separator (trimSeparators space) ++ List.replicate after []) := by
  obtain ⟨before, hbefore⟩ := Text.pieces_dropWhile separator space
  obtain ⟨after, hafter⟩ := Text.exists_trimmed separator (space.dropWhile (· == separator))
  rw [hafter, Text.pieces_append_marks] at hbefore
  exact ⟨before, after, hbefore⟩

theorem Staying.trimSeparators {space : List Char} (h : Staying space) :
    Staying (trimSeparators space) := by
  obtain ⟨before, after, hpieces⟩ := pieces_trimSeparators space
  obtain ⟨hrelative, hnames⟩ := h
  rw [hpieces] at hrelative hnames
  constructor
  · exact fun segment hs => hrelative segment (List.mem_append_right _ (List.mem_append_left _ hs))
  · rwa [List.flatMap_append, List.flatMap_append, flatMap_namesIn_replicate, flatMap_namesIn_replicate,
      List.nil_append, List.append_nil] at hnames

theorem confined_leaf (seed : UInt64) : Confined (leaf seed) := by
  have hlead : ∀ c ∈ leafLead, Source.isNamePart c = true := List.all_eq_true.1 (by decide)
  have hdigit : ∀ k < 16, Source.isNamePart (Text.hexDigit k) = true := by decide
  refine confined_of_parts fun c hc => ?_
  rcases List.mem_append.1 hc with hc | hc
  · exact hlead c hc
  · obtain ⟨i, -, rfl⟩ := List.mem_map.1 hc
    exact hdigit _ (Nat.mod_lt _ (by decide))

/-- A generated target is staying where the namespace that it goes under is. -/
theorem staying_generate {parent : Option (List Char)} (h : ∀ space, parent = some space → Staying space)
    (seed : UInt64) : Staying (Target.generate parent seed).text := by
  show Staying (generatedText parent seed)
  simp only [generatedText]
  split
  · exact (confined_leaf seed).staying
  · cases parent with
    | none => exact absurd rfl ‹_›
    | some space => exact (h space rfl).trimSeparators.append (confined_leaf seed).staying

/-! ### Directories -/

/-- One path behind the other, they lead where their names lead. -/
theorem relative_foldl {segments : List (List Char)} (h : ∀ segment ∈ segments, segment.head? ≠ some '/')
    {p : Path} (hp : p.isAbsolute = false) :
    (segments.foldl (fun p segment => p.join ⟨String.ofList segment⟩) p).isAbsolute = false ∧
      namesIn (segments.foldl (fun p segment => p.join ⟨String.ofList segment⟩) p).chars =
        namesIn p.chars ++ segments.flatMap namesIn := by
  induction segments generalizing p with
  | nil => exact ⟨hp, (List.append_nil _).symm⟩
  | cons segment rest ih =>
    obtain ⟨hsegment, hrest⟩ := List.forall_mem_cons.1 h
    have hchars : Path.chars ⟨String.ofList segment⟩ = segment := String.toList_ofList
    have hq : Path.isAbsolute ⟨String.ofList segment⟩ = false := by
      rw [Path.isAbsolute, hchars, beq_eq_false_iff_ne]
      exact hsegment
    obtain ⟨hrelative, hnames⟩ := Files.relative_join hp hq
    obtain ⟨hfold, hall⟩ := ih hrest hrelative
    refine ⟨hfold, ?_⟩
    rw [List.foldl_cons, hall, hnames, hchars, List.flatMap_cons, List.append_assoc]

theorem flatMap_namesIn_filter (segments : List (List Char)) :
    (segments.filter (· ≠ [])).flatMap namesIn = segments.flatMap namesIn := by
  induction segments with
  | nil => rfl
  | cons segment rest ih =>
    by_cases hne : segment = []
    · rw [List.filter_cons_of_neg (by simpa using hne), ih, List.flatMap_cons, hne]
      rfl
    · rw [List.filter_cons_of_pos (by simpa using hne), List.flatMap_cons, List.flatMap_cons, ih]

theorem staysIn_directory {f : File} (h : Staying f.space) : StaysIn f.directory := by
  have hsegments : ∀ segment ∈ (Text.pieces '\\' f.space).filter (· ≠ []), segment.head? ≠ some '/' :=
    fun segment hs => h.relative segment (List.mem_filter.1 hs).1
  have hstart : Path.isAbsolute ⟨""⟩ = false := rfl
  obtain ⟨hrelative, hnames⟩ := relative_foldl hsegments hstart
  refine ⟨hrelative, ?_⟩
  rw [File.directory, hnames, flatMap_namesIn_filter]
  exact h.names

/-! ### Files -/

/-- The namespace is staying, and a declaration's own file lies in its directory. -/
structure StayingFile (f : File) : Prop where
  space : Staying f.space
  names : ∀ d ∈ f.declarations, '/' ∉ d.name

theorem staying_split {path : Path} {source : List Char} {f : File}
    (h : Source.split path source = .ok f) : StayingFile f where
  space := (confined_of_parts (Source.split_space h)).staying
  names d hd hmem := absurd (Source.split_name h d hd _ hmem) (by decide)

theorem shadeDeclarations_name {r : Rule} {ds ds' : List Declaration}
    (h : shadeDeclarations r ds = .ok ds') : ∀ d' ∈ ds', ∃ d ∈ ds, d'.name = d.name := by
  intro d' hd'
  have hname : d'.name ∈ ds'.map Declaration.name := List.mem_map_of_mem hd'
  rw [(shadeDeclarations_places h).1] at hname
  obtain ⟨d, hd, heq⟩ := List.mem_map.1 hname
  exact ⟨d, hd, heq.symm⟩

theorem StayingFile.shadeFile {r : Rule} (hr : Staying r.target.text) {f g : File}
    (hf : StayingFile f) (h : shadeFile r f = .ok g) : StayingFile g where
  space := by
    rw [shadeFile_space h]
    exact Staying.move hr hf.space
  names := by
    obtain ⟨ts, ds, -, hds, rfl⟩ := shadeFile_eq_ok h
    intro d' hd'
    obtain ⟨d, hd, hname⟩ := shadeDeclarations_name hds d' hd'
    rw [hname]
    exact hf.names d hd

/-- What shading keeps of single files, a list of rules keeps of all. -/
theorem forall_applyRules {P : File → Prop} {locate : Path → Path} {rules : List Rule} {files kept : List File}
    (hstep : ∀ r ∈ rules, ∀ f g, P f → Shading.shadeFile r f = .ok g → P g) (hfiles : ∀ f ∈ files, P f)
    (h : applyRules locate rules files = .ok kept) : ∀ f ∈ kept, P f := by
  induction rules generalizing files with
  | nil =>
    cases h
    exact hfiles
  | cons r rest ih =>
    obtain ⟨passed, hpass, hrest⟩ := applyRules_cons h
    obtain ⟨rfl, hread⟩ := pass_eq_ok hpass
    refine ih (fun s hs => hstep s (List.mem_cons_of_mem r hs)) (fun g hg => ?_) hrest
    obtain ⟨f, hf, hpassed⟩ := List.mem_filterMap.1 hg
    unfold Shading.passed at hpassed
    split at hpassed
    · cases hpassed
    · rename_i hstrays
      obtain ⟨shaded, hshaded⟩ := hread f hf (by simpa using hstrays)
      rw [hshaded] at hpassed
      obtain rfl : shaded = g := Option.some.inj hpassed
      exact hstep r List.mem_cons_self f shaded (hfiles f hf) hshaded

theorem staying_applyRules {locate : Path → Path} {rules : List Rule} {files kept : List File}
    (hrules : ∀ r ∈ rules, Staying r.target.text) (hfiles : ∀ f ∈ files, StayingFile f)
    (h : applyRules locate rules files = .ok kept) : ∀ f ∈ kept, StayingFile f :=
  forall_applyRules (fun r hr _ _ hf => hf.shadeFile (hrules r hr)) hfiles h

end Shading

namespace Resolution

open Shading (Rule Target)

variable {target : Target}

theorem ruleOf_target {m : Manifest} {block : ShadingBlock} {rule : Rule}
    (h : ruleOf target m block = .ok rule) : rule.target = target := by
  unfold ruleOf at h
  repeat' split at h
  all_goals simp only [Except.ok.injEq, reduceCtorEq] at h
  rename_i made hmade
  rw [← h]
  unfold Rule.ofRoot at hmade
  split at hmade
  · cases hmade
    rfl
  · cases hmade

namespace Walk

variable {load : String → Except ManifestError Manifest} {w after : Walk}

theorem leave_target {f : Frame} (hw : ∀ r ∈ w.found.rules, r.target = target)
    (h : leave target w f = .ok after) : ∀ r ∈ after.found.rules, r.target = target := by
  unfold leave at h
  split at h
  · cases h
    exact hw
  · split at h
    · cases h
    · rename_i rule hrule
      cases h
      intro r hr
      rcases List.mem_append.1 hr with hr | hr
      · exact hw r hr
      · obtain rfl := List.mem_singleton.1 hr
        exact ruleOf_target hrule

theorem Met.rules {name : String} (h : Met load w name after) : after.found.rules = w.found.rules := by
  cases h <;> rfl

theorem next_target (hw : ∀ r ∈ w.found.rules, r.target = target)
    (h : next load target w = .ok (some after)) : ∀ r ∈ after.found.rules, r.target = target := by
  cases Step.of_next h with
  | left _ _ hleave =>
    refine leave_target ?_ hleave
    exact hw
  | met _ _ hmet => exact hmet.rules ▸ hw

theorem run_target {found : Found} (hw : ∀ r ∈ w.found.rules, r.target = target)
    (h : (run load target w).1 = .ok found) : ∀ r ∈ found.rules, r.target = target := by
  fun_induction run load target w with
  | case1 => cases h
  | case2 =>
    cases h
    exact hw
  | case3 w after hnext ih => exact ih (next_target hw hnext) h

end Walk

/-- The rules of a project all have the target that they are made for. -/
theorem resolve_target {d : Files.Disk} {project : Path} {found : Found}
    (h : (resolve d project target).1 = .ok found) : ∀ r ∈ found.rules, r.target = target := by
  unfold resolve at h
  split at h
  · cases h
  · exact Walk.run_target (fun _ hr => absurd hr List.not_mem_nil) h

end Resolution

end PluginShading
