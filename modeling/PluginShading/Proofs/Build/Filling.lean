import PluginShading.Build.Run
import PluginShading.Proofs.Files.Copying
import PluginShading.Proofs.Shading.Confinement

/-!
Filling the staging directory.

Reading sources changes nothing on the disk, and what is read has a namespace that spells a directory below
the source root (`loadRoots_ensures`). Inputs go by their names, declarations to the directories of their
namespaces. As long as these never lead above where they start, all that a build writes before its output is
complete is written into the site (`fill_keeps`).
-/
namespace PluginShading

open Act (Ensures Keeps)
open Files (Site Inside LeadsDown StaysIn)
open Shading (Rule Staying StayingFile)
open Source (File Declaration)

variable {I : Files.Disk → Prop}

/-! ### Reading -/

theorem collectSources_keeps (root : Path) : Keeps I (Files.collectSources root) := by
  refine Ensures.bind Ensures.disk fun d _ => ?_
  split
  · exact Ensures.pure trivial
  split
  · exact Ensures.fail
  split
  · exact Ensures.fail
  · exact Ensures.pure trivial

theorem loadSource_ensures (path : Path) : Ensures I (loadSource path) StayingFile := by
  refine Ensures.bind Ensures.report fun _ _ => ?_
  refine Ensures.bind (Q := fun _ => True) (Ensures.ask fun _ _ _ _ => trivial) fun source _ => ?_
  split
  · exact Ensures.fail
  · rename_i f hf
    exact Ensures.bind Ensures.reports fun _ _ => Ensures.pure (Shading.staying_split hf)

theorem loadRoot_ensures (root : Path) :
    Ensures I (loadRoot root) fun files => ∀ f ∈ files, StayingFile f :=
  Ensures.bind (collectSources_keeps root) fun _ _ => Ensures.mapM fun path _ => loadSource_ensures path

theorem loadRoots_ensures (roots : List Path) :
    Ensures I (loadRoots roots) fun files => ∀ f ∈ files, StayingFile f := by
  refine Ensures.bind (Ensures.mapM fun root _ => loadRoot_ensures root) fun found hfound => ?_
  refine Ensures.pure fun f hf => ?_
  obtain ⟨files, hfiles, hmem⟩ := List.mem_flatten.1 hf
  exact hfound files hfiles f hmem

theorem shadeSources_ensures {rules : List Rule} {files : List File}
    (hrules : ∀ r ∈ rules, Staying r.target.text) (hfiles : ∀ f ∈ files, StayingFile f) :
    Ensures I (shadeSources rules files) fun kept => ∀ f ∈ kept, StayingFile f := by
  refine Ensures.bind Ensures.disk fun d _ => ?_
  refine Ensures.bind Ensures.reports fun _ _ => ?_
  exact Ensures.ofExcept fun kept h => Shading.staying_applyRules hrules hfiles h

/-! ### Writing -/

variable {s : Site} {sourceRoot : Path}

theorem leadsDown_declaration {name : List Char} (h : '/' ∉ name) :
    LeadsDown ⟨String.ofList name ++ ".php"⟩ := by
  rw [show String.ofList name ++ ".php" = String.ofList (name ++ ['.', 'p', 'h', 'p']) by
    rw [String.ofList_append]]
  refine Files.leadsDown_of_free ?_ ?_
  · rw [List.mem_append, not_or]
    exact ⟨h, by decide⟩
  · intro heq
    have hlast := congrArg List.getLast? heq
    rw [List.getLast?_append] at hlast
    cases hlast

theorem writeDeclaration_keeps (hroot : s.Contains sourceRoot) {f : File} (hf : StayingFile f)
    {d : Declaration} (hd : d ∈ f.declarations) (written : List Path) :
    Keeps (Inside s) (writeDeclaration sourceRoot f written d) := by
  have hpath : s.Contains (declarationPath sourceRoot f d) :=
    (hroot.join (Shading.staysIn_directory hf.space)).join (leadsDown_declaration (hf.names d hd)).staysIn
  have hrender : Keeps (Inside s) (renderDeclaration f d) := by
    unfold renderDeclaration
    split
    · exact Ensures.bind Ensures.reports fun _ _ => Ensures.pure trivial
    · exact Ensures.pure trivial
  have hwrite : ∀ paths : List Path, Keeps (Inside s) (do
      let text ← renderDeclaration f d
      Files.storeText (declarationPath sourceRoot f d) text
      pure paths) := by
    intro paths
    refine Ensures.bind hrender fun text _ => ?_
    exact Ensures.bind (Inside.storeText_keeps hpath) fun _ _ => Ensures.pure trivial
  unfold writeDeclaration
  dsimp only
  generalize written.any (declarationPath sourceRoot f d).same = again
  split
  · exact Ensures.bind Ensures.reports fun _ _ => hwrite written
  · exact hwrite (declarationPath sourceRoot f d :: written)

theorem writeFile_keeps (hroot : s.Contains sourceRoot) {f : File} (hf : StayingFile f)
    (written : List Path) : Keeps (Inside s) (writeFile sourceRoot written f) := by
  have hdirectory := (hroot.join (Shading.staysIn_directory hf.space)).borders
  refine Ensures.bind ((Inside.admitsDirectories s).ensureDirectory hdirectory) fun _ _ => ?_
  exact Ensures.foldlM trivial fun d hd written _ => writeDeclaration_keeps hroot hf hd written

theorem assemble_keeps (hroot : s.Contains sourceRoot) {files : List File}
    (hfiles : ∀ f ∈ files, StayingFile f) : Keeps (Inside s) (assemble sourceRoot files) := by
  refine Ensures.bind (Q := fun _ => True) ?_ fun _ _ => Ensures.pure trivial
  exact Ensures.foldlM trivial fun f hf written _ => writeFile_keeps hroot (hfiles f hf) written

namespace Build

/-- The names that a build is given never lead above where they start. -/
structure StayingNames (o : Options) : Prop where
  inputs : ∀ input ∈ o.inputs, StaysIn ⟨input.name⟩
  sourceRoot : StaysIn ⟨o.sourceRootName⟩

/-- **Whatever a build writes before its output is complete, it writes into the site.** -/
theorem fill_keeps {o : Options} {roots : List Path} {rules : List Rule} (ho : StayingNames o)
    (hrules : ∀ r ∈ rules, Staying r.target.text) : Keeps (Inside s) (fill o roots rules s.path) := by
  have hroot : s.Contains (s.path.join ⟨o.sourceRootName⟩) := s.contains_path.join ho.sourceRoot
  refine Ensures.bind (Ensures.forM fun input hi => ?_) fun _ _ => ?_
  · exact Ensures.within (Inside.copy_keeps (s.contains_path.join (ho.inputs input hi)))
  refine Ensures.bind ((Inside.admitsDirectories s).ensureDirectory hroot.borders) fun _ _ => ?_
  refine Ensures.bind (loadRoots_ensures roots) fun files hfiles => ?_
  refine Ensures.bind (shadeSources_ensures hrules hfiles) fun kept hkept => ?_
  exact Ensures.bind (assemble_keeps hroot hkept) fun _ _ => Ensures.pure trivial

end Build

end PluginShading
