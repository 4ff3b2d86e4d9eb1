import Mathlib.Data.Finset.Card
import PluginShading.Assembly
import PluginShading.Proofs.Files.Ground
import PluginShading.Proofs.Shading.Confinement

/-!
What a tree of single declarations holds.

A declaration goes to a file with its name, in a directory for each segment of its namespace. Namespaces
are words between separators, and names are words, before and after shading (`named_applyRules`), so that
the places of different declarations are different and never in each other's way. In an empty source root
there is then one file for each pair of a namespace and a name, which holds the last declaration of the
pair, as long as the system can hold the names (`assemble_writes_last`).
-/
namespace PluginShading.Assembly

open Act (Yields)
open Files (Ground Laid Place Bytes Below isName)
open Shading (Rule)
open Source (File Declaration isIdentifier isNameChar)

/-! ### Names -/

/-- The namespace is words between separators, and a declaration's name is of such characters as words
are. -/
structure Named (f : File) : Prop where
  space : ∀ piece ∈ Text.pieces '\\' f.space, isIdentifier piece = true
  names : ∀ d ∈ f.declarations, ∀ c ∈ d.name, isNameChar c = true

theorem named_split {path : Path} {source : List Char} {f : File} (h : Source.split path source = .ok f) :
    Named f :=
  ⟨Source.split_segments h, Source.split_name h⟩

theorem Named.shadeFile {r : Rule} (hr : (Text.pieces '\\' r.target.text).all isIdentifier = true) {f g : File}
    (hf : Named f) (h : Shading.shadeFile r f = .ok g) : Named g where
  space := by
    rw [Shading.shadeFile_space h, Rule.move]
    split
    · show ∀ piece ∈ Text.pieces '\\' (r.target.text ++ '\\' :: f.space), _
      rw [Text.pieces_append, List.forall_mem_append]
      exact ⟨List.all_eq_true.1 hr, hf.space⟩
    · exact hf.space
  names := by
    obtain ⟨ts, ds, -, hds, rfl⟩ := Shading.shadeFile_eq_ok h
    intro d' hd'
    obtain ⟨d, hd, hname⟩ := Shading.shadeDeclarations_name hds d' hd'
    rw [hname]
    exact hf.names d hd

/-- Shading with a target of words keeps files named. -/
theorem named_applyRules {locate : Path → Path} {rules : List Rule} {files kept : List File}
    (hrules : ∀ r ∈ rules, (Text.pieces '\\' r.target.text).all isIdentifier = true)
    (hfiles : ∀ f ∈ files, Named f) (h : Shading.applyRules locate rules files = .ok kept) :
    ∀ f ∈ kept, Named f :=
  Shading.forall_applyRules (fun r hr _ _ hf => hf.shadeFile (hrules r hr)) hfiles h

/-- What is made of such characters as words are can be a name, has no dot and no NUL. -/
theorem name_of_identifier {word : List Char} (h : isIdentifier word = true) :
    isName (String.ofList word) = true ∧ '\x00' ∉ (String.ofList word).toList ∧
      '.' ∉ (String.ofList word).toList := by
  have hfree : ∀ c, isNameChar c = false → c ∉ word :=
    fun c hc hmem => by simp [Source.isNameChar_of_isIdentifier h c hmem] at hc
  rw [Files.isName_iff, String.toList_ofList]
  refine ⟨⟨?_, hfree _ (by decide), ?_, ?_⟩, hfree _ (by decide), hfree _ (by decide)⟩
  · rintro rfl
    cases h
  · rintro rfl
    cases h
  · rintro rfl
    cases h

theorem name_of_declaration {name : List Char} (h : ∀ c ∈ name, isNameChar c = true) :
    isName (String.ofList name ++ ".php") = true ∧ '\x00' ∉ (String.ofList name ++ ".php").toList ∧
      '.' ∈ (String.ofList name ++ ".php").toList := by
  have hchars : (String.ofList name ++ ".php").toList = name ++ ['.', 'p', 'h', 'p'] := by
    rw [String.toList_append, String.toList_ofList]
    rfl
  have hfree : ∀ c, isNameChar c = false → c ∉ ['.', 'p', 'h', 'p'] → c ∉ name ++ ['.', 'p', 'h', 'p'] := by
    intro c hc htail hmem
    rcases List.mem_append.1 hmem with hmem | hmem
    · simp [h c hmem] at hc
    · exact htail hmem
  rw [Files.isName_iff, hchars]
  refine ⟨⟨by simp, hfree _ (by decide) (by decide), ?_, ?_⟩, hfree _ (by decide) (by decide), by simp⟩
  · exact fun heq => by simpa using congrArg List.length heq
  · exact fun heq => by simpa using congrArg List.length heq

/-! ### Places -/

/-- The directories of a namespace. -/
def spacePlace (space : List Char) : Place := (Text.pieces '\\' space).map String.ofList

/-- Where the declaration with a namespace and a name goes, below the source root. -/
def place (key : List Char × List Char) : Place := spacePlace key.1 ++ [String.ofList key.2 ++ ".php"]

/-- The declarations with their files, in the order in which they are written. -/
def items (files : List File) : List (File × Declaration) :=
  files.flatMap fun f => f.declarations.map fun d => (f, d)

theorem items_concat (files : List File) (f : File) :
    items (files ++ [f]) = items files ++ f.declarations.map fun d => (f, d) := by
  simp [items]

/-- Namespace and name. -/
def key (item : File × Declaration) : List Char × List Char := (item.1.space, item.2.name)

/-- Different namespaces or names, different places. -/
theorem place_injective : Function.Injective place := by
  rintro ⟨space, name⟩ ⟨space', name'⟩ h
  obtain ⟨hspace, hname⟩ := List.append_inj' h rfl
  have hpieces : Text.pieces '\\' space = Text.pieces '\\' space' :=
    List.map_injective_iff.2 (fun _ _ => String.ofList_injective) hspace
  have hspaces : space = space' := by
    rw [← Text.join_pieces '\\' space, hpieces, Text.join_pieces]
  have hnames : name ++ ['.', 'p', 'h', 'p'] = name' ++ ['.', 'p', 'h', 'p'] := by
    have := congrArg String.toList (List.cons.inj hname).1
    simpa using this
  rw [hspaces, List.append_cancel_right hnames]

/-- What a declaration's own file holds. -/
def content (item : File × Declaration) : Bytes := Bytes.ofText (String.ofList (item.1.render item.2))

def entry (item : File × Declaration) : Place × Bytes := (place (key item), content item)

/-- Everything that is to be written has a path that the system can hold. -/
def Fits (root : Path) (files : List File) : Prop :=
  ∀ f ∈ files, (root.join f.directory).Fits ∧ ∀ d ∈ f.declarations, (declarationPath root f d).Fits

instance (root : Path) (files : List File) : Decidable (Fits root files) :=
  inferInstanceAs (Decidable (∀ f ∈ files, _ ∧ ∀ d ∈ f.declarations, _))

theorem spacePlace_ne_nil (space : List Char) : spacePlace space ≠ [] := by
  simpa [spacePlace] using Text.pieces_ne_nil '\\' space

section Paths

variable {f : File} (hf : Named f)
include hf

theorem spacePlace_named : ∀ name ∈ spacePlace f.space,
    isName name = true ∧ '\x00' ∉ name.toList ∧ '.' ∉ name.toList := by
  intro name hname
  obtain ⟨piece, hpiece, rfl⟩ := List.mem_map.1 hname
  exact name_of_identifier (hf.space piece hpiece)

theorem place_named {d : Declaration} (hd : d ∈ f.declarations) : ∀ name ∈ place (key (f, d)),
    isName name = true ∧ '\x00' ∉ name.toList := by
  refine List.forall_mem_append.2 ⟨fun name hname => ?_, fun name hname => ?_⟩
  · exact ⟨(spacePlace_named hf name hname).1, (spacePlace_named hf name hname).2.1⟩
  · obtain rfl := List.mem_singleton.1 hname
    have hnamed := name_of_declaration (hf.names d hd)
    exact ⟨hnamed.1, hnamed.2.1⟩

/-- The directory of a namespace lies at its place. -/
theorem join_directory (root : Path) : root.join f.directory = root.under (spacePlace f.space) := by
  have hall : (Text.pieces '\\' f.space).filter (· ≠ []) = Text.pieces '\\' f.space := by
    rw [List.filter_eq_self]
    intro piece hpiece
    have hword := hf.space piece hpiece
    cases piece with
    | nil => cases hword
    | cons c rest => rfl
  have hdirectory : f.directory = (⟨""⟩ : Path).under (spacePlace f.space) := by
    rw [File.directory, hall, Path.under, spacePlace, List.foldl_map]
  rw [hdirectory, Path.join_under (fun name hname => (spacePlace_named hf name hname).1)
    (spacePlace_ne_nil f.space)]

theorem declarationPath_eq (root : Path) (d : Declaration) :
    declarationPath root f d = root.under (place (key (f, d))) := by
  rw [declarationPath, join_directory hf, place, Path.under_concat]
  rfl

end Paths

/-! ### Writing -/

variable {g : Ground} {dirs : List Place} {written : List (Place × Bytes)} {disk : Files.Disk}

/-- The paths that count as written, each once. -/
def paths (root : Path) (written : List (Place × Bytes)) : List Path :=
  (written.map Prod.fst).dedup.map root.under

theorem renderDeclaration_yields (f : File) (d : Declaration) :
    Yields (renderDeclaration f d) disk fun text disk' => text = String.ofList (f.render d) ∧ disk' = disk := by
  unfold renderDeclaration
  split
  · refine Yields.bind Yields.reports fun _ disk' hdisk => ?_
    exact Yields.pure ⟨rfl, hdisk⟩
  · exact Yields.pure ⟨rfl, rfl⟩

/-- Where a path counts as written before, it has. -/
theorem any_same_iff (root : Path) {rel : Place} (hrel : ∀ n ∈ rel, isName n = true)
    (hwritten : ∀ e ∈ written, ∀ n ∈ e.1, isName n = true) :
    (paths root written).any (root.under rel).same = true ↔ rel ∈ written.map Prod.fst := by
  simp only [paths, List.any_eq_true, List.mem_map, List.mem_dedup]
  constructor
  · rintro ⟨_, ⟨_, ⟨e, he, rfl⟩, rfl⟩, hsame⟩
    exact ⟨e, he, ((Path.same_under_iff hrel (hwritten e he)).1 hsame).symm⟩
  · rintro ⟨e, he, rfl⟩
    exact ⟨_, ⟨_, ⟨e, he, rfl⟩, rfl⟩, (Path.same_under_iff hrel hrel).2 rfl⟩

theorem paths_cons (root : Path) (rel : Place) (bytes : Bytes) :
    paths root ((rel, bytes) :: written) =
      if rel ∈ written.map Prod.fst then paths root written else root.under rel :: paths root written := by
  simp only [paths, List.map_cons]
  split
  · rename_i hmem
    rw [List.dedup_cons_of_mem hmem]
  · rename_i hnot
    rw [List.dedup_cons_of_notMem hnot, List.map_cons]

/-- **A declaration adds its file, and its path unless that was written before.** -/
theorem writeDeclaration_yields (h : Laid g dirs written disk) {f : File} (hf : Named f) {d : Declaration}
    (hd : d ∈ f.declarations) (hfits : (declarationPath g.root f d).Fits)
    (hcovered : spacePlace f.space ∈ dirs) (hwritten : ∀ e ∈ written, ∀ n ∈ e.1, isName n = true) :
    Yields (writeDeclaration g.root f (paths g.root written) d) disk fun ps disk' =>
      ps = paths g.root (entry (f, d) :: written) ∧ Laid g dirs (entry (f, d) :: written) disk' := by
  have hnamed := place_named hf hd
  have hleads : g.Leads (place (key (f, d))) :=
    ⟨fun n hn => (hnamed n hn).1, fun n hn => (hnamed n hn).2, declarationPath_eq hf g.root d ▸ hfits⟩
  have hagain := any_same_iff g.root hleads.named hwritten
  have hstore : ∀ ps : List Path, Yields (do
      let text ← renderDeclaration f d
      Files.storeText (declarationPath g.root f d) text
      pure ps) disk fun ps' disk' => ps' = ps ∧ Laid g dirs (entry (f, d) :: written) disk' := by
    intro ps
    refine Yields.bind (renderDeclaration_yields f d) fun text disk' ⟨htext, hdisk⟩ => ?_
    rw [htext, hdisk, declarationPath_eq hf]
    refine Yields.bind (h.storeText hleads (name_of_declaration (hf.names d hd)).2.2
      (spacePlace_ne_nil f.space) ⟨_, hcovered, List.prefix_rfl⟩ _) fun _ disk' hlaid => ?_
    exact Yields.pure ⟨rfl, hlaid⟩
  unfold writeDeclaration
  dsimp only
  rw [entry, paths_cons]
  rw [declarationPath_eq hf] at hstore ⊢
  split
  · rename_i hrepeated
    rw [if_pos (hagain.1 hrepeated)]
    refine Yields.bind Yields.reports fun _ disk' hdisk => ?_
    rw [hdisk]
    exact hstore _
  · rename_i hnew
    rw [if_neg fun hmem => hnew (hagain.2 hmem)]
    exact hstore _

/-- Writing a file adds the directory of its namespace and its declarations, the last on top. -/
theorem writeFile_yields (h : Laid g dirs written disk) {f : File} (hf : Named f)
    (hfits : (g.root.join f.directory).Fits ∧ ∀ d ∈ f.declarations, (declarationPath g.root f d).Fits)
    (hwritten : ∀ e ∈ written, ∀ n ∈ e.1, isName n = true) :
    Yields (writeFile g.root (paths g.root written) f) disk fun ps disk' =>
      ps = paths g.root ((f.declarations.map fun d => entry (f, d)).reverse ++ written) ∧
        Laid g (spacePlace f.space :: dirs) ((f.declarations.map fun d => entry (f, d)).reverse ++ written)
          disk' := by
  have hnamed := spacePlace_named hf
  have hdirectory := join_directory hf g.root
  have hleads : g.Leads (spacePlace f.space) :=
    ⟨fun n hn => (hnamed n hn).1, fun n hn => (hnamed n hn).2.1, hdirectory ▸ hfits.1⟩
  have hmade := h.ensureDirectory (spacePlace_ne_nil f.space) hleads fun n hn => (hnamed n hn).2.2
  rw [← hdirectory] at hmade
  refine Yields.bind hmade fun _ made hlaid => ?_
  refine Yields.foldlM (I := fun before ps disk' =>
    ps = paths g.root ((before.map fun d => entry (f, d)).reverse ++ written) ∧
      Laid g (spacePlace f.space :: dirs) ((before.map fun d => entry (f, d)).reverse ++ written) disk')
    ⟨rfl, hlaid⟩ ?_
  rintro before d after _ disk' hsplit ⟨rfl, hbefore⟩
  have hmem : ∀ x ∈ before ++ [d], x ∈ f.declarations := by
    intro x hx
    rw [hsplit, List.append_cons]
    exact List.mem_append_left _ hx
  have hd := hmem d (List.mem_append_right _ List.mem_cons_self)
  have hnames : ∀ e ∈ (before.map fun d => entry (f, d)).reverse ++ written,
      ∀ n ∈ e.1, isName n = true := by
    refine List.forall_mem_append.2 ⟨fun e he => ?_, hwritten⟩
    obtain ⟨x, hx, rfl⟩ := List.mem_map.1 (List.mem_reverse.1 he)
    exact fun n hn => (place_named hf (hmem x (List.mem_append_left _ hx)) n hn).1
  have hadded := writeDeclaration_yields hbefore hf hd (hfits.2 d hd) List.mem_cons_self hnames
  rwa [List.map_append, List.reverse_append]

/-- **Writing files leaves their directories and their declarations, the last on top.** -/
theorem assemble_yields (g : Ground) {files : List File} (hfiles : ∀ f ∈ files, Named f)
    (hfits : Fits g.root files) :
    Yields (assemble g.root files) g.base fun n disk' =>
      n = (paths g.root ((items files).map entry).reverse).length ∧
        Laid g (files.map fun f => spacePlace f.space).reverse ((items files).map entry).reverse disk' := by
  have hloop : Yields (files.foldlM (writeFile g.root) []) g.base fun ps disk' =>
      ps = paths g.root ((items files).map entry).reverse ∧
        Laid g (files.map fun f => spacePlace f.space).reverse ((items files).map entry).reverse disk' := by
    refine Yields.foldlM (I := fun before ps disk' => ps = paths g.root ((items before).map entry).reverse ∧
      Laid g (before.map fun f => spacePlace f.space).reverse ((items before).map entry).reverse disk')
      ⟨rfl, Laid.start g⟩ ?_
    rintro before f after _ disk' hsplit ⟨rfl, hbefore⟩
    have hmem : ∀ x ∈ before ++ [f], x ∈ files := by
      intro x hx
      rw [hsplit, List.append_cons]
      exact List.mem_append_left _ hx
    have hf := hmem f (List.mem_append_right _ List.mem_cons_self)
    have hnames : ∀ e ∈ ((items before).map entry).reverse, ∀ n ∈ e.1, isName n = true := by
      intro e he
      obtain ⟨item, hitem, rfl⟩ := List.mem_map.1 (List.mem_reverse.1 he)
      obtain ⟨x, hx, hdeclared⟩ := List.mem_flatMap.1 hitem
      obtain ⟨d, hd, rfl⟩ := List.mem_map.1 hdeclared
      exact fun n hn => (place_named (hfiles x (hmem x (List.mem_append_left _ hx))) hd n hn).1
    have hadded := writeFile_yields hbefore (hfiles f hf) (hfits f hf) hnames
    rwa [items_concat, List.map_append, List.map_append, List.reverse_append, List.reverse_append,
      List.map_map]
  refine Yields.bind hloop fun ps disk' ⟨hps, hlaid⟩ => ?_
  exact Yields.pure ⟨congrArg List.length hps, hlaid⟩

/-! ### Writing what fits -/

theorem exists_storeText {root : Path} {f : File} {ps ps' : List Path} {d : Declaration} {w w' : World}
    (h : writeDeclaration root f ps d w = (.ok ps', w')) :
    ∃ text w₁ w₂, Files.storeText (declarationPath root f d) text w₁ = (.ok (), w₂) := by
  have hstore : ∀ (ps : List Path) w, (do
      let text ← renderDeclaration f d
      Files.storeText (declarationPath root f d) text
      pure ps : Act (List Path)) w = (.ok ps', w') →
        ∃ text w₁ w₂, Files.storeText (declarationPath root f d) text w₁ = (.ok (), w₂) := by
    intro ps w h
    obtain ⟨text, w₁, -, h⟩ := Act.bind_eq_ok h
    obtain ⟨_, w₂, h, -⟩ := Act.bind_eq_ok h
    exact ⟨text, w₁, w₂, h⟩
  unfold writeDeclaration at h
  dsimp only at h
  split at h
  · obtain ⟨_, w₁, -, h⟩ := Act.bind_eq_ok h
    exact hstore _ w₁ h
  · exact hstore _ w h

/-- What has been written fits. -/
theorem fits_of_assemble {root : Path} {files : List File} (hfiles : ∀ f ∈ files, Named f) {n : Nat} {w w' : World} (h : assemble root files w = (.ok n, w')) :
    Fits root files := by
  obtain ⟨_, _, hloop, -⟩ := Act.bind_eq_ok h
  intro f hf
  obtain ⟨_, _, _, _, hfile⟩ := Act.foldlM_eq_ok hloop f hf
  obtain ⟨_, _, hdirectory, hdeclarations⟩ := Act.bind_eq_ok hfile
  have hspace := fun name hname => (spacePlace_named (hfiles f hf) name hname).1
  constructor
  · rw [join_directory (hfiles f hf)] at hdirectory ⊢
    refine (Files.usable_of_ensureDirectory ?_ hdirectory).toFits
    rw [Path.components_under hspace]
    simp [spacePlace_ne_nil]
  · intro d hd
    obtain ⟨_, _, _, _, hdeclaration⟩ := Act.foldlM_eq_ok hdeclarations d hd
    obtain ⟨_, _, _, hstore⟩ := exists_storeText hdeclaration
    exact (Files.usable_of_storeText hstore).toFits

/-! ### What is written -/

/-- Below `top`, one file for each pair of a namespace and a name holds the last declaration of the pair,
and `n` is the number of these files. Besides them there are the directories of the namespaces, and
nothing has changed elsewhere. -/
structure Assembled (files : List File) (top : Place) (before after : Files.Disk) (n : Nat) : Prop where
  count : n = ((items files).map key).dedup.length
  apart : (((items files).map key).dedup.map fun k => top ++ place k).Nodup
  created : ∀ p, (Below top p ∧ ∃ data, after.tree.get? p = some (.file data)) ↔
    p ∈ ((items files).map key).dedup.map fun k => top ++ place k
  holds : ∀ earlier item later, items files = earlier ++ item :: later → key item ∉ later.map key →
    after.tree.get? (top ++ place (key item)) = some (.file ⟨content item, before.now, false⟩)
  directories : ∀ p, Below top p → (after.tree.get? p = some .directory ↔
    ∃ f ∈ files, p <+: top ++ spacePlace f.space)
  unlinked : ∀ p target, Below top p → after.tree.get? p ≠ some (.link target)
  outside : ∀ p, ¬ Below top p → after.tree.get? p = before.tree.get? p

theorem place_ne_nil (k : List Char × List Char) : place k ≠ [] := Files.append_singleton_ne_nil _ _

/-- The keys of what is laid are the places of the declarations. -/
theorem map_fst_entries (files : List File) :
    ((items files).map entry).reverse.map Prod.fst = (((items files).map key).map place).reverse := by
  simp [entry, Function.comp_def]

theorem length_paths (root : Path) (files : List File) :
    (paths root ((items files).map entry).reverse).length = ((items files).map key).dedup.length := by
  have hperm : (((items files).map key).map place).reverse.dedup.Perm
      (((items files).map key).dedup.map place) := by
    rw [← List.dedup_map_of_injective place_injective]
    exact (List.reverse_perm _).dedup
  rw [paths, map_fst_entries, List.length_map, hperm.length_eq, List.length_map]

/-- The declaration that comes last is the one that is found. -/
theorem lookup_last {files : List File} {earlier later : List (File × Declaration)}
    {item : File × Declaration} (hitems : items files = earlier ++ item :: later)
    (hlast : key item ∉ later.map key) :
    ((items files).map entry).reverse.lookup (place (key item)) = some (content item) := by
  rw [List.lookup_eq_some_iff]
  refine ⟨(later.map entry).reverse, (earlier.map entry).reverse, ?_, ?_⟩
  · simp [hitems, entry]
  · intro e he
    obtain ⟨x, hx, rfl⟩ := List.mem_map.1 (List.mem_reverse.1 he)
    rw [bne_iff_ne]
    exact fun heq => hlast (place_injective heq ▸ List.mem_map_of_mem hx)

/-- What is laid when all files are written is what was to be assembled. -/
theorem assembled_of_laid {g : Ground} {files : List File} {after : Files.Disk}
    (h : Laid g (files.map fun f => spacePlace f.space).reverse ((items files).map entry).reverse after) :
    Assembled files g.place g.base after (paths g.root ((items files).map entry).reverse).length where
  count := length_paths g.root files
  apart := by
    refine (List.nodup_dedup _).map fun k k' heq => ?_
    exact place_injective (List.append_cancel_left heq)
  created p := by
    have hplaces : ∀ rel, rel ∈ ((items files).map entry).reverse.map Prod.fst ↔
        rel ∈ ((items files).map key).dedup.map place := by
      intro rel
      rw [map_fst_entries, List.mem_reverse, List.mem_map, List.mem_map]
      simp only [List.mem_dedup]
    constructor
    · rintro ⟨hbelow, hfile⟩
      obtain ⟨rel, hrel, rfl⟩ := hbelow.exists_append
      obtain ⟨k, hk, rfl⟩ := List.mem_map.1 ((hplaces rel).1 ((h.exists_file_iff hrel).1 hfile))
      exact List.mem_map_of_mem hk
    · intro hp
      obtain ⟨k, hk, rfl⟩ := List.mem_map.1 hp
      refine ⟨Files.below_append _ (place_ne_nil k), (h.exists_file_iff (place_ne_nil k)).2 ?_⟩
      exact (hplaces _).2 (List.mem_map_of_mem hk)
  holds earlier item later hitems hlast :=
    (h.file_iff (place_ne_nil _)).2 ⟨_, lookup_last hitems hlast, rfl⟩
  directories p hp := by
    obtain ⟨rel, hrel, rfl⟩ := hp.exists_append
    rw [h.directory_iff hrel]
    simp [List.prefix_append_right_inj]
  unlinked p target hp := by
    obtain ⟨rel, hrel, rfl⟩ := hp.exists_append
    exact h.not_link hrel target
  outside := h.outside

/-- **In an empty source root, each pair of a namespace and a name gets a file of its own, which holds the last
declaration of the pair, exactly if the system can hold the paths.** -/
theorem assemble_writes_last {locate : Path → Path} {rules : List Rule} {sources files : List File} {root : Path}
    {top : Place} {w : World} (hsplit : ∀ f ∈ sources, ∃ path source, Source.split path source = .ok f)
    (hrules : ∀ r ∈ rules, (Text.pieces '\\' r.target.text).all isIdentifier = true)
    (hfiles : Shading.applyRules locate rules sources = .ok files) (hdisk : w.disk.Sound)
    (hroot : w.disk.find root true = .ok (.found top .directory))
    (hempty : ∀ p, Below top p → w.disk.tree.get? p = none) :
    ((∃ n w', assemble root files w = (.ok n, w')) ↔ Fits root files) ∧
      ∀ n w', assemble root files w = (.ok n, w') → Assembled files top w.disk w'.disk n := by
  let g : Ground := ⟨w.disk, root, top, hdisk, hroot, hempty⟩
  have hnamed : ∀ f ∈ files, Named f := by
    refine named_applyRules hrules (fun f hf => ?_) hfiles
    obtain ⟨path, source, h⟩ := hsplit f hf
    exact named_split h
  have hruns : Fits root files → ∃ n w', assemble root files w = (.ok n, w') ∧
      Assembled files top w.disk w'.disk n := by
    intro hfits
    obtain ⟨n, w', hrun, hn, hlaid⟩ := assemble_yields g hnamed hfits w rfl
    exact ⟨n, w', hrun, hn ▸ assembled_of_laid hlaid⟩
  refine ⟨⟨fun ⟨_, _, hrun⟩ => fits_of_assemble hnamed hrun, fun hfits => ?_⟩,
    fun n w' hrun => ?_⟩
  · obtain ⟨n, w', hrun, -⟩ := hruns hfits
    exact ⟨n, w', hrun⟩
  · obtain ⟨m, v, hrun', hassembled⟩ := hruns (fits_of_assemble hnamed hrun)
    rw [hrun] at hrun'
    cases hrun'
    exact hassembled

/-- The statement holds of a file that declares a class twice and is shaded. -/
theorem exists_assemble_writes_last : ∃ source rule f f' root top w n w',
    Source.split f.path source = .ok f ∧ Shading.applyRules id [rule] [f] = .ok [f'] ∧
      (∀ p, Below top p → w.disk.tree.get? p = none) ∧ assemble root [f'] w = (.ok n, w') ∧ n = 2 ∧
        Assembled [f'] top w.disk w'.disk n := by
  let source :=
    "<?php\nnamespace A\\B;\nclass C \x7b\x7d\nclass D \x7b\x7d\nclass C \x7b const E = 1; \x7d\n".toList
  let items : List Declaration := [⟨2, ['C'], "class C \x7b\x7d".toList⟩, ⟨3, ['D'], "class D \x7b\x7d".toList⟩,
    ⟨4, ['C'], "class C \x7b const E = 1; \x7d".toList⟩]
  let f : File := ⟨⟨"a.php"⟩, "<?php\nnamespace A\\B;".toList, "A\\B".toList, items⟩
  let f' : File := ⟨⟨"a.php"⟩, "<?php\nnamespace libs\\A\\B;".toList, "libs\\A\\B".toList, items⟩
  let rule : Rule := ⟨"A\\B".toList, by decide +kernel, ⟨"libs".toList, by decide +kernel⟩, none, none⟩
  let w : World := {disk := {tree := ⟨[(["out"], .directory)]⟩}}
  have hsplit : Source.split f.path source = .ok f := by decide +kernel
  have hfiles : Shading.applyRules id [rule] [f] = .ok [f'] := by decide +kernel
  have hroot : w.disk.find ⟨"out"⟩ true = .ok (.found ["out"] .directory) := by decide +kernel
  have hempty : ∀ p, Below ["out"] p → w.disk.tree.get? p = none := by
    rintro p ⟨⟨rest, rfl⟩, hne⟩
    have hrest : ((["out"] ++ rest : Place) == ["out"]) = false := beq_eq_false_iff_ne.2 hne.symm
    rw [Files.Tree.get?, if_neg (by simp), List.lookup_cons, hrest]
    rfl
  have hfits : Fits ⟨"out"⟩ [f'] := by decide +kernel
  obtain ⟨hiff, hassembled⟩ := assemble_writes_last (List.forall_mem_singleton.2 ⟨_, _, hsplit⟩)
    (List.forall_mem_singleton.2 (by decide +kernel)) hfiles (by decide +kernel) hroot hempty
  obtain ⟨n, w', hrun⟩ := hiff.2 hfits
  have h := hassembled n w' hrun
  refine ⟨source, rule, f, f', _, _, w, n, w', hsplit, hfiles, hempty, hrun, ?_, h⟩
  rw [h.count]
  decide +kernel

/-- A class with a name of 252 characters is not written: with its ending, the name is too long. -/
theorem long_name_not_written : ∃ source f root top w, Source.split f.path source = .ok f ∧
    Shading.applyRules id [] [f] = .ok [f] ∧ w.disk.Sound ∧
      w.disk.find root true = .ok (.found top .directory) ∧
        (∀ p, Below top p → w.disk.tree.get? p = none) ∧ ∀ n w', assemble root [f] w ≠ (.ok n, w') := by
  let name := List.replicate 252 'C'
  let code := "class ".toList ++ name ++ " \x7b\x7d".toList
  let d : Declaration := ⟨2, name, code⟩
  let f : File := ⟨⟨"a.php"⟩, "<?php\nnamespace A;".toList, ['A'], [d]⟩
  have hsplit : Source.split f.path (f.header ++ '\n' :: code) = .ok f := by decide +kernel
  refine ⟨_, f, ⟨"/"⟩, [], {}, hsplit, rfl, by decide +kernel, by decide +kernel, fun p hp => ?_,
    fun n w' hrun => ?_⟩
  · rw [Files.Tree.get?, if_neg hp.2.symm]
    rfl
  · have hnamed := named_split hsplit
    have hfits := (fits_of_assemble (List.forall_mem_singleton.2 hnamed) hrun f List.mem_cons_self).2
      d List.mem_cons_self
    have hmem : String.ofList name ++ ".php" ∈
        Files.namesIn ((⟨"/"⟩ : Path).under (place (key (f, d)))).chars := by
      rw [Path.namesIn_under fun n hn => (place_named hnamed List.mem_cons_self n hn).1]
      exact List.mem_append_right _ (List.mem_append_right _ List.mem_cons_self)
    have hsize : ∀ count, (String.ofList (List.replicate count 'C')).utf8ByteSize = count := by
      intro count
      induction count with
      | zero => rfl
      | succ count ih =>
        rw [List.replicate_succ', String.ofList_append, String.utf8ByteSize_append, ih]
        rfl
    rw [declarationPath_eq hnamed] at hfits
    have hlimit := hfits.names _ hmem
    rw [String.utf8ByteSize_append, hsize] at hlimit
    exact absurd hlimit (by decide)

end PluginShading.Assembly
