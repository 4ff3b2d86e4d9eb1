import Mathlib.Data.List.Lex
import Mathlib.Data.List.Nodup
import Mathlib.Data.String.Basic
import PluginShading.Files.Walk
import PluginShading.Proofs.Files.Descent
import PluginShading.Proofs.Files.Follow

/-!
What a directory holds, and what lies below it.

Where every entry is listed once (`Distinct`), a directory holds the entries that lie in it, in the order of their
names (`mem_children_iff`, `children_sorted`). From that follows by induction on the walk what it meets: all that
lies below, in the order of the lists of names (`mem_visit_iff`, `visit_sorted`). The regular files of a directory
are those among it, unless some directory has a path that is too long (`regularFiles_cases`).
-/
namespace PluginShading.Files

namespace Tree

variable {t : Tree} {p q names : Place} {name : String} {e : Entry}

/-- No place is listed twice. -/
def Distinct (t : Tree) : Prop := (t.entries.map (·.1)).Nodup

instance (t : Tree) : Decidable t.Distinct := inferInstanceAs (Decidable (List.Nodup _))

theorem mem_of_get? (hq : q ≠ []) (h : t.get? q = some e) : (q, e) ∈ t.entries := by
  rw [get?, if_neg hq] at h
  obtain ⟨before, after, hentries, -⟩ := List.lookup_eq_some_iff.1 h
  exact hentries ▸ List.mem_append_right _ List.mem_cons_self

theorem get?_eq_some_iff (h : t.Distinct) (hq : q ≠ []) : t.get? q = some e ↔ (q, e) ∈ t.entries := by
  refine ⟨mem_of_get? hq, fun hmem => ?_⟩
  obtain ⟨e', hget⟩ := get?_of_mem hmem
  have heq := List.inj_on_of_nodup_map h hmem (mem_of_get? hq hget) rfl
  rw [hget, (Prod.mk.inj heq).2]

namespace Distinct

theorem filter (h : t.Distinct) (keep : Place × Entry → Bool) : Distinct ⟨t.entries.filter keep⟩ :=
  List.Nodup.sublist (List.filter_sublist.map _) h

theorem set (h : t.Distinct) (p : Place) (e : Entry) : (t.set p e).Distinct := by
  refine List.nodup_cons.2 ⟨?_, h.filter _⟩
  simp [erase]

end Distinct

/-! ### One directory -/

/-- The order in which entries are listed. -/
theorem lex_iff {a b : Place} : (!List.lex b a fun s t => s < t) = true ↔ a ≤ b := by
  rw [Bool.not_eq_true', ← Bool.not_eq_true, List.lex_eq_true_iff_lex, ← not_lt]
  simp only [decide_eq_true_eq]
  rfl

theorem below_ordered (t : Tree) (p : Place) : (t.below p).Pairwise fun a b => a.1 ≤ b.1 := by
  refine List.Pairwise.imp (fun h => lex_iff.1 h) (List.pairwise_mergeSort ?_ ?_ _)
  · exact fun a b c hab hbc => lex_iff.2 ((lex_iff.1 hab).trans (lex_iff.1 hbc))
  · intro a b
    rw [Bool.or_eq_true, lex_iff, lex_iff]
    exact le_total a.1 b.1

theorem mem_below_iff : (names, e) ∈ t.below p ↔ names ≠ [] ∧ (p ++ names, e) ∈ t.entries := by
  simp only [below, List.mem_mergeSort, List.mem_map, List.mem_filter, decide_eq_true_eq]
  constructor
  · rintro ⟨⟨at_, entry⟩, ⟨hmem, hbelow⟩, heq⟩
    obtain ⟨rest, hrest, rfl⟩ := hbelow.exists_append
    rw [List.drop_left] at heq
    cases heq
    exact ⟨hrest, hmem⟩
  · rintro ⟨hne, hmem⟩
    exact ⟨(p ++ names, e), ⟨hmem, below_append p hne⟩, by rw [List.drop_left]⟩

theorem below_nodup (h : t.Distinct) (p : Place) : ((t.below p).map (·.1)).Nodup := by
  rw [below, ((List.mergeSort_perm _ _).map _).nodup_iff, List.map_map]
  refine List.Nodup.map_on (fun a ha b hb heq => ?_) ((List.Nodup.of_map _ h).filter _)
  obtain ⟨hmem, hbelow⟩ := List.mem_filter.1 ha
  obtain ⟨hmem', hbelow'⟩ := List.mem_filter.1 hb
  obtain ⟨rest, -, hrest⟩ := (of_decide_eq_true hbelow).exists_append
  obtain ⟨rest', -, hrest'⟩ := (of_decide_eq_true hbelow').exists_append
  refine List.inj_on_of_nodup_map h hmem hmem' ?_
  have heq : a.1.drop p.length = b.1.drop p.length := heq
  rw [hrest, hrest', List.drop_left, List.drop_left] at heq
  rw [hrest, hrest', heq]

theorem below_sorted (h : t.Distinct) (p : Place) : (t.below p).Pairwise fun a b => a.1 < b.1 :=
  List.Pairwise.imp₂ (fun _ _ hle hne => lt_of_le_of_ne hle hne) (below_ordered t p)
    (List.pairwise_map.1 (below_nodup h p))

theorem mem_children_of_get? (h : t.get? (p ++ [name]) = some e) : (name, e) ∈ t.children p := by
  rw [children, List.mem_filterMap]
  exact ⟨([name], e), mem_below_iff.2 ⟨List.cons_ne_nil _ _, mem_of_get? (append_singleton_ne_nil p name) h⟩, rfl⟩

/-- A directory holds what lies in it. -/
theorem mem_children_iff (h : t.Distinct) : (name, e) ∈ t.children p ↔ t.get? (p ++ [name]) = some e := by
  refine ⟨fun hmem => ?_, mem_children_of_get?⟩
  exact (get?_eq_some_iff h (append_singleton_ne_nil p name)).2 (mem_of_mem_children hmem)

theorem children_sorted (h : t.Distinct) (p : Place) : (t.children p).Pairwise fun a b => a.1 < b.1 := by
  rw [children, List.pairwise_filterMap]
  refine (below_sorted h p).imp fun {a b} hlt c hc d hd => ?_
  split at hc
  · rename_i name hname
    split at hd
    · rename_i name' hname'
      cases hc
      cases hd
      rw [hname, hname', List.cons_lt_cons_iff] at hlt
      exact hlt.resolve_right fun heq => lt_irrefl _ heq.2
    · cases hd
  · cases hc

/-! ### A walk -/

/-- What a walk meets for one entry of a directory: the entry, and what lies below it. -/
def branch (t : Tree) (p : Place) (c : String × Entry) : List (Place × Entry) :=
  ([c.1], c.2) :: if c.2.isDirectory then (t.visit (p ++ [c.1])).map fun e => (c.1 :: e.1, e.2) else []

theorem visit_eq (t : Tree) (p : Place) : t.visit p = (t.children p).flatMap (t.branch p) := by
  rw [visit, List.flatMap_subtype fun _ _ => rfl, List.unattach_attach]
  rfl

theorem mem_branch_iff {c : String × Entry} : (names, e) ∈ t.branch p c ↔ ∃ more, names = c.1 :: more ∧
    (more = [] ∧ e = c.2 ∨ c.2.isDirectory = true ∧ (more, e) ∈ t.visit (p ++ [c.1])) := by
  rw [branch, List.mem_cons, Prod.mk.injEq]
  constructor
  · intro h
    rcases h with ⟨rfl, rfl⟩ | h
    · exact ⟨[], rfl, .inl ⟨rfl, rfl⟩⟩
    · split at h
      · rename_i hdir
        obtain ⟨⟨more, entry⟩, hmem, heq⟩ := List.mem_map.1 h
        cases heq
        exact ⟨more, rfl, .inr ⟨hdir, hmem⟩⟩
      · cases h
  · intro ⟨more, hnames, h⟩
    rcases h with ⟨rfl, rfl⟩ | ⟨hdir, hmem⟩
    · exact .inl ⟨hnames, rfl⟩
    · rw [if_pos hdir]
      exact .inr (List.mem_map.2 ⟨(more, e), hmem, by rw [hnames]⟩)

theorem ne_nil_of_mem_visit (h : (names, e) ∈ t.visit p) : names ≠ [] := by
  rw [visit_eq, List.mem_flatMap] at h
  obtain ⟨c, -, hmem⟩ := h
  obtain ⟨more, rfl, -⟩ := mem_branch_iff.1 hmem
  exact List.cons_ne_nil _ _

/-- **A walk meets what lies below.** -/
theorem mem_visit_iff (ht : t.Sound) (h : t.Distinct) :
    (names, e) ∈ t.visit p ↔ names ≠ [] ∧ t.get? (p ++ names) = some e := by
  induction p using visit.induct t generalizing names with
  | case1 p ih =>
    rw [visit_eq, List.mem_flatMap]
    constructor
    · intro ⟨⟨name, entry⟩, hchild, hmem⟩
      obtain ⟨more, rfl, hmore⟩ := mem_branch_iff.1 hmem
      refine ⟨List.cons_ne_nil _ _, ?_⟩
      rcases hmore with ⟨rfl, rfl⟩ | ⟨-, hmore⟩
      · exact (mem_children_iff h).1 hchild
      · rw [List.append_cons]
        exact ((ih name entry hchild).1 hmore).2
    · intro ⟨hne, hget⟩
      obtain ⟨name, more, rfl⟩ := List.exists_cons_of_ne_nil hne
      rw [List.append_cons] at hget
      by_cases hmore : more = []
      · rw [hmore, List.append_nil] at hget
        exact ⟨(name, e), (mem_children_iff h).2 hget, mem_branch_iff.2 ⟨more, rfl, .inl ⟨hmore, rfl⟩⟩⟩
      · have hdir := ht.directory_of_below hget (below_append (p ++ [name]) hmore)
        have hchild := (mem_children_iff h).2 hdir
        exact ⟨(name, .directory), hchild,
          mem_branch_iff.2 ⟨more, rfl, .inr ⟨rfl, (ih name .directory hchild).2 ⟨hmore, hget⟩⟩⟩⟩

/-- **A walk goes in the order of the lists of names.** -/
theorem visit_sorted (h : t.Distinct) (p : Place) : (t.visit p).Pairwise fun a b => a.1 < b.1 := by
  induction p using visit.induct t with
  | case1 p ih =>
    rw [visit_eq, List.pairwise_flatMap]
    constructor
    · intro ⟨name, entry⟩ hchild
      rw [branch, List.pairwise_cons]
      split
      · refine ⟨fun a ha => ?_, List.pairwise_map.2 ((ih name entry hchild).imp fun hlt => ?_)⟩
        · obtain ⟨⟨more, e⟩, hmem, rfl⟩ := List.mem_map.1 ha
          obtain ⟨first, rest, rfl⟩ := List.exists_cons_of_ne_nil (ne_nil_of_mem_visit hmem)
          exact List.cons_lt_cons_iff.2 (.inr ⟨rfl, List.nil_lt_cons _ _⟩)
        · exact List.cons_lt_cons_iff.2 (.inr ⟨rfl, hlt⟩)
      · exact ⟨nofun, .nil⟩
    · refine (children_sorted h p).imp fun hlt a ha b hb => ?_
      obtain ⟨more, hmore, -⟩ := mem_branch_iff.1 ha
      obtain ⟨more', hmore', -⟩ := mem_branch_iff.1 hb
      rw [hmore, hmore', List.cons_lt_cons_iff]
      exact .inl hlt

/-- The regular files below a place, by the names that lead there from it. -/
def fileNames (t : Tree) (p : Place) : List Place := ((t.visit p).filter (·.2.isFile)).map (·.1)

theorem mem_fileNames_iff (ht : t.Sound) (h : t.Distinct) :
    names ∈ t.fileNames p ↔ names ≠ [] ∧ ∃ data, t.get? (p ++ names) = some (.file data) := by
  simp only [fileNames, List.mem_map, List.mem_filter]
  constructor
  · intro ⟨⟨names', entry⟩, ⟨hmem, hfile⟩, heq⟩
    obtain rfl : names' = names := heq
    obtain ⟨hne, hget⟩ := (mem_visit_iff ht h).1 hmem
    cases entry with
    | file data => exact ⟨hne, data, hget⟩
    | directory => cases hfile
    | link target => cases hfile
  · intro ⟨hne, data, hget⟩
    exact ⟨(names, .file data), ⟨(mem_visit_iff ht h).2 ⟨hne, hget⟩, rfl⟩, rfl⟩

theorem fileNames_sorted (h : t.Distinct) (p : Place) : (t.fileNames p).Pairwise (· < ·) :=
  List.pairwise_map.2 ((visit_sorted h p).filter _)

end Tree

namespace Disk

variable {d : Disk} {p : Path} {place : Place}

/-! ### A walk by a path -/

theorem walk_of_directory (h : d.find p true = .ok (.found place .directory)) : ∃ e : Entry, e.isFile = false ∧
    d.walk p = (d.walkBelow p place).map (([], e) :: ·) := by
  rcases findText_named h with hsame | ⟨q, target, hlink⟩
  · exact ⟨.directory, rfl, by simp only [walk, find, hsame]⟩
  · have h : d.findText p.chars true = .ok (.found place .directory) := h
    exact ⟨.link target, rfl, by simp only [walk, find, hlink, h]⟩

/-- **The regular files of a directory are those below it**, unless the path of some directory is too long. -/
theorem regularFiles_cases (ht : d.tree.Sound) (hd : d.tree.Distinct)
    (h : d.find p true = .ok (.found place .directory)) :
    (∀ names, d.tree.get? (place ++ names) = some .directory → (p.under names).text.utf8ByteSize < pathLimit) ∧
      d.regularFiles p = .ok (d.tree.fileNames place) ∨
    ∃ names, d.tree.get? (place ++ names) = some .directory ∧ pathLimit ≤ (p.under names).text.utf8ByteSize ∧
      d.regularFiles p = .error (p.under names, .nameTooLong) := by
  obtain ⟨e, he, hwalk⟩ := walk_of_directory h
  unfold regularFiles
  rw [hwalk, walkBelow]
  split
  · rename_i found hfound
    obtain ⟨names, entry⟩ := found
    have hlong := List.find?_some hfound
    simp only [Bool.decide_and, Bool.and_eq_true, decide_eq_true_eq] at hlong
    have hmem := ((Tree.mem_visit_iff ht hd).1 (List.mem_of_find?_eq_some hfound)).2
    cases entry with
    | directory => exact .inr ⟨names, hmem, hlong.2, rfl⟩
    | file data => cases hlong.1
    | link target => cases hlong.1
  · rename_i hnone
    refine .inl ⟨fun names hget => ?_, ?_⟩
    · by_cases hnames : names = []
      · have hfits := (findText_eq_ok_iff.1 h).1.2.2
        rw [Path.chars, String.ofList_toList] at hfits
        rw [hnames]
        exact Nat.not_le.1 hfits
      · have hshort := List.find?_eq_none.1 hnone _ ((Tree.mem_visit_iff ht hd).2 ⟨hnames, hget⟩)
        exact (by simpa [Entry.isDirectory] using hshort : (below p names).text.utf8ByteSize < pathLimit)
    · simp [Except.map, he, Tree.fileNames]

end Disk

end PluginShading.Files
