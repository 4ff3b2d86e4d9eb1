import PluginShading.World

/-!
Walking a directory: everything in it at any depth, each directory before what it holds and siblings in
the order of their names. Links below the root are not followed; the root may itself be a link to a
directory.
-/
namespace PluginShading.Files

namespace Tree

theorem mem_of_mem_children {t : Tree} {p : Place} {name : String} {e : Entry} (h : (name, e) ∈ t.children p) :
    (p ++ [name], e) ∈ t.entries := by
  simp only [children, below, List.mem_filterMap, List.mem_mergeSort, List.mem_map, List.mem_filter,
    decide_eq_true_eq] at h
  obtain ⟨_, ⟨⟨q, entry⟩, ⟨hmem, ⟨⟨rest, rfl⟩, -⟩⟩, rfl⟩, hname⟩ := h
  rw [List.drop_left] at hname
  cases rest with
  | nil => cases hname
  | cons first more =>
    cases more with
    | nil =>
      cases hname
      exact hmem
    | cons => cases hname

theorem length_below (t : Tree) (p : Place) :
    (t.below p).length = (t.entries.filter fun e => Below p e.1).length := by
  simp [below]

/-- Less lies below what lies in a place than below the place. -/
theorem length_below_lt {t : Tree} {p : Place} {name : String} {e : Entry} (h : (name, e) ∈ t.children p) :
    (t.below (p ++ [name])).length < (t.below p).length := by
  have hstep : Below p (p ++ [name]) := ⟨List.prefix_append p [name], by simp⟩
  have hfurther : ∀ q, Below (p ++ [name]) q → Below p q := by
    intro q hq
    refine ⟨hstep.1.trans hq.1, ?_⟩
    rintro rfl
    exact absurd hq.1.length_le (by simp)
  have hnarrow : (t.entries.filter fun e => Below (p ++ [name]) e.1) =
      (t.entries.filter fun e => Below p e.1).filter fun e => Below (p ++ [name]) e.1 := by
    rw [List.filter_filter]
    refine List.filter_congr fun e _ => ?_
    by_cases hb : Below (p ++ [name]) e.1
    · simp [hb, hfurther e.1 hb]
    · simp [hb]
  rw [length_below, length_below, hnarrow, List.length_filter_lt_length_iff_exists]
  refine ⟨(p ++ [name], e), List.mem_filter.2 ⟨mem_of_mem_children h, by simpa using hstep⟩, ?_⟩
  have hself : ¬ Below (p ++ [name]) (p ++ [name]) := fun hb => hb.2 rfl
  simpa using hself

/-- Everything strictly below a place, by the names that lead there from it. -/
def visit (t : Tree) (p : Place) : List (Place × Entry) :=
  (t.children p).attach.flatMap fun ⟨(name, entry), _⟩ =>
    ([name], entry) ::
      if entry.isDirectory then (t.visit (p ++ [name])).map fun e => (name :: e.1, e.2) else []
termination_by (t.below p).length
decreasing_by exact length_below_lt ‹_›

end Tree

def below (root : Path) (names : Place) : Path := names.foldl (fun p name => p.join ⟨name⟩) root

namespace Disk

/-- What lies below the directory at `place`, which is walked as `p`. A directory is opened by the whole of its
path, which may be too long for that. -/
def walkBelow (d : Disk) (p : Path) (place : Place) : Except (Path × IoError) (List (Place × Entry)) :=
  let found := d.tree.visit place
  match found.find? fun e => e.2.isDirectory ∧ pathLimit ≤ (below p e.1).text.utf8ByteSize with
  | some e => .error (below p e.1, .nameTooLong)
  | none => .ok found

/-- What lies at a path and below it, by the names that lead there from the path. An error comes with the path that it
is about. -/
def walk (d : Disk) (p : Path) : Except (Path × IoError) (List (Place × Entry)) :=
  match d.find p false with
  | .error e => .error (p, e)
  | .ok (.missing _ _) => .error (p, .notFound)
  | .ok (.found place .directory) => (d.walkBelow p place).map (([], .directory) :: ·)
  | .ok (.found _ (.file data)) => .ok [([], .file data)]
  | .ok (.found _ (.link target)) =>
    match d.find p true with
    | .error e => .error (p, e)
    | .ok (.missing _ _) => .error (p, .notFound)
    | .ok (.found place .directory) => (d.walkBelow p place).map (([], .link target) :: ·)
    | .ok (.found _ _) => .ok [([], .link target)]

/-- The regular files at a path and below it, by the names that lead there. -/
def regularFiles (d : Disk) (p : Path) : Except (Path × IoError) (List Place) :=
  (d.walk p).map fun entries => (entries.filter (·.2.isFile)).map (·.1)

end Disk

def sourceExtension : String := "php"

/-- The source files of a source root, which is a directory or a single file. -/
def collectSources (root : Path) : Act (List Path) := do
  let d ← Act.disk
  if d.isFile root then pure [root]
  else if d.isDirectory root = false then Act.fail (.because (.missingSourceRoot root))
  else match d.regularFiles root with
    | .error (p, e) => Act.fail ⟨[.walkSourceRoot root], some (.walk p e)⟩
    | .ok files => pure ((files.map (below root)).filter (·.extension = some sourceExtension))

end PluginShading.Files
