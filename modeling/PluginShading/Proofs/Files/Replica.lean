import PluginShading.Proofs.Files.Refusing

/-!
What a copy leaves.

`Copied S d place goal d'` says that `d'` holds, below `goal`, copies of those entries below `place` that `S` takes, and
else what `d` holds. A file keeps its bytes and its mode (`copyData_apart`), unless it is copied onto itself, which
leaves it empty (`copyData_onto_itself`). Copies of one entry after the other add up (`Copied.step`), as long as none of
them is put where something is still to be copied from (`Copyable.apart`).
-/
namespace PluginShading.Files

variable {d d' d'' : Disk} {source target p : Path} {place goal at_ front : Place} {name : String} {spot : Spot}
  {S T : Place → Prop}

/-! ### The end of a way -/

namespace Disk

/-- A path whose names lead down leads to the last of them, where the directory that would hold it is there. -/
theorem Leads.find_end (h : d.Leads p at_ (front ++ [name])) (hhere : d'.here = d.here)
    (hways : KeepsWays d.tree d'.tree) (hd' : d'.Sound) (hfront : d'.tree.get? (at_ ++ front) = some .directory)
    (hlast : p.chars.getLast? ≠ some '/') (hp : p.Usable) :
    ∃ spot, d'.find p false = .ok spot ∧ spot.place = at_ ++ (front ++ [name]) ∧
      ∀ entry, d'.tree.get? (at_ ++ (front ++ [name])) = some entry → spot = .found (at_ ++ (front ++ [name])) entry := by
  obtain ⟨left, hleft⟩ := h.findTrimmed hhere hways (append_singleton_ne_nil front name) hp
  obtain ⟨hpassable, hname⟩ := List.forall_mem_append.1 (h.passable hp)
  have hname := hname name List.mem_cons_self
  rw [← findTrimmed_of_last hlast, hleft false, follow_down hd'.tree hpassable hfront, ← List.append_assoc]
  cases hget : d'.tree.get? (at_ ++ front ++ [name]) with
  | none =>
    refine ⟨_, (follow_none hname.here hname.up hname.limit hget).trans (if_pos rfl), rfl, fun entry hentry => ?_⟩
    cases hentry
  | some entry =>
    refine ⟨_, follow_last hname.here hname.up hname.limit hget, rfl, fun e hentry => ?_⟩
    cases hentry
    rfl

/-- The name of an entry leads to it from the directory that holds it. -/
theorem Anchored.find_join (hd : d.Sound) (h : d.Anchored p place) (hname : isName name = true)
    (hp : (p.join ⟨name⟩).Usable) :
    ∃ spot, d.find (p.join ⟨name⟩) false = .ok spot ∧ spot.place = place ++ [name] ∧
      ∀ entry, d.tree.get? (place ++ [name]) = some entry → spot = .found (place ++ [name]) entry := by
  have hnames : ∀ n ∈ [name], isName n = true := List.forall_mem_singleton.2 hname
  refine ((Leads.of_anchored h).under hnames).find_end rfl (.of_kept fun _ _ hget => hget) hd ?_
    (Path.getLast?_join p hname) hp
  rw [List.append_nil]
  exact h.get?_place

/-! ### Files -/

theorem read_of_named {data : FileData} (h : d.find p false = .ok (.found place (.file data))) : d.read p = .ok data := by
  rw [read, stat, find_of_named h fun _ _ hspot => by cases hspot]

/-- Nothing or a file stands at the place. -/
def Writable (d : Disk) (place : Place) : Prop :=
  d.tree.get? place = none ∨ ∃ data, d.tree.get? place = some (.file data)

namespace Writable

theorem not_directory (h : d.Writable place) : d.tree.get? place ≠ some .directory := by
  rcases h with hnone | ⟨data, hfile⟩
  · simp [hnone]
  · simp [hfile]

theorem ne_nil (h : d.Writable place) : place ≠ [] := by
  rintro rfl
  exact h.not_directory d.tree.get?_nil

theorem get?_put (h : d.Writable place) (entry : Entry) (q : Place) :
    (d.put place entry).tree.get? q = if q = place then some entry else d.tree.get? q :=
  d.tree.get?_set h.ne_nil entry q

theorem keepsWays (hd : d.Sound) (h : d.Writable place) (entry : Entry) :
    KeepsWays d.tree (d.put place entry).tree := by
  intro q e hget
  rw [h.get?_put]
  by_cases hq : q = place
  · rw [hq] at hget ⊢
    rcases h with hnone | ⟨data, hfile⟩
    · rw [hnone] at hget
      cases hget
    · exact .inr (deadEnd_file hd.tree hfile)
  · rw [if_neg hq]
    exact .inl hget

/-- A path to the place leads to what is put there. -/
theorem find_put (hd : d.Sound) (h : d.Writable spot.place) (hfind : d.find p false = .ok spot) (entry : Entry) :
    (d.put spot.place entry).find p false = .ok (.found spot.place entry) := by
  have hhere : (d.put spot.place entry).here = d.here := rfl
  exact hd.find_replaced hfind h.not_directory hhere (h.keepsWays hd entry) ((h.get?_put entry _).trans (if_pos rfl))

theorem exists_parent (hd : d.Sound) {through : Bool} (h : d.Writable spot.place) (hfind : d.find p through = .ok spot) :
    ∃ parent name, spot.place = parent ++ [name] ∧ d.tree.get? parent = some .directory ∧ isName name = true := by
  cases hd.findText_holds hfind with
  | missing hparent _ hname => exact ⟨_, _, rfl, hparent, hname⟩
  | found hget => exact hd.tree.exists_parent hget h.ne_nil

theorem write (h : d.Writable spot.place) (hfind : d.find p false = .ok spot) (hlast : p.chars.getLast? ≠ some '/')
    (bytes : Bytes) (executable : Bool) :
    ∃ mode, d.write p bytes executable = .ok (d.put spot.place (.file ⟨bytes, d.now, mode⟩)) := by
  have hget : ∀ place entry, spot = .found place entry → ∃ data, entry = .file data := by
    rintro place entry rfl
    have hthere := get?_of_find hfind
    rcases h with hnone | ⟨data, hfile⟩
    · rw [Spot.place, hthere] at hnone
      cases hnone
    · rw [Spot.place, hthere] at hfile
      exact ⟨data, Option.some.inj hfile⟩
  have hthrough := find_of_named hfind fun place text hspot => by
    obtain ⟨data, heq⟩ := hget place _ hspot
    cases heq
  rw [Disk.write, findTrimmed_of_last hlast, hthrough]
  dsimp only
  rw [if_neg hlast]
  cases spot with
  | missing parent name => exact ⟨executable, rfl⟩
  | found place entry =>
    obtain ⟨data, rfl⟩ := hget place entry rfl
    exact ⟨data.executable, rfl⟩

end Writable

end Disk

section CopyData

variable {data : FileData} (hd : d.Sound) (hsource : d.find source false = .ok (.found place (.file data)))
  (htarget : d.find target false = .ok spot) (hspot : d.Writable spot.place)
  (hlast : target.chars.getLast? ≠ some '/')
include hd hsource htarget hspot hlast

/-- The copy holds what is left of the source once the target is open. -/
theorem copyData_eq : ∃ mode, ∀ left, (d.put spot.place (.file ⟨[], d.now, mode⟩)).read source = .ok left →
    copyData source target d = .ok (d.put spot.place (.file ⟨left.bytes, d.now, data.executable⟩)) := by
  have hread := Disk.read_of_named hsource
  obtain ⟨mode, hopen⟩ := hspot.write htarget hlast [] data.executable
  refine ⟨mode, fun left hleft => ?_⟩
  have hopened := hspot.find_put hd htarget (.file ⟨[], d.now, mode⟩)
  have hagain : (d.put spot.place (.file ⟨[], d.now, mode⟩)).write target left.bytes data.executable =
      .ok (d.put spot.place (.file ⟨left.bytes, d.now, mode⟩)) := by
    have hthrough := Disk.find_of_named hopened fun _ _ heq => by cases heq
    rw [Disk.write, Disk.findTrimmed_of_last hlast, hthrough]
    dsimp only
    rw [if_neg hlast]
    simp only [Disk.put, Tree.set_set]
  have hwritten := hspot.find_put hd htarget (.file ⟨left.bytes, d.now, mode⟩)
  have hthrough := Disk.find_of_named hwritten fun _ _ heq => by cases heq
  simp only [copyData, hread, hopen, hleft, hagain, hthrough]
  simp only [Disk.put, Tree.set_set]

/-- **A file is copied with its bytes and its mode.** -/
theorem copyData_apart (hne : place ≠ spot.place) :
    copyData source target d = .ok (d.put spot.place (.file {data with modified := d.now})) := by
  obtain ⟨mode, hcopy⟩ := copyData_eq hd hsource htarget hspot hlast
  have hget := Disk.get?_of_find hsource
  have hhere : (d.put spot.place (.file ⟨[], d.now, mode⟩)).here = d.here := rfl
  have hstill := hd.find_replaced hsource (by simp [Spot.place, hget]) hhere (hspot.keepsWays hd _)
    ((hspot.get?_put _ _).trans ((if_neg hne).trans hget))
  exact hcopy data (Disk.read_of_named hstill)

/-- **A file that is copied onto itself is lost.** -/
theorem copyData_onto_itself (heq : spot.place = place) :
    copyData source target d = .ok (d.put place (.file ⟨[], d.now, data.executable⟩)) := by
  obtain ⟨mode, hcopy⟩ := copyData_eq hd hsource htarget hspot hlast
  rw [heq] at hspot hcopy
  have hplace : d.Writable (Spot.found place (.file data)).place := hspot
  exact hcopy ⟨[], d.now, mode⟩ (Disk.read_of_named (hplace.find_put hd hsource _))

end CopyData

/-! ### Copies -/

/-- The copy of an entry, made at the time `now`. -/
def Entry.copied (now : Int) : Entry → Entry
  | .file data => .file {data with modified := now}
  | .directory => .directory
  | .link target => .link target

theorem Entry.isDirectory_copied (now : Int) (entry : Entry) : (entry.copied now).isDirectory = entry.isDirectory := by
  cases entry <;> rfl

theorem Entry.isLink_copied (now : Int) (entry : Entry) : (entry.copied now).isLink = entry.isLink := by
  cases entry <;> rfl

/-- `d'` holds, by the same names below `goal`, copies of the entries at and below `place` that `S` takes. All else is as
it is in `d`, but for directories on the way to `goal`. -/
structure Copied (S : Place → Prop) (d : Disk) (place goal : Place) (d' : Disk) : Prop extends Persists d d' where
  now : d'.now = d.now
  distinct : d.tree.Distinct → d'.tree.Distinct
  copied : ∀ rel entry, S rel → d.tree.get? (place ++ rel) = some entry →
    d'.tree.get? (goal ++ rel) = some (entry.copied d.now)
  others : ∀ q, d'.tree.get? q = d.tree.get? q ∨ Below q goal ∨
    ∃ rel, S rel ∧ q = goal ++ rel ∧ d.tree.get? (place ++ rel) ≠ none

/-- What is at and below `place`, where `source` leads, can be copied to `goal`, where `target` leads: nothing is a link,
no copy is put where something is copied from, nothing of another kind is in the way, and all paths can be used. -/
structure Copyable (d : Disk) (source target : Path) (place goal : Place) : Prop where
  unlinked : Unlinked d.tree place
  apart : ∀ rel, d.tree.get? (place ++ rel) ≠ none → ¬ place <+: goal ++ rel
  free : ∀ rel entry old, d.tree.get? (place ++ rel) = some entry → d.tree.get? (goal ++ rel) = some old →
    old.isDirectory = entry.isDirectory ∧ old.isLink = false
  usable : ∀ rel, d.tree.get? (place ++ rel) ≠ none → (source.under rel).Usable ∧ (target.under rel).Usable

theorem Persists.of_grown (h : Grown d d') : Persists d d' where
  sound := h.sound
  here := h.here
  kept p entry hget := .inl (h.kept p entry hget)
  links p text hget := (h.gained p _ hget).resolve_right fun heq => by cases heq

theorem Below.of_prefix {q : Place} (h : Below front goal) (hq : q <+: front) : Below q goal := by
  refine ⟨hq.trans h.1, ?_⟩
  rintro rfl
  exact h.2 (h.1.eq_of_length_le hq.length_le)

theorem not_below_append (place rel : Place) : ¬ Below (place ++ rel) place :=
  fun h => h.2 (h.1.eq_of_length_le (List.prefix_append place rel).length_le)

namespace Copied

/-- What is copied from stays as it is. -/
theorem source_kept (h : Copied S d place goal d') (hplace : d.tree.get? place ≠ none)
    (hapart : ∀ rel, d.tree.get? (place ++ rel) ≠ none → ¬ place <+: goal ++ rel) (rel : Place) :
    d'.tree.get? (place ++ rel) = d.tree.get? (place ++ rel) := by
  rcases h.others (place ++ rel) with hsame | hbelow | ⟨rel', -, heq, hrel⟩
  · exact hsame
  · refine absurd ((List.prefix_append place rel).trans (hbelow.1.trans ?_)) (hapart [] ?_)
    · exact List.prefix_append goal []
    · rwa [List.append_nil]
  · exact absurd ⟨rel, heq⟩ (hapart rel' hrel)

theorem congr (h : Copied S d place goal d')
    (hS : ∀ rel, d.tree.get? (place ++ rel) ≠ none → (S rel ↔ T rel)) : Copied T d place goal d' where
  toPersists := h.toPersists
  now := h.now
  distinct := h.distinct
  copied rel entry hT hget := h.copied rel entry ((hS rel (by simp [hget])).2 hT) hget
  others q := (h.others q).imp_right (Or.imp_right fun ⟨rel, hrel, hq, hget⟩ => ⟨rel, (hS rel hget).1 hrel, hq, hget⟩)

/-- A directory that is made is a copy of a directory without what it holds. -/
theorem of_made (h : Made d goal d') (hplace : d.tree.get? place = some .directory) :
    Copied (· = []) d place goal d' where
  toPersists := .of_grown h.toGrown
  now := h.now
  distinct := h.distinct
  copied := by
    rintro rel entry rfl hget
    rw [List.append_nil] at hget ⊢
    rw [hplace] at hget
    cases hget
    exact h.made goal List.prefix_rfl
  others q := by
    by_cases hq : q <+: goal
    · rcases eq_or_below hq with heq | hbelow
      · exact .inr (.inr ⟨[], rfl, by rw [heq, List.append_nil], by simp [hplace]⟩)
      · exact .inr (.inl hbelow)
    · exact .inl (h.others q hq)

theorem of_file {data : FileData} (hd : d.Sound) (hplace : d.tree.get? place = some (.file data))
    (hgoal : d.Writable goal) (hparent : ∃ parent name, goal = parent ++ [name] ∧
      d.tree.get? parent = some .directory ∧ isName name = true) :
    Copied (fun _ => True) d place goal (d.put goal (.file {data with modified := d.now})) where
  toPersists := by
    obtain ⟨parent, name, rfl, hparent, hname⟩ := hparent
    exact (Persists.refl hd).put hparent hname rfl (hgoal.imp_right fun hold => ⟨hold, _, rfl⟩)
  now := rfl
  distinct h := h.set _ _
  copied rel entry _ hget := by
    have hrel := hd.tree.eq_of_file hplace hget (List.prefix_append place rel)
    rw [hrel, hplace] at hget
    cases hget
    rw [(List.append_cancel_left (hrel.trans (List.append_nil place).symm)), List.append_nil, hgoal.get?_put, if_pos rfl]
    rfl
  others q := by
    rw [hgoal.get?_put]
    split
    · exact .inr (.inr ⟨[], trivial, by rw [List.append_nil]; assumption, by simp [hplace]⟩)
    · exact .inl rfl

/-- The copy of a file, after the directories above it were made. -/
theorem after_made (hmade : Made d front d') (hfront : Below front goal)
    (hsource : ∀ rel, d'.tree.get? (place ++ rel) = d.tree.get? (place ++ rel)) (h : Copied S d' place goal d'') :
    Copied S d place goal d'' where
  toPersists := (Persists.of_grown hmade.toGrown).trans h.toPersists
  now := h.now.trans hmade.now
  distinct hdistinct := h.distinct (hmade.distinct hdistinct)
  copied rel entry hS hget := by
    rw [← hmade.now]
    exact h.copied rel entry hS ((hsource rel).trans hget)
  others q := by
    rcases h.others q with hsame | hbelow | ⟨rel, hS, hq, hrel⟩
    · by_cases hq : q <+: front
      · exact .inr (.inl (hfront.of_prefix hq))
      · exact .inl (hsame.trans (hmade.others q hq))
    · exact .inr (.inl hbelow)
    · exact .inr (.inr ⟨rel, hS, hq, by rwa [hsource] at hrel⟩)

/-- **One entry more is copied.** -/
theorem step (h : Copied S d place goal d') (hgoal : d'.tree.get? goal = some .directory)
    (hsource : ∀ rel, d'.tree.get? (place ++ rel) = d.tree.get? (place ++ rel))
    (hstep : Copied (fun _ => True) d' (place ++ [name]) (goal ++ [name]) d'') :
    Copied (fun rel => S rel ∨ [name] <+: rel) d place goal d'' where
  toPersists := h.toPersists.trans hstep.toPersists
  now := hstep.now.trans h.now
  distinct hdistinct := hstep.distinct (h.distinct hdistinct)
  copied rel entry hS hget := by
    by_cases hname : [name] <+: rel
    · obtain ⟨rest, rfl⟩ := hname
      rw [← List.append_assoc, ← h.now]
      refine hstep.copied rest entry trivial ?_
      rw [List.append_assoc]
      exact (hsource _).trans hget
    · have hcopied := h.copied rel entry (hS.resolve_right hname) hget
      rcases hstep.others (goal ++ rel) with hsame | hbelow | ⟨rest, -, heq, -⟩
      · exact hsame.trans hcopied
      · -- Only the directory itself stands above the entry that was copied.
        obtain ⟨hle, hne⟩ := hbelow
        obtain rfl : rel = [] := by
          have hrel : rel <+: [] ++ [name] := (List.prefix_append_right_inj goal).1 hle
          rcases List.prefix_concat_iff.1 hrel with heq | hnil
          · exact absurd (congrArg (goal ++ ·) heq) hne
          · exact List.prefix_nil.1 hnil
        rw [List.append_nil] at hget hcopied ⊢
        rw [hgoal] at hcopied
        rw [hstep.directory hgoal, hcopied]
      · rw [List.append_assoc] at heq
        exact absurd ⟨rest, (List.append_cancel_left heq).symm⟩ hname
  others q := by
    have hbefore : d''.tree.get? q = d'.tree.get? q → d''.tree.get? q = d.tree.get? q ∨ Below q goal ∨
        ∃ rel, (S rel ∨ [name] <+: rel) ∧ q = goal ++ rel ∧ d.tree.get? (place ++ rel) ≠ none := by
      intro hsame
      rw [hsame]
      exact (h.others q).imp_right (Or.imp_right fun ⟨rel, hS, hq, hrel⟩ => ⟨rel, .inl hS, hq, hrel⟩)
    rcases hstep.others q with hsame | ⟨hle, hne⟩ | ⟨rest, -, hq, hrel⟩
    · exact hbefore hsame
    · rcases eq_or_below ((List.prefix_concat_iff.1 hle).resolve_left hne) with heq | hbelow
      · rw [heq] at hgoal
        exact hbefore ((hstep.directory hgoal).trans hgoal.symm)
      · exact .inr (.inl hbelow)
    · rw [List.append_assoc] at hq hrel
      exact .inr (.inr ⟨_, .inr (List.prefix_append [name] rest), hq, by rwa [hsource] at hrel⟩)

end Copied

namespace Copyable

/-- What can be copied still can be when some of it has been. -/
theorem after (h : Copyable d source target place goal) (hplace : d.tree.get? place ≠ none)
    (hcopied : Copied S d place goal d') : Copyable d' source target place goal := by
  have hsource := hcopied.source_kept hplace h.apart
  refine ⟨hcopied.unlinked h.unlinked, fun rel hrel => ?_, fun rel entry old hget hold => ?_, fun rel hrel => ?_⟩
  · exact h.apart rel (by rwa [hsource] at hrel)
  · rw [hsource] at hget
    rcases hcopied.others (goal ++ rel) with hsame | hbelow | ⟨rel', hS, heq, -⟩
    · exact h.free rel entry old hget (hsame.symm.trans hold)
    · exact absurd hbelow (not_below_append goal rel)
    · obtain rfl := List.append_cancel_left heq
      rw [hcopied.copied rel entry hS hget] at hold
      cases hold
      refine ⟨entry.isDirectory_copied _, (entry.isLink_copied _).trans ?_⟩
      cases entry with
      | link text => exact absurd hget (h.unlinked _ text (List.prefix_append place rel))
      | file _ | directory => rfl
  · exact h.usable rel (by rwa [hsource] at hrel)

section End

variable (h : Copyable d source target place goal)
include h

theorem ne (hplace : d.tree.get? place ≠ none) : place ≠ goal := by
  rintro rfl
  exact h.apart [] (by rwa [List.append_nil]) (List.prefix_append place [])

theorem usable_end (hplace : d.tree.get? place ≠ none) : source.Usable ∧ target.Usable :=
  h.usable [] (by rwa [List.append_nil])

theorem free_end {entry : Entry} (hplace : d.tree.get? place = some entry) : d.tree.get? goal = none ∨
    ∃ old, d.tree.get? goal = some old ∧ old.isDirectory = entry.isDirectory ∧ old.isLink = false := by
  cases hgoal : d.tree.get? goal with
  | none => exact .inl rfl
  | some old => exact .inr ⟨old, rfl, h.free [] entry old (by rwa [List.append_nil]) (by rwa [List.append_nil])⟩

theorem writable {data : FileData} (hplace : d.tree.get? place = some (.file data)) : d.Writable goal := by
  refine (h.free_end hplace).imp_right ?_
  rintro ⟨old, hgoal, hdir, hlink⟩
  cases old with
  | file data => exact ⟨data, hgoal⟩
  | directory => cases hdir
  | link _ => cases hlink

theorem admits (hplace : d.tree.get? place = some .directory) :
    d.tree.get? goal = none ∨ d.tree.get? goal = some .directory := by
  refine (h.free_end hplace).imp_right ?_
  rintro ⟨old, hgoal, hdir, -⟩
  cases old with
  | directory => exact hgoal
  | file _ | link _ => cases hdir

end End

/-- What is in a directory can be copied where the directory can be. -/
theorem down (h : Copyable d source target place goal) (name : String) :
    Copyable d (source.join ⟨name⟩) (target.join ⟨name⟩) (place ++ [name]) (goal ++ [name]) where
  unlinked p text hp := h.unlinked p text ((List.prefix_append place [name]).trans hp)
  apart rel hrel hle := by
    rw [List.append_assoc] at hrel hle
    exact h.apart _ hrel ((List.prefix_append place [name]).trans hle)
  free rel entry old hget hold := by
    rw [List.append_assoc] at hget hold
    exact h.free _ entry old hget hold
  usable rel hrel := by
    rw [List.append_assoc] at hrel
    exact h.usable _ hrel

end Copyable

end PluginShading.Files
