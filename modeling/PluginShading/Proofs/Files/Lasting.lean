import PluginShading.Proofs.Files.Follow

/-!
Paths that keep leading where they led.

No path goes on through a file, nor through a link to one: these are dead ends (`DeadEnd`). A tree that
`KeepsWays` of another has all but dead ends of it. Then a path leads to the last of its names as it did, wherever
that leads now (`follow_last_step`), and a path that led to a directory leads on through that
(`follow_through_found`).
-/
namespace PluginShading.Files

variable {t t' : Tree} {links : Nat} {at_ : Place} {names : List String} {through : Bool} {spot : Spot}

/-! ### Dead ends -/

/-- No path goes on through what is there, and none comes to a directory by it. -/
def DeadEnd (t : Tree) (p : Place) : Prop := ∀ at_ name links rest through spot, p = at_ ++ [name] →
  follow t links at_ (name :: rest) through = .ok spot → rest = [] ∧ ∀ place, spot ≠ .found place .directory

theorem deadEnd_file (ht : t.Sound) {p : Place} {data : FileData} (h : t.get? p = some (.file data)) :
    DeadEnd t p := by
  intro at_ name links rest through spot hp hfollow
  rw [hp] at h
  have hname := ht.named _ _ _ h
  simp only [isName, Bool.and_eq_true, decide_eq_true_eq] at hname
  have hlimit := Nat.not_lt.2 (follow_fits hfollow name List.mem_cons_self)
  rw [follow_file hname.1.2 hname.2 hlimit h] at hfollow
  split at hfollow
  · cases hfollow
    exact ⟨‹_›, fun _ h => by cases h⟩
  · cases hfollow

/-- Behind a file nothing is, however many links may be followed. -/
theorem follow_append_of_file (ht : t.Sound) (hat : t.get? at_ = some .directory) {place : Place} {data : FileData}
    (h : follow t links at_ names true = .ok (.found place (.file data))) {left : Nat} {rest : List String}
    (hrest : follow t left at_ (names ++ rest) through = .ok spot) :
    rest = [] ∧ ∀ place, spot ≠ .found place .directory := by
  generalize hthrough : true = followed at h
  fun_induction follow t links at_ names followed generalizing left with
  | case1 => cases h
  | case2 links at_ entry hget =>
    cases h
    rw [hat] at hget
    cases hget
  | case3 links at_ front ih =>
    rw [List.cons_append, follow_here] at hrest
    exact ih hat hrest h
  | case4 links at_ front ih =>
    rw [List.cons_append, follow_up] at hrest
    exact ih (get?_dropLast ht hat) hrest h
  | case5 => cases h
  | case6 => cases h
  | case7 => cases h
  | case8 links at_ name front hhere hup hlimit hget ih =>
    rw [List.cons_append, follow_directory hhere hup hlimit hget] at hrest
    exact ih hget hrest h
  | case9 links at_ name _ _ _ data hget =>
    exact deadEnd_file ht hget _ _ _ _ _ _ rfl hrest
  | case10 => cases h
  | case11 => cases h
  | case12 => cases h
  | case13 => cases h
  | case14 at_ name front hhere hup hlimit target hget hlast links start htarget ih =>
    rw [List.cons_append] at hrest
    rcases follow_link_cases hhere hup hlimit hget hrest with ⟨hnil, rfl⟩ | ⟨left, hleft⟩
    · exact ⟨(List.append_eq_nil_iff.1 hnil).2, fun _ h => by cases h⟩
    · rw [← List.append_assoc] at hleft
      exact ih (get?_start hat target.toList) hleft h

/-- All that is no dead end in `t` is in `t'` as well. -/
def KeepsWays (t t' : Tree) : Prop := ∀ p entry, t.get? p = some entry → t'.get? p = some entry ∨ DeadEnd t p

theorem KeepsWays.of_kept (h : ∀ p entry, t.get? p = some entry → t'.get? p = some entry) : KeepsWays t t' :=
  fun p entry hget => .inl (h p entry hget)

/-! ### The last step -/

/-- **A path keeps leading to its last step.** What it names may have changed. -/
theorem follow_last_step (h : follow t links at_ names false = .ok spot)
    (hend : ∀ place entry, spot = .found place entry →
      t.Sound ∧ t.get? at_ = some .directory ∧ entry ≠ .directory) :
    ∃ left parent name, spot.place = parent ++ [name] ∧ names.getLast? = some name ∧ Passable name ∧
      ∀ t', KeepsWays t t' → ∀ more through,
        follow t' links at_ (names ++ more) through = follow t' left parent (name :: more) through := by
  generalize hthrough : false = followed at h
  fun_induction follow t links at_ names followed with
  | case1 => cases h
  | case2 links at_ entry hget =>
    cases h
    obtain ⟨-, hat, hentry⟩ := hend _ _ rfl
    rw [hat] at hget
    exact absurd (Option.some.inj hget).symm hentry
  | case3 links at_ rest ih =>
    obtain ⟨left, parent, name, hplace, hlast, hname, hstep⟩ := ih hend h
    refine ⟨left, parent, name, hplace, ?_, hname, fun t' ht' more through => ?_⟩
    · rw [List.getLast?_cons, hlast, Option.getD_some]
    · rw [List.cons_append, follow_here, hstep t' ht']
  | case4 links at_ rest ih =>
    obtain ⟨left, parent, name, hplace, hlast, hname, hstep⟩ := ih (fun place entry hspot =>
      ⟨(hend place entry hspot).1, get?_dropLast (hend place entry hspot).1 (hend place entry hspot).2.1,
        (hend place entry hspot).2.2⟩) h
    refine ⟨left, parent, name, hplace, ?_, hname, fun t' ht' more through => ?_⟩
    · rw [List.getLast?_cons, hlast, Option.getD_some]
    · rw [List.cons_append, follow_up, hstep t' ht']
  | case5 => cases h
  | case6 links at_ last hhere hup hlimit =>
    cases h
    exact ⟨links, at_, last, rfl, rfl, ⟨hhere, hup, hlimit⟩, fun _ _ _ _ => rfl⟩
  | case7 => cases h
  | case8 links at_ first rest hhere hup hlimit hget ih =>
    obtain ⟨left, parent, name, hplace, hlast, hname, hstep⟩ := ih (fun place entry hspot =>
      ⟨(hend place entry hspot).1, hget, (hend place entry hspot).2.2⟩) h
    refine ⟨left, parent, name, hplace, ?_, hname, fun t' ht' more through => ?_⟩
    · rw [List.getLast?_cons, hlast, Option.getD_some]
    · have hstill := (ht' _ _ hget).resolve_right fun hdead => by
        obtain ⟨rfl, -⟩ := hdead _ _ _ _ _ _ rfl ((follow_directory hhere hup hlimit hget).trans h)
        cases hlast
      rw [List.cons_append, follow_directory hhere hup hlimit hstill, hstep t' ht']
  | case9 links at_ name hhere hup hlimit =>
    cases h
    exact ⟨links, at_, name, rfl, rfl, ⟨hhere, hup, hlimit⟩, fun _ _ _ _ => rfl⟩
  | case10 => cases h
  | case11 links at_ name rest hhere hup hlimit target _ hlast =>
    cases h
    obtain ⟨rfl, -⟩ := hlast
    exact ⟨links, at_, name, rfl, rfl, ⟨hhere, hup, hlimit⟩, fun _ _ _ _ => rfl⟩
  | case12 => cases h
  | case13 => cases h
  | case14 at_ first rest hhere hup hlimit target hget hlast links start htarget ih =>
    have hrest : rest ≠ [] := fun hnil => hlast ⟨hnil, hthrough.symm⟩
    have htarget : target.isEmpty = false := by simpa using htarget
    obtain ⟨left, parent, name, hplace, hname, hpassable, hstep⟩ := ih (fun place entry hspot =>
      ⟨(hend place entry hspot).1, get?_start (hend place entry hspot).2.1 target.toList,
        (hend place entry hspot).2.2⟩) h
    refine ⟨left, parent, name, hplace, ?_, hpassable, fun t' ht' more through => ?_⟩
    · rw [List.getLast?_append, List.getLast?_eq_some_getLast hrest, Option.some_or] at hname
      rw [List.getLast?_cons, List.getLast?_eq_some_getLast hrest, Option.getD_some, hname]
    · have hstill := (ht' _ _ hget).resolve_right fun hdead => hrest
        (hdead _ _ _ _ _ _ rfl ((follow_link hhere hup hlimit hget hlast htarget).trans h)).1
      have hmore : ¬ (rest ++ more = [] ∧ through = false) := fun hnil => hrest (List.append_eq_nil_iff.1 hnil.1).1
      rw [List.cons_append, follow_link hhere hup hlimit hstill hmore htarget, ← List.append_assoc]
      exact hstep t' ht' more through

section Missing

variable {parent : Place} {name : String} (h : follow t links at_ names false = .ok (.missing parent name))
include h

/-- A path to a missing entry leads to it. -/
theorem missing_last_step : names.getLast? = some name ∧ Passable name ∧ ∃ left, ∀ t', KeepsWays t t' →
    ∀ more through, follow t' links at_ (names ++ more) through = follow t' left parent (name :: more) through := by
  obtain ⟨left, parent', name', hplace, hlast, hname, hstep⟩ := follow_last_step h fun _ _ hspot => by cases hspot
  obtain ⟨rfl, heq⟩ := List.append_inj' (show parent ++ [name] = parent' ++ [name'] from hplace) rfl
  cases heq
  exact ⟨hlast, hname, left, hstep⟩

/-- **A path to a missing entry leads on through it once the entry is a directory.** -/
theorem follow_through (ht' : KeepsWays t t') (hmade : t'.get? (parent ++ [name]) = some .directory) :
    ∃ left, ∀ more through, follow t' links at_ (names ++ more) through =
      follow t' left (parent ++ [name]) more through := by
  obtain ⟨-, hname, left, hstep⟩ := missing_last_step h
  refine ⟨left, fun more through => ?_⟩
  rw [hstep t' ht', follow_directory hname.here hname.up hname.limit hmade]

/-- Where a path leads to a missing entry, a longer one leads nowhere. -/
theorem follow_append_of_missing {more : List String} (hmore : more ≠ []) (through : Bool) :
    follow t links at_ (names ++ more) through = .error .notFound := by
  obtain ⟨-, hname, left, hstep⟩ := missing_last_step h
  rw [hstep t (.of_kept fun _ _ hget => hget), follow_none hname.here hname.up hname.limit (get?_of_missing h),
    if_neg hmore]

/-- A path to a missing entry leads to the entry once it is there. -/
theorem follow_made (ht' : KeepsWays t t') {entry : Entry} (hmade : t'.get? (parent ++ [name]) = some entry) :
    follow t' links at_ names false = .ok (.found (parent ++ [name]) entry) := by
  obtain ⟨-, hname, left, hstep⟩ := missing_last_step h
  have hlast := hstep t' ht' [] false
  rwa [List.append_nil, follow_last hname.here hname.up hname.limit hmade] at hlast

end Missing

section Found

variable {p : Place} {entry : Entry} (ht : t.Sound) (hat : t.get? at_ = some .directory)
  (h : follow t links at_ names false = .ok (.found p entry)) (hentry : entry ≠ .directory)
include ht hat h hentry

/-- A path to what is no directory leads to what comes to stand in its place. -/
theorem follow_replaced (ht' : KeepsWays t t') {entry' : Entry} (hget : t'.get? p = some entry') :
    follow t' links at_ names false = .ok (.found p entry') := by
  obtain ⟨left, parent, name, hplace, -, hname, hstep⟩ := follow_last_step h fun place entry hspot => by
    cases hspot
    exact ⟨ht, hat, hentry⟩
  obtain rfl : p = parent ++ [name] := hplace
  have hlast := hstep t' ht' [] false
  rwa [List.append_nil, follow_last hname.here hname.up hname.limit hget] at hlast

/-- A path to what is no directory leads nowhere once that is gone. -/
theorem follow_removed (ht' : KeepsWays t t') (hnone : t'.get? p = none) :
    ∃ parent name, p = parent ++ [name] ∧ follow t' links at_ names false = .ok (.missing parent name) := by
  obtain ⟨left, parent, name, hplace, -, hname, hstep⟩ := follow_last_step h fun place entry hspot => by
    cases hspot
    exact ⟨ht, hat, hentry⟩
  obtain rfl : p = parent ++ [name] := hplace
  have hlast := hstep t' ht' [] false
  rw [List.append_nil, follow_none hname.here hname.up hname.limit hnone, if_pos rfl] at hlast
  exact ⟨parent, name, rfl, hlast⟩

/-- What a path to a file names is a dead end, be it the file or a link. -/
theorem deadEnd_named {place : Place} {data : FileData}
    (hfile : follow t links at_ names true = .ok (.found place (.file data))) : DeadEnd t p := by
  obtain ⟨left, parent, name, hplace, -, hname, hstep⟩ := follow_last_step h fun place entry hspot => by
    cases hspot
    exact ⟨ht, hat, hentry⟩
  obtain rfl : p = parent ++ [name] := hplace
  have hlast := hstep t (.of_kept fun _ _ hget => hget) [] true
  have hget := get?_of_found h
  rw [List.append_nil, hfile] at hlast
  cases entry with
  | file data => exact deadEnd_file ht hget
  | directory => contradiction
  | link target =>
    obtain ⟨-, hspot⟩ | ⟨left', hfollow⟩ :=
      follow_link_cases hname.here hname.up hname.limit hget hlast.symm
    · cases hspot
    rw [List.append_nil] at hfollow
    have hstart := get?_start (ht.parent _ _ _ hget) target.toList
    intro at' name' links' rest through spot heq hrest
    obtain ⟨rfl, hsame⟩ := List.append_inj' heq rfl
    cases hsame
    rcases follow_link_cases hname.here hname.up hname.limit hget hrest with ⟨hnil, rfl⟩ | ⟨more, hmore⟩
    · exact ⟨hnil, fun _ h => by cases h⟩
    · exact follow_append_of_file ht hstart hfollow hmore

end Found

/-! ### More to follow -/

/-- What is found is found as well where all that there is and more is there. -/
theorem follow_found_of_kept (hkept : ∀ p entry, t.get? p = some entry → t'.get? p = some entry) {place : Place}
    {entry : Entry} (h : follow t links at_ names through = .ok (.found place entry)) :
    follow t' links at_ names through = .ok (.found place entry) := by
  fun_induction follow t links at_ names through with
  | case1 => cases h
  | case2 links at_ entry hget =>
    rw [follow_nil (hkept _ _ hget)]
    exact h
  | case3 links at_ rest ih =>
    rw [follow_here]
    exact ih h
  | case4 links at_ rest ih =>
    rw [follow_up]
    exact ih h
  | case5 => cases h
  | case6 => cases h
  | case7 => cases h
  | case8 links at_ name rest hhere hup hlimit hget ih =>
    rw [follow_directory hhere hup hlimit (hkept _ _ hget)]
    exact ih h
  | case9 links at_ name hhere hup hlimit data hget =>
    rw [follow_file hhere hup hlimit (hkept _ _ hget), if_pos rfl]
    exact h
  | case10 => cases h
  | case11 links at_ name rest hhere hup hlimit target hget hlast =>
    obtain ⟨rfl, rfl⟩ := hlast
    rw [follow_last hhere hup hlimit (hkept _ _ hget)]
    exact h
  | case12 => cases h
  | case13 => cases h
  | case14 at_ name rest hhere hup hlimit target hget hlast links start hempty ih =>
    rw [follow_link hhere hup hlimit (hkept _ _ hget) hlast (by simpa using hempty)]
    exact ih h

/-! ### Through directories -/

/-- **A path to a directory leads on through it**, as long as what was on the way is still there. -/
theorem follow_through_found {place : Place}
    (h : follow t links at_ names true = .ok (.found place .directory)) (ht' : KeepsWays t t') :
    ∃ left, ∀ more through, more ≠ [] →
      follow t' links at_ (names ++ more) through = follow t' left place more through := by
  generalize hthrough : true = followed at h
  fun_induction follow t links at_ names followed with
  | case1 => cases h
  | case2 links at_ =>
    cases h
    exact ⟨links, fun more through _ => rfl⟩
  | case3 links at_ rest ih =>
    obtain ⟨left, hleft⟩ := ih h
    exact ⟨left, fun more through hmore => by rw [List.cons_append, follow_here, hleft more through hmore]⟩
  | case4 links at_ rest ih =>
    obtain ⟨left, hleft⟩ := ih h
    exact ⟨left, fun more through hmore => by rw [List.cons_append, follow_up, hleft more through hmore]⟩
  | case5 => cases h
  | case6 => cases h
  | case7 => cases h
  | case8 links at_ first rest hhere hup hlimit hget ih =>
    obtain ⟨left, hleft⟩ := ih h
    refine ⟨left, fun more through hmore => ?_⟩
    have hstill := (ht' _ _ hget).resolve_right fun hdead =>
      (hdead _ _ _ _ _ _ rfl ((follow_directory hhere hup hlimit hget).trans h)).2 _ rfl
    rw [List.cons_append, follow_directory hhere hup hlimit hstill, hleft more through hmore]
  | case9 => cases h
  | case10 => cases h
  | case11 => cases h
  | case12 => cases h
  | case13 => cases h
  | case14 at_ first rest hhere hup hlimit target hget hlast links start htarget ih =>
    obtain ⟨left, hleft⟩ := ih h
    refine ⟨left, fun more through hmore => ?_⟩
    have hstill := (ht' _ _ hget).resolve_right fun hdead => (hdead _ _ _ _ _ _ rfl
      ((follow_link hhere hup hlimit hget hlast (by simpa using htarget)).trans h)).2 _ rfl
    have hrest : ¬ (rest ++ more = [] ∧ through = false) :=
      fun hnil => hmore (List.append_eq_nil_iff.1 hnil.1).2
    rw [List.cons_append, follow_link hhere hup hlimit hstill hrest (by simpa using htarget),
      ← List.append_assoc]
    exact hleft more through hmore

namespace Disk

theorem find_made {d d' : Disk} {p : Path} {parent : Place} {name : String} {entry : Entry}
    (h : d.find p false = .ok (.missing parent name)) (hhere : d'.here = d.here) (ht' : KeepsWays d.tree d'.tree)
    (hmade : d'.tree.get? (parent ++ [name]) = some entry) :
    d'.find p false = .ok (.found (parent ++ [name]) entry) := by
  obtain ⟨hfindable, hfollow⟩ := findText_eq_ok_iff.1 h
  refine findText_eq_ok_iff.2 ⟨hfindable, ?_⟩
  rw [hhere]
  exact follow_made hfollow ht' hmade

/-- What is put where a path leads nowhere is found by the path. -/
theorem find_put {d : Disk} {p : Path} {parent : Place} {name : String}
    (h : d.find p false = .ok (.missing parent name)) (entry : Entry) :
    (d.put (parent ++ [name]) entry).find p false = .ok (.found (parent ++ [name]) entry) := by
  have hnone := get?_of_findText_missing h
  have hset := d.tree.get?_set (append_singleton_ne_nil parent name) entry
  refine find_made h rfl (.of_kept fun q e hget => (hset q).trans ((if_neg ?_).trans hget))
    ((hset _).trans (if_pos rfl))
  rintro rfl
  rw [hget] at hnone
  cases hnone

end Disk

end PluginShading.Files
