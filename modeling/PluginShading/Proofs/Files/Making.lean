import PluginShading.Proofs.Files.Anchor
import PluginShading.Proofs.Files.Listing
import PluginShading.Proofs.Files.Moving
import PluginShading.Proofs.Files.Parents

/-!
Directories made along a path.

A path has a `Way` to a place if it leads to a directory and from there down by names, through nothing but directories
as far as there is anything. Then the directories that are missing can be made (`Disk.Way.createDirectories`), and
nothing else changes (`Made`).
-/
namespace PluginShading.Files

open Disk (withoutSlash)

theorem length_namesIn_le (text : List Char) : (namesIn text).length ≤ text.length + 1 := by
  have hpieces : (Text.pieces '/' text).length ≤ text.length + 1 := by
    induction text with
    | nil => exact Nat.le_refl _
    | cons c rest ih =>
      rw [Text.pieces]
      split
      · rw [List.length_cons, List.length_cons]
        omega
      · split
        · rw [List.length_singleton]
          omega
        · rename_i piece more heq
          rw [heq, List.length_cons] at ih
          rw [List.length_cons, List.length_cons]
          omega
  rw [namesIn, List.length_map]
  exact (List.length_filter_le _ _).trans hpieces

variable {d d' d'' : Disk} {p q : Path} {place at_ goal : Place} {names front : List String} {name : String}

/-! ### Paths that can be used -/

theorem usable_of_prefix (hp : p.Usable) (hstarts : q.chars <+: p.chars)
    (hnames : ∀ n ∈ namesIn q.chars, n ∈ namesIn p.chars) : q.Usable := by
  refine ⟨⟨?_, fun n hn => hp.names n (hnames n hn)⟩, fun hnul => hp.free (hstarts.subset hnul)⟩
  obtain ⟨tail, htail⟩ := hstarts
  have htext : p.text = q.text ++ String.ofList tail := by
    apply String.toList_injective
    rw [String.toList_append, String.toList_ofList]
    exact htail.symm
  have hlength := hp.text
  rw [htext, String.utf8ByteSize_append] at hlength
  exact Nat.lt_of_le_of_lt (Nat.le_add_right _ _) hlength

namespace Disk

/-- The path without separators at its end. -/
def trimmed (p : Path) : Path := ⟨String.ofList (withoutSlash p.chars)⟩

theorem chars_trimmed (p : Path) : (trimmed p).chars = withoutSlash p.chars := String.toList_ofList

theorem usable_trimmed (hp : p.Usable) : (trimmed p).Usable := by
  obtain ⟨count, hcount⟩ := withoutSlash_append p.chars
  refine usable_of_prefix hp ?_ fun n hn => ?_
  · rw [chars_trimmed]
    exact ⟨_, hcount.symm⟩
  · rwa [chars_trimmed, namesIn_withoutSlash] at hn

theorem findTrimmed_of_usable (hp : p.Usable) (through : Bool) :
    d.findTrimmed p through = d.find (trimmed p) through := by
  rw [findTrimmed, if_neg fun hlong => Nat.not_le.2 hp.text hlong.2, find, chars_trimmed]

theorem anchored_trimmed_iff : d.Anchored (trimmed p) place ↔ d.Anchored p place := by
  rw [Anchored, Anchored, start, start, chars_trimmed, head?_withoutSlash, namesIn_withoutSlash]

/-- A path that leads to a directory names something: the directory, or a link to it. -/
theorem Anchored.findTrimmed (h : d.Anchored p place) (hne : p.chars ≠ []) (hp : p.Usable) :
    ∃ q entry, d.findTrimmed p false = .ok (.found q entry) := by
  have hchars : (trimmed p).chars ≠ [] := by
    rw [chars_trimmed]
    exact withoutSlash_ne_nil hne
  have hfind := (anchored_trimmed_iff.2 h).find hchars (usable_trimmed hp)
  rw [findTrimmed_of_usable hp]
  rcases findText_named hfind with hsame | ⟨q, target, hlink⟩
  · exact ⟨place, _, hsame⟩
  · exact ⟨q, _, hlink⟩

theorem Anchored.isDirectory (h : d.Anchored p place) (hne : p.chars ≠ []) (hp : p.Usable) : d.isDirectory p = true :=
  isDirectory_iff.2 ⟨place, h.find hne hp⟩

/-! ### Ways -/

/-- The path leads to the directory `at_` and goes on from there by `names`, which lead down. -/
structure Leads (d : Disk) (p : Path) (at_ : Place) (names : List String) : Prop where
  lead : ∃ lead, namesIn p.chars = lead ++ names ∧
    follow d.tree linkLimit (d.start p) lead true = .ok (.found at_ .directory)
  named : ∀ n ∈ names, isName n = true

/-- On the way down there are directories, as far as there is anything. What stands at the end is not said. -/
structure Way (d : Disk) (p : Path) (at_ : Place) (names : List String) : Prop extends Leads d p at_ names where
  clear : ∀ front more, names = front ++ more → more ≠ [] →
    d.tree.get? (at_ ++ front) = none ∨ d.tree.get? (at_ ++ front) = some .directory

namespace Leads

theorem of_anchored (h : d.Anchored p at_) : d.Leads p at_ [] := ⟨⟨_, (List.append_nil _).symm, h⟩, List.forall_mem_nil _⟩

theorem get?_start (h : d.Leads p at_ names) : d.tree.get? at_ = some .directory := by
  obtain ⟨lead, -, hlead⟩ := h.lead
  exact get?_of_found hlead

theorem under (h : d.Leads p at_ names) (hfront : ∀ n ∈ front, isName n = true) :
    d.Leads (p.under front) at_ (names ++ front) := by
  obtain ⟨lead, hnames, hlead⟩ := h.lead
  refine ⟨⟨lead, ?_, ?_⟩, List.forall_mem_append.2 ⟨h.named, hfront⟩⟩
  · rw [Path.namesIn_under hfront, hnames, List.append_assoc]
  · rwa [start_under hfront]

theorem passable (h : d.Leads p at_ names) (hp : p.Usable) : ∀ n ∈ names, Passable n := by
  obtain ⟨lead, hnames, -⟩ := h.lead
  intro n hn
  exact passable_of_isName (h.named n hn) (hp.names n (hnames ▸ List.mem_append_right lead hn))

theorem chars_ne_nil (h : d.Leads p at_ names) (hne : names ≠ []) : p.chars ≠ [] := by
  obtain ⟨lead, hnames, -⟩ := h.lead
  intro hnil
  rw [hnil] at hnames
  exact hne (List.append_eq_nil_iff.1 hnames.symm).2

section Later

variable (h : d.Leads p at_ names) (hhere : d'.here = d.here) (hways : KeepsWays d.tree d'.tree)
include h hhere hways

/-- The names are followed as long as what leads to their start is there. -/
theorem findTrimmed (hne : names ≠ []) (hp : p.Usable) :
    ∃ left, ∀ through, d'.findTrimmed p through = follow d'.tree left at_ names through := by
  obtain ⟨lead, hnames, hlead⟩ := h.lead
  obtain ⟨left, hleft⟩ := follow_through_found hlead hways
  refine ⟨left, fun through => ?_⟩
  have hchars : (trimmed p).chars ≠ [] := by
    rw [chars_trimmed]
    exact withoutSlash_ne_nil (h.chars_ne_nil hne)
  obtain ⟨htext, hnul, hlimit⟩ := findable_of_usable hchars (usable_trimmed hp)
  rw [findTrimmed_of_usable hp, find, findText, if_neg htext, if_neg hnul, if_neg hlimit, chars_trimmed,
    head?_withoutSlash, steps_withoutSlash (by simp [hnames, hne]), hnames, ← hleft names through hne, start, hhere]

variable (hat : d'.tree.get? at_ = some .directory)
include hat

theorem follow_names : ∃ left, follow d'.tree linkLimit (d'.start p) (namesIn p.chars) true =
    follow d'.tree left at_ names true := by
  obtain ⟨lead, hnames, hlead⟩ := h.lead
  obtain ⟨left, hleft⟩ := follow_through_found hlead hways
  refine ⟨left, ?_⟩
  rw [hnames, start, hhere]
  by_cases hne : names = []
  · have hstay := hleft ["."] true (List.cons_ne_nil _ _)
    rw [follow_here, follow_nil hat] at hstay
    rw [hne, List.append_nil, follow_nil hat]
    exact follow_concat_here hstay
  · exact hleft names true hne

/-- The path leads to the end of the names where that is a directory. -/
theorem anchored_end (hp : p.Usable) (hd' : d'.Sound) (hget : d'.tree.get? (at_ ++ names) = some .directory) :
    d'.Anchored p (at_ ++ names) := by
  obtain ⟨left, hleft⟩ := h.follow_names hhere hways hat
  exact hleft.trans (follow_found hd'.tree (h.passable hp) hget rfl)

/-- Where no link is on the way down, the path leads to the end of the names if anywhere. -/
theorem eq_of_find (hlinks : ∀ front, front ≠ [] → front <+: names → ∀ target,
    d'.tree.get? (at_ ++ front) ≠ some (.link target)) {entry : Entry}
    (hfind : d'.find p true = .ok (.found place entry)) : place = at_ ++ names := by
  obtain ⟨left, hleft⟩ := h.follow_names hhere hways hat
  have hfollow := (find_eq_ok_iff.1 hfind).2
  have hnames : follow d'.tree linkLimit (d'.start p) (namesIn p.chars) true = .ok (.found place entry) := by
    rw [steps_eq] at hfollow
    by_cases hlast : p.chars.getLast? = some '/'
    · rw [if_pos hlast] at hfollow
      exact follow_concat_here hfollow
    · rwa [if_neg hlast, List.append_nil] at hfollow
  exact follow_straight (h.passable (usable_of_find hfind)) hlinks (hleft.symm.trans hnames)

end Later

end Leads

namespace Way

/-- The path above has the way above. -/
theorem parent (h : d.Way p at_ (front ++ [name])) (hp : p.Usable) :
    ∃ q, p.parent = some q ∧ q.Usable ∧ d.Way q at_ front := by
  obtain ⟨lead, hnames, hlead⟩ := h.lead
  obtain ⟨hnamed, hname⟩ := List.forall_mem_append.1 h.named
  rw [← List.append_assoc] at hnames
  obtain ⟨q, count, hparent, hstarts, habsolute, hfront⟩ := Path.exists_parent hnames (hname name List.mem_cons_self)
  have hstart : d.start q = d.start p := by
    simp only [Path.isAbsolute, beq_eq_beq] at habsolute
    simp only [start, habsolute]
  refine ⟨q, hparent, usable_of_prefix hp hstarts fun n hn => ?_, ⟨?_, hnamed⟩, fun before more hbefore hmore => ?_⟩
  · rw [hnames, hfront]
    exact List.mem_append_left _ (List.mem_append_left _ hn)
  · rw [hstart]
    -- Where names are left, the last of them is no dot.
    rcases List.eq_nil_or_concat' front with rfl | ⟨before, last, rfl⟩
    · rw [List.append_nil] at hfront
      rw [hfront] at hlead
      refine ⟨_, (List.append_nil _).symm, ?_⟩
      clear hfront hnames
      induction count with
      | zero => rwa [List.replicate_zero, List.append_nil] at hlead
      | succ count ih =>
        rw [List.replicate_succ', ← List.append_assoc] at hlead
        exact ih (follow_concat_here hlead)
    · cases count with
      | zero =>
        rw [List.replicate_zero, List.append_nil] at hfront
        exact ⟨lead, hfront.symm, hlead⟩
      | succ count =>
        rw [List.replicate_succ', ← List.append_assoc, ← List.append_assoc] at hfront
        obtain rfl : last = "." := by simpa using (List.append_inj' hfront rfl).2
        cases hnamed "." (List.mem_append_right _ List.mem_cons_self)
  · exact h.clear before (more ++ [name]) (by rw [hbefore, List.append_assoc]) (by simp)

end Way

end Disk

/-! ### What is made -/

/-- `d'` is `d` with the directories on the way to `goal`, and nothing else. -/
structure Made (d : Disk) (goal : Place) (d' : Disk) : Prop extends Grown d d' where
  now : d'.now = d.now
  distinct : d.tree.Distinct → d'.tree.Distinct
  made : ∀ q, q <+: goal → d'.tree.get? q = some .directory
  others : ∀ q, ¬ q <+: goal → d'.tree.get? q = d.tree.get? q

namespace Made

theorem of_there (hd : d.Sound) (h : d.tree.get? goal = some .directory) : Made d goal d where
  toGrown := .refl hd
  now := rfl
  distinct h := h
  made _ hq := hd.tree.directory_of_prefix h hq
  others _ _ := rfl

/-- A directory is made in one that was made before. -/
theorem put (h : Made d goal d') (hname : isName name = true) (hnone : d'.tree.get? (goal ++ [name]) = none) :
    Made d (goal ++ [name]) (d'.put (goal ++ [name]) .directory) := by
  have hset : ∀ q, (d'.put (goal ++ [name]) .directory).tree.get? q =
      if q = goal ++ [name] then some .directory else d'.tree.get? q :=
    d'.tree.get?_set (append_singleton_ne_nil goal name) .directory
  refine ⟨(Grown.admitsDirectories d).make h.toGrown (h.made goal List.prefix_rfl) hnone hname, h.now,
    fun hdistinct => (h.distinct hdistinct).set _ _, fun q hq => ?_, fun q hq => ?_⟩
  · rw [hset]
    split
    · rfl
    · exact h.made q ((List.prefix_concat_iff.1 hq).resolve_left ‹_›)
  · rw [hset, if_neg, h.others q]
    · exact fun hfront => hq (hfront.trans (List.prefix_append _ _))
    · rintro rfl
      exact hq List.prefix_rfl

theorem keepsWays (h : Made d goal d') : KeepsWays d.tree d'.tree := .of_kept h.kept

end Made

/-- Where a directory is, there is none to make. -/
theorem Disk.Anchored.makeDirectories {goal : Place} (h : d.Anchored p goal) (hp : p.Usable) {fuel : Nat} :
    Files.makeDirectories fuel d p = (.ok (), d) := by
  by_cases hcomponents : p.components = []
  · unfold Files.makeDirectories
    rw [if_pos hcomponents]
  · have hne : p.chars ≠ [] := fun hnil => hcomponents (by rw [Path.components, hnil]; rfl)
    obtain ⟨at_, entry, hfind⟩ := h.findTrimmed hne hp
    have hmake : d.makeDirectory p = .error .alreadyExists := by rw [makeDirectory, hfind]
    exact makeDirectories_of_there hcomponents hmake (h.isDirectory hne hp)

namespace Disk.Way

theorem components_ne_nil (h : d.Way p at_ (front ++ [name])) (hp : p.Usable) : p.components ≠ [] := by
  obtain ⟨q, hparent, -⟩ := h.parent hp
  intro hnil
  rw [Path.parent, hnil] at hparent
  cases hparent

/-- **The directories on a way can be made.** -/
theorem makeDirectories (hd : d.Sound) (h : d.Way p at_ names) (hp : p.Usable)
    (hgoal : d.tree.get? (at_ ++ names) = none ∨ d.tree.get? (at_ ++ names) = some .directory) {fuel : Nat}
    (hfuel : names.length ≤ fuel + 1) :
    ∃ d', makeDirectories fuel d p = (.ok (), d') ∧ Made d (at_ ++ names) d' := by
  induction names using List.reverseRecOn generalizing p fuel with
  | nil =>
    rw [List.append_nil]
    have hanchored := h.anchored_end rfl (.of_kept fun _ _ hget => hget) h.get?_start hp hd
    rw [List.append_nil] at hanchored
    exact ⟨d, (hanchored h.get?_start).makeDirectories hp, .of_there hd h.get?_start⟩
  | append_singleton front name ih =>
    have hpassable := List.forall_mem_append.1 (h.passable hp)
    have hname := (List.forall_mem_append.1 h.named).2 name List.mem_cons_self
    have hne := append_singleton_ne_nil front name
    rcases hgoal with hnone | hgoal
    · obtain ⟨left, hleft⟩ := h.findTrimmed rfl (.of_kept fun _ _ hget => hget) hne hp
      rw [← List.append_assoc] at hnone
      rcases h.clear front [name] rfl (List.cons_ne_nil _ _) with hlost | hfront
      · -- What is above is made first.
        have hfrontne : front ≠ [] := by
          rintro rfl
          rw [List.append_nil, h.get?_start] at hlost
          cases hlost
        obtain ⟨k, rfl⟩ : ∃ k, fuel = k + 1 := by
          have hpos := List.length_pos_iff.2 hfrontne
          rw [List.length_append, List.length_singleton] at hfuel
          exact ⟨fuel - 1, by omega⟩
        obtain ⟨q, hparent, hq, hway⟩ := h.parent hp
        obtain ⟨above, habove, hmade⟩ := ih hway hq (.inl hlost) (by simpa using hfuel)
        have hmissing : d.makeDirectory p = .error .notFound := by
          rw [makeDirectory, hleft, follow_notFound hpassable.1 (fun before hbefore => ?_) hlost h.get?_start
            (List.cons_ne_nil _ _)]
          obtain ⟨more, rfl⟩ := hbefore
          exact (h.clear before (more ++ [name]) (List.append_assoc _ _ _) (by simp)).symm
        have hstill : above.tree.get? (at_ ++ front ++ [name]) = none := by
          rw [hmade.others, hnone]
          exact fun hstarts => absurd hstarts.length_le (by simp)
        obtain ⟨left', hleft'⟩ := h.findTrimmed hmade.here hmade.keepsWays hne hp
        have hput : above.makeDirectory p = .ok (above.put (at_ ++ front ++ [name]) .directory) := by
          rw [makeDirectory, hleft', follow_missing hmade.sound.tree hpassable.1 (hpassable.2 name List.mem_cons_self)
            (hmade.made _ List.prefix_rfl) hstill]
        exact ⟨_, makeDirectories_of_above (h.components_ne_nil hp) hmissing hparent habove hput,
          by rw [← List.append_assoc]; exact hmade.put hname hstill⟩
      · -- What is above is there.
        have hput : d.makeDirectory p = .ok (d.put (at_ ++ front ++ [name]) .directory) := by
          rw [makeDirectory, hleft, follow_missing hd.tree hpassable.1 (hpassable.2 name List.mem_cons_self) hfront
            hnone]
        exact ⟨_, makeDirectories_of_made (h.components_ne_nil hp) hput,
          by rw [← List.append_assoc]; exact (Made.of_there hd hfront).put hname hnone⟩
    · have hanchored := h.anchored_end rfl (.of_kept fun _ _ hget => hget) h.get?_start hp hd hgoal
      exact ⟨d, hanchored.makeDirectories hp, .of_there hd hgoal⟩

theorem createDirectories {w : World} (hw : w.disk.Sound) (h : w.disk.Way p at_ names) (hp : p.Usable)
    (hgoal : w.disk.tree.get? (at_ ++ names) = none ∨ w.disk.tree.get? (at_ ++ names) = some .directory) :
    ∃ d', createDirectories p w = (.ok (), {w with disk := d'}) ∧ Made w.disk (at_ ++ names) d' := by
  have hfuel : names.length ≤ p.text.length + 1 := by
    obtain ⟨lead, hnames, -⟩ := h.lead
    have hle := length_namesIn_le p.chars
    rw [hnames, List.length_append, Path.chars, String.length_toList] at hle
    exact (Nat.le_add_left _ _).trans hle
  obtain ⟨d', hrun, hmade⟩ := h.makeDirectories hw hp hgoal hfuel
  exact ⟨d', by rw [Files.createDirectories, hrun], hmade⟩

end Disk.Way

/-! ### What was made leads somewhere -/

theorem isDirectory_of_makeDirectory (h : d.makeDirectory p = .ok d') : d'.isDirectory p = true := by
  have hp := usable_of_makeDirectory h
  unfold Disk.makeDirectory at h
  split at h
  · cases h
  · cases h
  rename_i parent name hfind
  cases h
  rw [Disk.findTrimmed_of_usable hp] at hfind
  have hne : p.chars ≠ [] := by
    intro hnil
    have htrimmed := (Disk.findText_eq_ok_iff.1 hfind).1.1
    rw [Disk.chars_trimmed, hnil] at htrimmed
    exact htrimmed rfl
  have hput := Disk.find_of_named (Disk.find_put hfind .directory) fun _ _ hspot => by cases hspot
  exact (Disk.anchored_trimmed_iff.1 (Disk.anchored_of_find hput)).isDirectory hne hp

/-- **A path leads to a directory once its directories are made.** -/
theorem isDirectory_of_createDirectories (hp : p.components ≠ []) {w w' : World}
    (h : createDirectories p w = (.ok (), w')) : w'.disk.isDirectory p = true := by
  unfold createDirectories at h
  split at h
  · rename_i hmade
    cases h
    rcases makeDirectories_eq_ok hp hmade with ⟨before, hmade⟩ | hdir
    · exact isDirectory_of_makeDirectory hmade
    · exact hdir
  · cases h

end PluginShading.Files
