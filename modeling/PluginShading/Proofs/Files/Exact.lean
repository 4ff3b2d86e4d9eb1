import PluginShading.Proofs.Files.Replica

/-!
What a copy comes to.

With nothing in the way, and no copy put where something is copied from, a directory is copied as it is
(`copyDirectory_exact`), and so is a file (`copy_exact`). Otherwise not: a directory is never copied into itself
(`copy_into_itself`), and a file that is copied onto itself is emptied (`copy_onto_itself`). Nothing looks whether the
target lies in the source.
-/
namespace PluginShading.Files

open Act (Yields)

variable {d d' : Disk} {source target p : Path} {place goal at_ front names : List String} {name : String}

/-! ### Directories on the way -/

namespace Disk.Way

/-- A name leads on from the directory that a path leads to. -/
theorem of_anchored {q : Path} (h : d.Anchored p place) (hname : isName name = true) (hq : p.join ⟨name⟩ = q) :
    d.Way q place [name] where
  toLeads := hq ▸ (Leads.of_anchored h).under (List.forall_mem_singleton.2 hname)
  clear front more hnames hmore := by
    obtain rfl : front = [] := by
      cases front with
      | nil => rfl
      | cons first rest =>
        obtain ⟨-, hrest⟩ := List.cons_eq_cons.1 hnames
        exact absurd (List.append_eq_nil_iff.1 hrest.symm).2 hmore
    rw [List.append_nil]
    exact .inr h.get?_place

theorem yields_createDirectories (hd : d.Sound) (h : d.Way p at_ names) (hp : p.Usable)
    (hgoal : d.tree.get? (at_ ++ names) = none ∨ d.tree.get? (at_ ++ names) = some .directory) :
    Yields (Files.createDirectories p) d fun _ => Made d (at_ ++ names) := by
  rintro w rfl
  obtain ⟨d', hrun, hmade⟩ := h.createDirectories hd hp hgoal
  exact ⟨(), _, hrun, hmade⟩

/-- What is on a way is no link, unless it is the end. -/
theorem not_link (h : d.Way p at_ names)
    (hgoal : ∀ text, d.tree.get? (at_ ++ names) ≠ some (.link text)) :
    ∀ front, front ≠ [] → front <+: names → ∀ text, d.tree.get? (at_ ++ front) ≠ some (.link text) := by
  rintro front - ⟨more, hmore⟩ text hlink
  by_cases hnil : more = []
  · rw [hnil, List.append_nil] at hmore
    exact hgoal text (hmore ▸ hlink)
  · rcases h.clear front more hmore.symm hnil with hnone | hdir
    · rw [hnone] at hlink
      cases hlink
    · rw [hdir] at hlink
      cases hlink

theorem yields_ensureDirectory (hd : d.Sound) (h : d.Way p at_ names) (hp : p.Usable)
    (hgoal : d.tree.get? (at_ ++ names) = none ∨ d.tree.get? (at_ ++ names) = some .directory) :
    Yields (ensureDirectory p) d fun _ => Made d (at_ ++ names) := by
  refine Yields.disk.bind ?_
  rintro _ _ ⟨rfl, rfl⟩
  split
  · rename_i hexists
    -- What the path leads to is what stands at the end of the way.
    refine Yields.pure (.of_there hd ?_)
    unfold exists? stat at hexists
    split at hexists
    · rename_i entry hstat
      split at hstat
      · cases hstat
      · cases hstat
      rename_i q e hfind
      have hq := h.eq_of_find rfl (.of_kept fun _ _ hget => hget) h.get?_start (h.not_link fun text hlink => by
        rcases hgoal with hnone | hdir
        · rw [hnone] at hlink
          cases hlink
        · rw [hdir] at hlink
          cases hlink) hfind
      have hget := get?_of_find hfind
      rw [hq] at hget
      rcases hgoal with hnone | hdir
      · rw [hnone] at hget
        cases hget
      · exact hdir
    · cases hexists
  · exact h.yields_createDirectories hd hp hgoal

end Disk.Way

/-! ### Files -/

/-- **A file is copied to a place of its own.** -/
theorem copyFile_exact {data : FileData} {spot : Spot} (hd : d.Sound)
    (hsource : d.find source false = .ok (.found place (.file data))) (htarget : d.find target false = .ok spot)
    (hspot : d.Writable spot.place) (hlast : target.chars.getLast? ≠ some '/') (hne : place ≠ spot.place) :
    Yields (copyFile source target) d fun _ => Copied (fun _ => True) d place spot.place := by
  refine (Yields.change (copyData_apart hd hsource htarget hspot hlast hne)).weaken ?_
  rintro _ _ rfl
  exact .of_file hd (Disk.get?_of_find hsource) hspot (hspot.exists_parent hd htarget)

/-! ### Directories -/

/-- What is done with an entry copies it, if that is so for directories. -/
theorem copyEntry_exact {fuel : Nat} {entry : Entry} (hd : d.Sound) (hfrom : d.Anchored source place)
    (hto : d.Anchored target goal) (hget : d.tree.get? (place ++ [name]) = some entry)
    (h : Copyable d (source.join ⟨name⟩) (target.join ⟨name⟩) (place ++ [name]) (goal ++ [name]))
    (hdirectory : entry = .directory → Yields (copyDirectory fuel (source.join ⟨name⟩) (target.join ⟨name⟩)) d fun _ =>
      Copied (fun _ => True) d (place ++ [name]) (goal ++ [name])) :
    Yields (copyEntry fuel source target (name, entry)) d fun _ =>
      Copied (fun _ => True) d (place ++ [name]) (goal ++ [name]) := by
  have hplace : d.tree.get? (place ++ [name]) ≠ none := by simp [hget]
  have hname := hd.tree.named _ _ _ hget
  cases entry with
  | link text => exact absurd hget (h.unlinked _ text List.prefix_rfl)
  | directory => exact hdirectory rfl
  | file data =>
    obtain ⟨husable, husable'⟩ := h.usable_end hplace
    obtain ⟨spot, hfind, -, hspot⟩ := hfrom.find_join hd hname husable
    obtain ⟨spot', hfind', hplace', -⟩ := hto.find_join hd hname husable'
    rw [hspot _ hget] at hfind
    rw [← hplace'] at h ⊢
    exact copyFile_exact hd hfind hfind' (h.writable hget) (Path.getLast?_join target hname) (h.ne hplace)

/-- **A directory is copied as it is**, by induction on the levels that may still be gone down: what has been copied when
a round of the loop begins stays copied, and what is left to copy is as it was. -/
theorem copyDirectory_exact {fuel : Nat} (hd : d.Sound) (hdistinct : d.tree.Distinct)
    (hsource : d.Anchored source place) (hne : source.chars ≠ []) (htarget : d.Way target at_ names)
    (hfuel : Enough fuel target) (h : Copyable d source target place (at_ ++ names)) :
    Yields (copyDirectory fuel source target) d fun _ => Copied (fun _ => True) d place (at_ ++ names) := by
  induction fuel generalizing d source target place at_ names with
  | zero =>
    have hplace := hsource.get?_place
    rintro w rfl
    obtain ⟨_, _, hrun, -⟩ := htarget.yields_createDirectories hd (h.usable_end (by simp [hplace])).2 (h.admits hplace) w rfl
    obtain ⟨k, hk⟩ := hfuel.pos hrun
    cases hk
  | succ fuel ih =>
    have hdirectory := hsource.get?_place
    have hplace : d.tree.get? place ≠ none := by simp [hdirectory]
    obtain ⟨husable, husable'⟩ := h.usable_end hplace
    rw [copyDirectory_succ]
    refine (htarget.yields_createDirectories hd husable' (h.admits hdirectory)).bind fun _ d₁ hmade => ?_
    have hstart := Copied.of_made hmade hdirectory
    have hanchored := hsource.kept hstart.here (hstart.keepsWays hd) (hstart.directory hdirectory)
    have hlist : d₁.list source = .ok (d₁.tree.children place) := by
      rw [Disk.list, hanchored.find hne husable]
      rfl
    have hlisted : ∀ name entry, (name, entry) ∈ d₁.tree.children place ↔ d.tree.get? (place ++ [name]) = some entry := by
      intro name entry
      rw [Tree.mem_children_iff (hmade.distinct hdistinct), hstart.source_kept hplace h.apart]
    refine (Yields.ask hlist).bind ?_
    rintro _ _ ⟨rfl, rfl⟩
    refine (Yields.forM (I := fun before =>
      Copied (fun rel => rel = [] ∨ ∃ e ∈ before, [e.1] <+: rel) d place (at_ ++ names)) ?_ ?_).weaken ?_
    · exact hstart.congr fun rel _ => by simp
    · rintro before ⟨name, entry⟩ after d' hsplit hcopied
      have hkept := hcopied.source_kept hplace h.apart
      have hget : d'.tree.get? (place ++ [name]) = some entry :=
        (hkept _).trans ((hlisted name entry).1 (by rw [hsplit]; simp))
      have hd' := hcopied.sound
      have hname := hd'.tree.named _ _ _ hget
      have hgoal : d'.tree.get? (at_ ++ names) = some .directory := by
        have hself := hcopied.copied [] .directory (.inl rfl) (by rwa [List.append_nil])
        rwa [List.append_nil] at hself
      have hfrom := hsource.kept hcopied.here (hcopied.keepsWays hd) (hcopied.directory hdirectory)
      have hto := htarget.anchored_end hcopied.here (hcopied.keepsWays hd) (hcopied.directory htarget.get?_start) husable'
        hd' hgoal
      have hchild := (h.after hplace hcopied).down name
      refine (copyEntry_exact hd' hfrom hto hget hchild ?_).weaken fun _ _ hstep =>
        (hcopied.step hgoal hkept hstep).congr fun rel _ => by simp [or_assoc]
      rintro rfl
      have hdown := (Disk.Leads.of_anchored hfrom).under (List.forall_mem_singleton.2 hname)
      refine ih hd' (hcopied.distinct hdistinct) ?_ (Path.join_ne_nil source hname) (.of_anchored hto hname rfl)
        (hfuel.join hname) hchild
      exact hdown.anchored_end rfl (.of_kept fun _ _ hget => hget) hfrom.get?_place (hchild.usable_end (by simp [hget])).1
        hd' hget
    · -- What is below the source is below an entry that was listed.
      intro _ d' hcopied
      refine hcopied.congr fun rel hrel => ⟨fun _ => trivial, fun _ => ?_⟩
      cases rel with
      | nil => exact .inl rfl
      | cons name rest =>
        have hfront : place ++ [name] <+: place ++ name :: rest :=
          (List.prefix_append_right_inj place).2 (List.prefix_append [name] rest)
        obtain ⟨entry, hentry⟩ := Option.ne_none_iff_exists'.1 fun hnone => hrel (hd.tree.none_of_prefix hnone hfront)
        exact .inr ⟨_, (hlisted name entry).2 hentry, List.prefix_append [name] rest⟩

/-! ### Either -/

section Copy

variable {w : World} {data : FileData}

theorem ask_named {entry : Entry} (h : w.disk.find source false = .ok (.found place entry)) :
    Act.ask (.statInput source) (·.statLink source) w = (.ok entry, w) := by
  rw [Act.ask, Disk.statLink, h]

theorem copy_of_directory (h : w.disk.find source false = .ok (.found place .directory)) :
    copy source target w = copyDirectory pathLimit source target w := Act.bind_of_ok (ask_named h)

theorem copy_of_file (h : w.disk.find source false = .ok (.found place (.file data))) :
    copy source target w = (ensureParent target >>= fun _ => copyFile source target) w := Act.bind_of_ok (ask_named h)

theorem copy_yields_of_file {Q : Unit → Disk → Prop} (h : d.find source false = .ok (.found place (.file data)))
    (hrun : Yields (ensureParent target >>= fun _ => copyFile source target) d Q) : Yields (copy source target) d Q := by
  rintro w rfl
  rw [copy_of_file h]
  exact hrun w rfl

theorem copy_of_link {text : String} (h : w.disk.find source false = .ok (.found place (.link text))) :
    copy source target w = (.error (.because (.unsupportedInput source)), w) := Act.bind_of_ok (ask_named h)

theorem anchored_of_named (h : d.find source false = .ok (.found place .directory)) : d.Anchored source place :=
  Disk.anchored_of_find (Disk.find_of_named h fun _ _ hspot => by cases hspot)

/-- Before a file is copied the directories above the target are made, so that the target leads to its place. -/
theorem yields_ensureParent (hd : d.Sound) (hsource : d.find source false = .ok (.found place (.file data)))
    (htarget : d.Way target at_ names) (hlast : target.chars.getLast? ≠ some '/') (husable : target.Usable)
    (hgoal : d.Writable (at_ ++ names)) : ∃ front, Below front (at_ ++ names) ∧
      Yields (ensureParent target) d fun _ d' => Made d front d' ∧ d'.Writable (at_ ++ names) ∧
        d'.find source false = .ok (.found place (.file data)) ∧
        ∃ spot, d'.find target false = .ok spot ∧ spot.place = at_ ++ names := by
  rcases List.eq_nil_or_concat' names with rfl | ⟨front, name, rfl⟩
  · rw [List.append_nil] at hgoal
    exact absurd htarget.get?_start hgoal.not_directory
  obtain ⟨parent, hparent, husable', hway⟩ := htarget.parent husable
  have hbelow : Below (at_ ++ front) (at_ ++ (front ++ [name])) := by
    rw [← List.append_assoc]
    exact below_append_singleton _ name
  refine ⟨at_ ++ front, hbelow, ?_⟩
  rw [ensureParent, hparent]
  refine (hway.yields_ensureDirectory hd husable' (htarget.clear front [name] rfl (List.cons_ne_nil _ _))).weaken ?_
  intro _ d' hmade
  have hget := hmade.kept _ _ (Disk.get?_of_find hsource)
  refine ⟨hmade, ?_, ?_, ?_⟩
  · rw [Disk.Writable, hmade.others _ fun hle => hbelow.2 (hbelow.1.eq_of_length_le hle.length_le)]
    exact hgoal
  · exact hd.find_replaced hsource (by simp [Spot.place, Disk.get?_of_find hsource]) hmade.here hmade.keepsWays hget
  · obtain ⟨spot, hfind, hplace, -⟩ :=
      htarget.find_end hmade.here hmade.keepsWays hmade.sound (hmade.made _ List.prefix_rfl) hlast husable
    exact ⟨spot, hfind, hplace⟩

/-- **A copy is exact** where nothing is in its way and it is not put into its source. -/
theorem copy_exact {entry : Entry} (hd : d.Sound) (hdistinct : d.tree.Distinct)
    (hsource : d.find source false = .ok (.found place entry)) (htarget : d.Way target at_ names)
    (hlast : entry.isFile = true → target.chars.getLast? ≠ some '/')
    (h : Copyable d source target place (at_ ++ names)) :
    Yields (copy source target) d fun _ => Copied (fun _ => True) d place (at_ ++ names) := by
  have hget := Disk.get?_of_find hsource
  have hplace : d.tree.get? place ≠ none := by simp [hget]
  cases entry with
  | link text => exact absurd hget (h.unlinked place text List.prefix_rfl)
  | directory =>
    rintro w rfl
    rw [copy_of_directory hsource]
    exact copyDirectory_exact hd hdistinct (anchored_of_named hsource) (Disk.find_eq_ok_iff.1 hsource).1.1 htarget
      (enough_pathLimit target) h w rfl
  | file data =>
    have hlast := hlast rfl
    obtain ⟨front, hfront, habove⟩ :=
      yields_ensureParent hd hsource htarget hlast (h.usable_end hplace).2 (h.writable hget)
    refine copy_yields_of_file hsource (habove.bind ?_)
    rintro _ d' ⟨hmade, hwritable, hfind, spot, hspot, hgoal⟩
    rw [← hgoal] at hwritable
    refine (copyFile_exact hmade.sound hfind hspot hwritable hlast (hgoal ▸ h.ne hplace)).weaken fun _ d'' hcopied => ?_
    rw [hgoal] at hcopied
    refine .after_made hmade hfront (fun rel => ?_) hcopied
    cases hrel : d.tree.get? (place ++ rel) with
    | some e => exact hmade.kept _ _ hrel
    | none =>
      refine (hmade.others _ fun hle => ?_).trans hrel
      refine h.apart [] (by rwa [List.append_nil]) ((List.prefix_append place rel).trans (hle.trans ?_))
      exact hfront.1.trans (List.prefix_append _ [])

/-- **A file that is copied onto itself is lost**: the copy succeeds and leaves it empty. -/
theorem copy_onto_itself (hd : d.Sound) (hsource : d.find source false = .ok (.found place (.file data)))
    (htarget : d.Way target at_ names) (hlast : target.chars.getLast? ≠ some '/') (husable : target.Usable)
    (hsame : at_ ++ names = place) : Yields (copy source target) d fun _ d' =>
      d'.tree.get? place = some (.file ⟨[], d.now, data.executable⟩) := by
  have hgoal : d.Writable (at_ ++ names) := .inr ⟨data, hsame ▸ Disk.get?_of_find hsource⟩
  obtain ⟨front, hfront, habove⟩ := yields_ensureParent hd hsource htarget hlast husable hgoal
  refine copy_yields_of_file hsource (habove.bind ?_)
  rintro _ d' ⟨hmade, hwritable, hfind, spot, hspot, hplace⟩
  rw [← hplace] at hwritable
  have hcopy := copyData_onto_itself hmade.sound hfind hspot hwritable hlast (hplace.trans hsame)
  refine (Yields.change hcopy).weaken fun _ _ hleft => ?_
  rw [hplace, hsame] at hwritable
  rw [hleft, hwritable.get?_put, if_pos rfl, hmade.now]

/-! ### Failure -/

/-- A copy that meets a link fails. -/
theorem copy_unlinked {entry : Entry} {w' : World} (hw : w.disk.Sound)
    (hsource : w.disk.find source false = .ok (.found place entry)) (h : copy source target w = (.ok (), w')) :
    Unlinked w.disk.tree place := by
  have hget := Disk.get?_of_find hsource
  cases entry with
  | link text =>
    rw [copy_of_link hsource] at h
    cases h
  | directory =>
    rw [copy_of_directory hsource] at h
    exact copyDirectory_unlinked hw (anchored_of_named hsource) (.refl hw) (enough_pathLimit target) h
  | file data =>
    intro p text hp hlink
    rw [hw.tree.eq_of_file hget hlink hp, hget] at hlink
    cases hlink

/-- A directory cannot be copied into itself. -/
theorem copy_into_itself {w' : World} (hw : w.disk.Sound)
    (hsource : w.disk.find source false = .ok (.found place .directory)) (hlinks : Unlinked w.disk.tree place)
    (htarget : w.disk.Way target at_ names) (hbelow : Below place (at_ ++ names)) :
    copy source target w ≠ (.ok (), w') := by
  obtain ⟨way, hne, hway⟩ := hbelow.exists_append
  rw [copy_of_directory hsource]
  have hclear := htarget.not_link fun text => hlinks _ text hbelow.1
  have hplace : w.disk.tree.get? (place ++ []) = some .directory := by
    rw [List.append_nil]
    exact Disk.get?_of_find hsource
  exact copyDirectory_into_itself hw (anchored_of_named hsource) hlinks htarget.toLeads hclear hway hne (.refl hw) hplace
    List.nil_prefix (enough_pathLimit target)

end Copy

/-! ### What a copy comes to -/

theorem exists_failure {w : World} (h : ∀ w', copy source target w ≠ (.ok (), w')) :
    ∃ f w', copy source target w = (.error f, w') := by
  cases hrun : copy source target w with
  | mk outcome w' =>
    cases outcome with
    | error f => exact ⟨f, w', rfl⟩
    | ok _ => exact absurd hrun (h w')

/-- **What a copy comes to.** It ends by itself, whatever is copied wherever. With a link at or below its source it fails.
Else it is exact, where nothing is in the way and no copy is put where something is copied from. A directory cannot be
copied into itself, and a file that is copied onto itself is lost. -/
theorem copy_judged {w : World} (hw : w.disk.Sound) (hdistinct : w.disk.tree.Distinct) (source target : Path) :
    (∀ fuel, pathLimit ≤ fuel →
      copyDirectory fuel source target w = copyDirectory pathLimit source target w) ∧
    ∀ place entry, w.disk.find source false = .ok (.found place entry) →
      (¬ Unlinked w.disk.tree place → ∃ f w', copy source target w = (.error f, w')) ∧
      ∀ at_ names, w.disk.Way target at_ names →
        (Copyable w.disk source target place (at_ ++ names) →
          (entry.isFile = true → target.chars.getLast? ≠ some '/') →
          ∃ w', copy source target w = (.ok (), w') ∧ Copied (fun _ => True) w.disk place (at_ ++ names) w'.disk) ∧
        (entry = .directory → Unlinked w.disk.tree place → Below place (at_ ++ names) →
          ∃ f w', copy source target w = (.error f, w')) ∧
        ∀ data, entry = .file data → target.chars.getLast? ≠ some '/' → target.Usable → at_ ++ names = place →
          ∃ w', copy source target w = (.ok (), w') ∧
            w'.disk.tree.get? place = some (.file ⟨[], w.disk.now, data.executable⟩) := by
  refine ⟨fun fuel hfuel => copyDirectory_congr hw ?_ (enough_pathLimit target), fun place entry hsource =>
    ⟨fun hlink => exists_failure fun w' h => hlink (copy_unlinked hw hsource h), fun at_ names htarget =>
      ⟨fun h hlast => ?_, fun hentry hlinks hbelow => ?_, fun data hentry hlast husable hsame => ?_⟩⟩⟩
  · exact hfuel.trans (Nat.le_add_right _ _)
  · obtain ⟨_, w', hrun, hcopied⟩ := copy_exact hw hdistinct hsource htarget hlast h w rfl
    exact ⟨w', hrun, hcopied⟩
  · subst hentry
    exact exists_failure fun w' => copy_into_itself hw hsource hlinks htarget hbelow
  · subst hentry
    obtain ⟨_, w', hrun, hget⟩ := copy_onto_itself hw hsource htarget hlast husable hsame w rfl
    exact ⟨w', hrun, hget⟩

/-- A directory with a file in it is copied next to itself, but not into itself, nor the file onto itself. -/
theorem exists_copy_judged : ∃ w directory file beside within, w.disk.Sound ∧ w.disk.tree.Distinct ∧
    (∃ w', copy directory beside w = (.ok (), w') ∧ w'.disk.tree.get? ["b", "x"] = some (.file ⟨[104], 5, true⟩)) ∧
    (∃ f w', copy directory within w = (.error f, w')) ∧
    ∃ w', copy file file w = (.ok (), w') ∧ w'.disk.tree.get? ["a", "x"] = some (.file ⟨[], 5, true⟩) := by
  let d : Disk := {tree := ⟨[(["a"], .directory), (["a", "x"], .file ⟨[104], 0, true⟩)]⟩, now := 5}
  let w : World := {disk := d}
  have hd : d.Sound := by decide +kernel
  have hdistinct : d.tree.Distinct := by decide +kernel
  have hdirectory : d.find ⟨"a"⟩ false = .ok (.found ["a"] .directory) := by decide +kernel
  have hfile : d.find ⟨"a/x"⟩ false = .ok (.found ["a", "x"] (.file ⟨[104], 0, true⟩)) := by decide +kernel
  have hhere : d.Anchored ⟨""⟩ [] := by
    unfold Disk.Anchored
    decide +kernel
  have hbeside : d.Way ⟨"b"⟩ [] ["b"] := .of_anchored hhere (by decide) (by decide +kernel)
  have hwithin : d.Way ⟨"a/b"⟩ ["a"] ["b"] :=
    .of_anchored (anchored_of_named hdirectory) (by decide) (by decide +kernel)
  have hself : d.Way ⟨"a/x"⟩ ["a"] ["x"] :=
    .of_anchored (anchored_of_named hdirectory) (by decide) (by decide +kernel)
  have hbelow : ∀ rel entry, d.tree.get? (["a"] ++ rel) = some entry →
      rel = [] ∧ entry = .directory ∨ rel = ["x"] ∧ entry = .file ⟨[104], 0, true⟩ := by
    intro rel entry hentry
    have hmem := Tree.mem_of_get? (by simp) hentry
    simpa [d] using hmem
  have hlinks : Unlinked d.tree ["a"] := by
    rintro p text ⟨rel, rfl⟩ hget
    rcases hbelow rel _ hget with ⟨-, heq⟩ | ⟨-, heq⟩ <;> cases heq
  have hrel : ∀ rel, d.tree.get? (["a"] ++ rel) ≠ none → rel = [] ∨ rel = ["x"] := by
    intro rel h
    obtain ⟨entry, hentry⟩ := Option.ne_none_iff_exists'.1 h
    exact (hbelow rel entry hentry).imp And.left And.left
  have hcopyable : Copyable d ⟨"a"⟩ ⟨"b"⟩ ["a"] ([] ++ ["b"]) := by
    refine ⟨hlinks, fun rel h => ?_, fun rel entry old hget hold => ?_, fun rel h => ?_⟩
    · rcases hrel rel h with rfl | rfl <;> decide
    · have hnone : ∀ rel ∈ [[], ["x"]], d.tree.get? ([] ++ ["b"] ++ rel) = none := by decide +kernel
      rw [hnone rel (by simpa using hrel rel (by rw [hget]; simp))] at hold
      cases hold
    · rcases hrel rel h with rfl | rfl <;> decide +kernel
  have hcopy := fun target => (copy_judged (w := w) hd hdistinct ⟨"a"⟩ target).2 _ _ hdirectory
  refine ⟨w, ⟨"a"⟩, ⟨"a/x"⟩, ⟨"b"⟩, ⟨"a/b"⟩, hd, hdistinct, ?_, ?_, ?_⟩
  · obtain ⟨w', hrun, hcopied⟩ := ((hcopy ⟨"b"⟩).2 _ _ hbeside).1 hcopyable fun h => by cases h
    have hx : d.tree.get? ["a", "x"] = some (.file ⟨[104], 0, true⟩) := by decide +kernel
    exact ⟨w', hrun, hcopied.copied ["x"] _ trivial hx⟩
  · exact ((hcopy ⟨"a/b"⟩).2 _ _ hwithin).2.1 rfl hlinks (by decide)
  · exact (((copy_judged (w := w) hd hdistinct ⟨"a/x"⟩ ⟨"a/x"⟩).2 _ _ hfile).2 _ _ hself).2.2 _ rfl (by decide)
      (by decide +kernel) rfl

/-- An empty directory copied to a path inside it, which is free. No link is met and no file, yet the copy fails. -/
theorem directory_not_copied : ∃ w source target place name, w.disk.Sound ∧ w.disk.tree.Distinct ∧
    w.disk.find source false = .ok (.found place .directory) ∧
    w.disk.find target false = .ok (.missing place name) ∧ Unlinked w.disk.tree [] ∧
    ∃ f w', copy source target w = (.error f, w') := by
  let d : Disk := {tree := ⟨[(["a"], .directory)]⟩}
  have hd : d.Sound := by decide +kernel
  have hsource : d.find ⟨"a"⟩ false = .ok (.found ["a"] .directory) := by decide +kernel
  have htarget : d.Way ⟨"a/b"⟩ ["a"] ["b"] :=
    .of_anchored (anchored_of_named hsource) (by decide) (by decide +kernel)
  have hlinks : Unlinked d.tree [] := by
    intro p text _ hget
    by_cases hp : p = []
    · subst hp
      cases hget
    · have hmem := Tree.mem_of_get? hp hget
      simp [d] at hmem
  refine ⟨{disk := d}, ⟨"a"⟩, ⟨"a/b"⟩, ["a"], "b", hd, by decide +kernel, hsource, by decide +kernel, hlinks, ?_⟩
  refine exists_failure fun w' => copy_into_itself hd hsource ?_ htarget (by decide)
  exact fun p text _ => hlinks p text List.nil_prefix

end PluginShading.Files
