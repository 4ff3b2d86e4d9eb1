import PluginShading.Proofs.Files.Copying
import PluginShading.Proofs.Files.Making

/-!
What a copy of a directory ends at.

Every step into a directory makes the path of the target longer, so that a copy comes to an end by the limit of paths,
if by nothing else: more fuel would change nothing (`copyDirectory_congr`). While it runs, directories and links stay
what they are (`Persists`). So a copy that succeeds has come to everything that was below its source
(`copyDirectory_reaches`). Hence it fails where there is a link (`copyDirectory_unlinked`), and where it goes into its
own source, which has no end (`copyDirectory_into_itself`).
-/
namespace PluginShading.Files

open Act (Keeps)

variable {d d' d'' : Disk} {source target : Path} {place at_ : Place} {names : List String}

/-! ### What stays -/

/-- `d'` holds the directories and links of `d` and files where `d` holds files, and no other links. -/
structure Persists (d d' : Disk) : Prop where
  sound : d'.Sound
  here : d'.here = d.here
  kept : ∀ p entry, d.tree.get? p = some entry → d'.tree.get? p = some entry ∨
    (∃ data, entry = .file data) ∧ ∃ data, d'.tree.get? p = some (.file data)
  links : ∀ p target, d'.tree.get? p = some (.link target) → d.tree.get? p = some (.link target)

namespace Persists

theorem refl (hd : d.Sound) : Persists d d := ⟨hd, rfl, fun _ _ hget => .inl hget, fun _ _ hget => hget⟩

theorem trans (h : Persists d d') (h' : Persists d' d'') : Persists d d'' where
  sound := h'.sound
  here := h'.here.trans h.here
  kept p entry hget := by
    rcases h.kept p entry hget with hkept | ⟨hfile, data, hkept⟩
    · exact h'.kept p entry hkept
    · refine .inr ⟨hfile, ?_⟩
      rcases h'.kept p _ hkept with hkept | ⟨-, hkept⟩
      · exact ⟨data, hkept⟩
      · exact hkept
  links p target hget := h.links p target (h'.links p target hget)

theorem directory (h : Persists d d') {p : Place} (hget : d.tree.get? p = some .directory) :
    d'.tree.get? p = some .directory := by
  rcases h.kept p _ hget with hkept | ⟨⟨data, heq⟩, -⟩
  · exact hkept
  · cases heq

theorem unlinked (h : Persists d d') (hlinks : Unlinked d.tree place) : Unlinked d'.tree place :=
  fun p target hp hget => hlinks p target hp (h.links p target hget)

theorem keepsWays (h : Persists d d') (hd : d.Sound) : KeepsWays d.tree d'.tree := by
  intro p entry hget
  refine (h.kept p entry hget).imp_right fun hfile => ?_
  obtain ⟨⟨data, rfl⟩, -⟩ := hfile
  exact deadEnd_file hd.tree hget

/-- A file or a directory comes to stand where there was nothing, or a file in place of a file. -/
theorem put (h : Persists d d') {parent : Place} {name : String} {entry : Entry}
    (hparent : d'.tree.get? parent = some .directory) (hname : isName name = true) (hlink : entry.isLink = false)
    (hold : d'.tree.get? (parent ++ [name]) = none ∨
      (∃ data, d'.tree.get? (parent ++ [name]) = some (.file data)) ∧ ∃ data, entry = .file data) :
    Persists d (d'.put (parent ++ [name]) entry) := by
  have hset : ∀ q, (d'.put (parent ++ [name]) entry).tree.get? q =
      if q = parent ++ [name] then some entry else d'.tree.get? q :=
    d'.tree.get?_set (append_singleton_ne_nil parent name) entry
  refine ⟨h.sound.put hparent hname ?_, h.here, fun p e hget => ?_, fun p text hget => ?_⟩
  · rcases hold with hnone | ⟨⟨data, hfile⟩, -⟩
    · simp [hnone]
    · simp [hfile]
  · rw [hset]
    split
    · rename_i heq
      rw [heq] at hget
      rcases hold with hnone | ⟨⟨data, hfile⟩, data', rfl⟩
      · rcases h.kept _ _ hget with hkept | ⟨-, data, hkept⟩ <;> rw [hnone] at hkept <;> cases hkept
      · refine .inr ⟨?_, data', rfl⟩
        rcases h.kept _ _ hget with hkept | ⟨hfile, -⟩
        · rw [hfile] at hkept
          cases hkept
          exact ⟨data, rfl⟩
        · exact hfile
    · exact h.kept p e hget
  · rw [hset] at hget
    split at hget
    · cases hget
      cases hlink
    · exact h.links p text hget

theorem admitsDirectories (d : Disk) : AdmitsDirectories (Persists d) where
  sound h := h.sound
  make h hparent hnone hname := h.put hparent hname rfl (.inl hnone)

theorem admitsCopies (d : Disk) : AdmitsCopies (Persists d) fun _ => True where
  sound h := h.sound
  create _ := (admitsDirectories d).anywhere.createDirectories trivial
  above _ := (admitsDirectories d).anywhere.ensureParent trivial
  write h _ hwrite := by
    obtain ⟨spot, mode, -, rfl, hold, parent, name, hplace, hparent, hname⟩ := h.sound.write_eq_ok hwrite
    rw [hplace] at hold ⊢
    exact h.put hparent hname rfl (hold.imp_right fun hfile => ⟨hfile, _, rfl⟩)
  mark h _ hfind := by
    have hget := Disk.get?_of_find hfind
    have hne : ∀ {p : Place} {data : FileData} {t : Tree}, t.get? p = some (.file data) → p ≠ [] := by
      rintro p data t hget rfl
      rw [t.get?_nil] at hget
      cases hget
    obtain ⟨parent, name, rfl, hparent, hname⟩ := h.sound.tree.exists_parent hget (hne hget)
    exact h.put hparent hname rfl (.inr ⟨⟨_, hget⟩, _, rfl⟩)
  join _ _ := trivial

/-- What an action keeps that keeps all this is related to what it leaves. -/
theorem of_run {α : Type} {a : Act α} {w w' : World} (hkeeps : Keeps (Persists w.disk) a) (hw : w.disk.Sound)
    {outcome : Except Failure α} (h : a w = (outcome, w')) : Persists w.disk w'.disk := by
  have hkept := (hkeeps w (refl hw)).1
  rwa [h] at hkept

theorem of_createDirectories {w w' : World} (hw : w.disk.Sound) {outcome : Except Failure Unit}
    (h : createDirectories target w = (outcome, w')) : Persists w.disk w'.disk :=
  of_run ((admitsCopies w.disk).create trivial) hw h

end Persists

/-! ### One step -/

/-- What is done with one entry of the source. -/
def copyEntry (fuel : Nat) (source target : Path) (e : String × Entry) : Act Unit :=
  match e.2 with
  | .link _ => Act.fail (.because (.refuseLink (source.join ⟨e.1⟩)))
  | .directory => copyDirectory fuel (source.join ⟨e.1⟩) (target.join ⟨e.1⟩)
  | .file _ => copyFile (source.join ⟨e.1⟩) (target.join ⟨e.1⟩)

theorem copyDirectory_succ (fuel : Nat) (source target : Path) : copyDirectory (fuel + 1) source target =
    (createDirectories target >>= fun _ => Act.ask (.readDirectory source) (·.list source) >>= fun entries =>
      entries.forM (copyEntry fuel source target)) := by
  rw [copyDirectory]
  refine congrArg (createDirectories target >>= ·) (funext fun _ => ?_)
  refine congrArg (Act.ask (.readDirectory source) (·.list source) >>= ·) (funext fun entries => ?_)
  refine congrArg (entries.forM ·) (funext fun e => ?_)
  obtain ⟨name, entry⟩ := e
  cases entry <;> rfl

theorem copyEntry_keeps (d : Disk) (fuel : Nat) (source target : Path) (e : String × Entry) :
    Keeps (Persists d) (copyEntry fuel source target e) := by
  obtain ⟨name, entry⟩ := e
  cases entry with
  | link _ => exact Act.Ensures.fail
  | directory => exact (Persists.admitsCopies d).copyDirectory _ _ trivial
  | file _ => exact (Persists.admitsCopies d).copyFile trivial

/-! ### It ends -/

/-- With the steps that are left the path of the target gets too long. -/
def Enough (fuel : Nat) (target : Path) : Prop := pathLimit ≤ fuel + target.text.utf8ByteSize

theorem enough_pathLimit (target : Path) : Enough pathLimit target := Nat.le_add_right _ _

theorem Enough.join {fuel : Nat} (h : Enough (fuel + 1) target) {name : String} (hname : isName name = true) :
    Enough fuel (target.join ⟨name⟩) := by
  have hpos : 0 < name.utf8ByteSize := by
    refine Nat.pos_of_ne_zero fun hzero => (isName_iff.1 hname).1 ?_
    rw [String.utf8ByteSize_eq_zero_iff.1 hzero]
    rfl
  have hlonger : target.text.utf8ByteSize < (target.join ⟨name⟩).text.utf8ByteSize := by
    rw [Path.join, if_neg (by simp [Path.isAbsolute_name hname])]
    split <;> simp only [String.utf8ByteSize_append] <;> omega
  unfold Enough at h ⊢
  omega

/-- Where directories could be made, steps are left. -/
theorem Enough.pos {fuel : Nat} (h : Enough fuel target) {w w' : World}
    (hmade : createDirectories target w = (.ok (), w')) : ∃ k, fuel = k + 1 := by
  refine Nat.exists_eq_add_one.2 (Nat.pos_of_ne_zero fun hzero => ?_)
  rw [Enough, hzero, Nat.zero_add] at h
  have hne : target.chars ≠ [] := by
    intro hnil
    have hempty : target.text = "" := String.toList_injective hnil
    rw [hempty] at h
    exact absurd h (by decide)
  exact Nat.not_lt.2 h (usable_of_createDirectories (Path.components_ne_nil hne) hmade).text

theorem copyDirectory_of_error {fuel : Nat} {w w' : World} {f : Failure}
    (h : createDirectories target w = (.error f, w')) : copyDirectory fuel source target w = (.error f, w') := by
  cases fuel with
  | zero => exact Act.bind_of_error h
  | succ fuel =>
    rw [copyDirectory_succ]
    exact Act.bind_of_error h

/-- **A copy ends by itself**: with enough fuel, more of it changes nothing. -/
theorem copyDirectory_congr {fuel fuel' : Nat} {w : World} (hw : w.disk.Sound) (h : Enough fuel target)
    (h' : Enough fuel' target) : copyDirectory fuel source target w = copyDirectory fuel' source target w := by
  induction fuel generalizing fuel' source target w with
  | zero =>
    cases hmade : createDirectories target w with
    | mk outcome w₁ =>
      cases outcome with
      | error f => rw [copyDirectory_of_error hmade, copyDirectory_of_error hmade]
      | ok _ =>
        obtain ⟨k, hk⟩ := h.pos hmade
        cases hk
  | succ fuel ih =>
    cases hmade : createDirectories target w with
    | mk outcome w₁ =>
      cases outcome with
      | error f => rw [copyDirectory_of_error hmade, copyDirectory_of_error hmade]
      | ok _ =>
        obtain ⟨fuel', rfl⟩ := h'.pos hmade
        have hw₁ := Persists.of_createDirectories hw hmade
        rw [copyDirectory_succ, copyDirectory_succ, Act.bind_of_ok hmade, Act.bind_of_ok hmade, Act.bind_apply,
          Act.bind_apply]
        cases hlist : Act.ask (.readDirectory source) (·.list source) w₁ with
        | mk outcome w₂ =>
          cases outcome with
          | error f => rfl
          | ok entries =>
            obtain ⟨hentries, rfl⟩ := Act.ask_eq_ok hlist
            have hnames := hw₁.sound.isName_of_mem_list hentries
            refine Act.forM_congr (I := Persists w.disk) (fun e _ => copyEntry_keeps _ _ _ _ e) (fun e he w hw => ?_) hw₁
            obtain ⟨name, entry⟩ := e
            cases entry with
            | link _ => rfl
            | directory => exact ih hw.sound (h.join (hnames _ he)) (h'.join (hnames _ he))
            | file _ => rfl

/-! ### What success comes to -/

/-- A copy of a directory that succeeds has made the directory and gone through all that was listed. -/
theorem copyDirectory_eq_ok {fuel : Nat} {w w' : World} (hw : w.disk.Sound) (hfuel : Enough fuel target)
    (h : copyDirectory fuel source target w = (.ok (), w')) :
    ∃ k w₁ entries, fuel = k + 1 ∧ createDirectories target w = (.ok (), w₁) ∧ Persists w.disk w₁.disk ∧
      w₁.disk.list source = .ok entries ∧ Persists w₁.disk w'.disk ∧
      ∀ e ∈ entries, Enough k (target.join ⟨e.1⟩) ∧ ∃ w₂ w₃, Persists w₁.disk w₂.disk ∧
        copyEntry k source target e w₂ = (.ok (), w₃) ∧ Persists w₃.disk w'.disk := by
  cases hmade : createDirectories target w with
  | mk outcome w₁ =>
    cases outcome with
    | error f =>
      rw [copyDirectory_of_error hmade] at h
      cases h
    | ok _ =>
      obtain ⟨k, rfl⟩ := hfuel.pos hmade
      have hw₁ := Persists.of_createDirectories hw hmade
      rw [copyDirectory_succ, Act.bind_of_ok hmade] at h
      obtain ⟨entries, w₂, hlist, hloop⟩ := Act.bind_eq_ok h
      obtain ⟨hentries, rfl⟩ := Act.ask_eq_ok hlist
      have hnames := hw₁.sound.isName_of_mem_list hentries
      obtain ⟨hafter, hrounds⟩ := Act.forM_eq_ok (R := Persists) (fun h => .refl h.sound) Persists.trans
        (fun d e _ => copyEntry_keeps d _ _ _ e) (.refl hw₁.sound) hloop
      exact ⟨k, w₂, entries, rfl, rfl, hw₁, hentries, hafter, fun e he => ⟨hfuel.join (hnames e he), hrounds e he⟩⟩

/-- The same entry, or a file in place of a file. -/
def SameKind (e e' : Entry) : Prop := e' = e ∨ (∃ data, e = .file data) ∧ ∃ data, e' = .file data

theorem SameKind.file {e : Entry} {data : FileData} (h : SameKind e (.file data)) : ∃ data, e = .file data := by
  rcases h with rfl | ⟨hfile, -⟩
  · exact ⟨data, rfl⟩
  · exact hfile

theorem SameKind.directory {e : Entry} (h : SameKind e .directory) : Entry.directory = e := by
  rcases h with heq | ⟨-, data, heq⟩
  · exact heq
  · cases heq

/-- What is listed later is of the kind that it was. -/
theorem Persists.exists_kept (h : Persists d d') {p : Place} {e : Entry} (hget : d.tree.get? p = some e) :
    ∃ e', d'.tree.get? p = some e' ∧ SameKind e e' := by
  rcases h.kept p e hget with hkept | ⟨hfile, data, hkept⟩
  · exact ⟨e, hkept, .inl rfl⟩
  · exact ⟨_, hkept, .inr ⟨hfile, data, rfl⟩⟩

/-- What a copy has done for an entry: directories are made and listed, files are copied, links are not. -/
def CopiedStep (source target : Path) : Entry → World → World → Prop
  | .directory, w, w' => createDirectories target w = (.ok (), w') ∧ ∃ entries, w'.disk.list source = .ok entries
  | .file _, w, w' => copyFile source target w = (.ok (), w')
  | .link _, _, _ => False

theorem CopiedStep.of_sameKind {e e' : Entry} {w w' : World} (h : CopiedStep source target e' w w')
    (hkind : SameKind e e') : CopiedStep source target e w w' := by
  rcases hkind with rfl | ⟨⟨data, rfl⟩, data', rfl⟩ <;> exact h

section Reaches

variable {d₀ : Disk} (hd₀ : d₀.Sound) (hroot : d₀.Anchored source place)
include hd₀ hroot

/-- A directory below the source is listed by the names that lead there. -/
theorem list_under (h : Persists d₀ d) {rel : Place} (hget : d.tree.get? (place ++ rel) = some .directory)
    {entries : List (String × Entry)} (hlist : d.list (source.under rel) = .ok entries) :
    entries = d.tree.children (place ++ rel) := by
  have hleads := (Disk.Leads.of_anchored hroot).under (h.sound.tree.names hget)
  unfold Disk.list at hlist
  split at hlist
  · cases hlist
  · cases hlist
  rename_i q entry hfind
  split at hlist
  · cases hlist
    rw [hleads.eq_of_find h.here (h.keepsWays hd₀) (h.directory hroot.get?_place) (fun front _ hfront text hlink => ?_)
      hfind, List.nil_append]
    rw [h.sound.tree.directory_of_prefix hget ((List.prefix_append_right_inj place).2 hfront)] at hlink
    cases hlink
  · cases hlist

/-- **A copy that succeeds has come to everything below its source.** By induction on the names that lead there. -/
theorem copyDirectory_reaches {rel front : Place} {fuel : Nat} {w w' : World} (hw : Persists d₀ w.disk)
    (hfront : w.disk.tree.get? (place ++ front) = some .directory) (hfuel : Enough fuel (target.under front))
    (h : copyDirectory fuel (source.under front) (target.under front) w = (.ok (), w')) {entry : Entry}
    (hget : w.disk.tree.get? (place ++ front ++ rel) = some entry) :
    ∃ w₁ w₂, Persists w.disk w₁.disk ∧ Persists w₂.disk w'.disk ∧
      CopiedStep (source.under (front ++ rel)) (target.under (front ++ rel)) entry w₁ w₂ := by
  induction rel generalizing front fuel w w' entry with
  | nil =>
    obtain ⟨k, w₁, entries, -, hmade, hbefore, hlist, hafter, -⟩ := copyDirectory_eq_ok hw.sound hfuel h
    rw [List.append_nil, hfront] at hget
    cases hget
    rw [List.append_nil]
    exact ⟨w, w₁, .refl hw.sound, hafter, hmade, entries, hlist⟩
  | cons name rest ih =>
    obtain ⟨k, w₁, entries, rfl, hmade, hbefore, hlist, -, hrounds⟩ := copyDirectory_eq_ok hw.sound hfuel h
    have hw₁ := hw.trans hbefore
    have hchildren := list_under hd₀ hroot hw₁ (hbefore.directory hfront) hlist
    rw [List.append_cons] at hget
    obtain ⟨e, hthere⟩ := hw.sound.tree.exists_of_prefix hget (List.prefix_append _ rest)
    obtain ⟨e', hlisted, hkind⟩ := hbefore.exists_kept hthere
    obtain ⟨hfuel, w₂, w₃, hw₂, hstep, hw'⟩ :=
      hrounds (name, e') (hchildren ▸ Tree.mem_children_of_get? hlisted)
    have hsource : (source.under front).join ⟨name⟩ = source.under (front ++ [name]) := Path.under_concat.symm
    have htarget : (target.under front).join ⟨name⟩ = target.under (front ++ [name]) := Path.under_concat.symm
    have hw₂ := hbefore.trans hw₂
    rw [htarget] at hfuel
    rw [List.append_cons front name rest]
    cases e' with
    | link text => cases hstep
    | file data =>
      obtain ⟨old, rfl⟩ := hkind.file
      obtain rfl : rest = [] := by
        by_contra hrest
        rw [hw.sound.tree.directory_of_below hget (below_append _ hrest)] at hthere
        cases hthere
      rw [List.append_nil, hthere] at hget
      cases hget
      refine ⟨w₂, w₃, hw₂, hw', ?_⟩
      rw [List.append_nil, ← hsource, ← htarget]
      exact hstep
    | directory =>
      obtain rfl := hkind.directory
      have hstep : copyDirectory k (source.under (front ++ [name])) (target.under (front ++ [name])) w₂ =
          (.ok (), w₃) := by
        rw [← hsource, ← htarget]
        exact hstep
      have hthere := hw₂.directory hthere
      rw [List.append_assoc place front] at hthere hget
      obtain ⟨entry', hkept, hsame⟩ := hw₂.exists_kept hget
      obtain ⟨w₄, w₅, hw₄, hw₅, hcopied⟩ := ih (hw.trans hw₂) hthere hfuel hstep hkept
      exact ⟨w₄, w₅, hw₂.trans hw₄, hw₅.trans hw', hcopied.of_sameKind hsame⟩

/-- **A copy of a directory that succeeds has met no link.** -/
theorem copyDirectory_unlinked {fuel : Nat} {w w' : World} (hw : Persists d₀ w.disk) (hfuel : Enough fuel target)
    (h : copyDirectory fuel source target w = (.ok (), w')) : Unlinked w.disk.tree place := by
  rintro p text ⟨rel, rfl⟩ hget
  have hfront := hw.directory hroot.get?_place
  rw [← List.append_nil place] at hfront hget
  obtain ⟨w₁, w₂, -, -, hcopied⟩ := copyDirectory_reaches hd₀ hroot hw hfront hfuel h hget
  exact hcopied

/-- **A directory is not copied into itself.** The target has become part of the source by the time the source is
listed, so that below every directory there is one more, until a path is too long. -/
theorem copyDirectory_into_itself (hlinks : Unlinked d₀.tree place) (htarget : d₀.Leads target at_ names)
    (hclear : ∀ front, front ≠ [] → front <+: names → ∀ text, d₀.tree.get? (at_ ++ front) ≠ some (.link text))
    {way : Place} (hway : at_ ++ names = place ++ way) (hne : way ≠ []) {fuel : Nat} {front : Place} {w w' : World}
    (hw : Persists d₀ w.disk) (hfront : w.disk.tree.get? (place ++ front) = some .directory)
    (hstarts : front <+: way ++ front) (hfuel : Enough fuel (target.under front)) :
    copyDirectory fuel (source.under front) (target.under front) w ≠ (.ok (), w') := by
  intro h
  induction fuel generalizing front w w' with
  | zero =>
    obtain ⟨k, -, -, hk, -⟩ := copyDirectory_eq_ok hw.sound hfuel h
    cases hk
  | succ fuel ih =>
    obtain ⟨k, w₁, entries, hk, hmade, hbefore, hlist, -, hrounds⟩ := copyDirectory_eq_ok hw.sound hfuel h
    cases hk
    have hw₁ := hw.trans hbefore
    have hchildren := list_under hd₀ hroot hw₁ (hbefore.directory hfront) hlist
    -- The directory that was made lies below the one that is listed.
    have hgoal : w₁.disk.tree.get? (place ++ (way ++ front)) = some .directory := by
      have hleads := htarget.under (hw.sound.tree.names hfront)
      have hat := hw₁.directory htarget.get?_start
      rw [← List.append_assoc, ← hway, List.append_assoc]
      by_cases hnil : names ++ front = []
      · rwa [hnil, List.append_nil]
      · have hisdir := isDirectory_of_createDirectories (Path.components_ne_nil (hleads.chars_ne_nil hnil)) hmade
        obtain ⟨q, hfind⟩ := Disk.isDirectory_iff.1 hisdir
        rw [← hleads.eq_of_find hw₁.here (hw₁.keepsWays hd₀) hat (fun f hf hle text hlink => ?_) hfind]
        · exact Disk.get?_of_find hfind
        · have hlink := hw₁.links _ _ hlink
          rcases List.prefix_or_prefix_of_prefix hle (List.prefix_append names front) with hle | ⟨more, rfl⟩
          · exact hclear f hf hle text hlink
          · rw [← List.append_assoc, hway, List.append_assoc] at hlink
            exact hlinks _ text (List.prefix_append _ _) hlink
    obtain ⟨rest, hrest⟩ := hstarts
    cases rest with
    | nil =>
      rw [List.append_nil] at hrest
      have hlength := congrArg List.length hrest
      rw [List.length_append] at hlength
      exact hne (List.length_eq_zero_iff.1 (by omega))
    | cons name rest =>
      rw [List.append_cons] at hrest
      have hthere : w₁.disk.tree.get? (place ++ front ++ [name]) = some .directory := by
        rw [← hrest, ← List.append_assoc, ← List.append_assoc] at hgoal
        exact hw₁.sound.tree.directory_of_prefix hgoal (List.prefix_append _ rest)
      obtain ⟨hfuel, w₂, w₃, hw₂, hstep, -⟩ :=
        hrounds (name, .directory) (hchildren ▸ Tree.mem_children_of_get? hthere)
      have hthere := hw₂.directory hthere
      rw [List.append_assoc] at hthere
      have hfurther : front ++ [name] <+: way ++ (front ++ [name]) := by
        rw [← List.append_assoc, ← hrest, List.append_assoc]
        exact List.prefix_append _ _
      rw [← Path.under_concat] at hfuel
      have hstep : copyDirectory fuel (source.under (front ++ [name])) (target.under (front ++ [name])) w₂ =
          (.ok (), w₃) := by
        rw [Path.under_concat, Path.under_concat]
        exact hstep
      exact ih (hw₁.trans hw₂) hthere hfurther hfuel hstep

end Reaches

end PluginShading.Files
