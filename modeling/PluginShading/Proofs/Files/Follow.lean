import PluginShading.Files.Disk
import PluginShading.Proofs.Files.Tree

/-!
What following a path comes to.

What is found is in the tree, and where nothing is found a directory could hold something
(`follow_holds`). From a place below which there are no links a path does not lead out that never goes up
farther than it came down (`stays`, `follow_within`). Names that lead through directories lead down one by one (`follow_down`).
-/
namespace PluginShading.Files

variable {t : Tree} {links : Nat} {at_ : Place} {names : List String} {through : Bool} {spot : Spot}

/-! ### Step by step -/

theorem follow_nil {entry : Entry} (h : t.get? at_ = some entry) :
    follow t links at_ [] through = .ok (.found at_ entry) := by
  rw [follow, h]

@[simp] theorem follow_here : follow t links at_ ("." :: names) through = follow t links at_ names through := by
  rw [follow]

@[simp] theorem follow_up :
    follow t links at_ (".." :: names) through = follow t links at_.dropLast names through := by
  rw [follow]

theorem follow_directory {name : String} (hhere : name ≠ ".") (hup : name ≠ "..")
    (hlimit : ¬ nameLimit < name.utf8ByteSize) (h : t.get? (at_ ++ [name]) = some .directory) :
    follow t links at_ (name :: names) through = follow t links (at_ ++ [name]) names through := by
  rw [follow.eq_def]
  split
  · contradiction
  · simp_all
  · simp_all
  · rename_i heq
    obtain ⟨rfl, rfl⟩ := List.cons_eq_cons.1 heq
    rw [if_neg hlimit, h]

theorem follow_file {name : String} {data : FileData} (hhere : name ≠ ".") (hup : name ≠ "..")
    (hlimit : ¬ nameLimit < name.utf8ByteSize) (h : t.get? (at_ ++ [name]) = some (.file data)) :
    follow t links at_ (name :: names) through =
      if names = [] then .ok (.found (at_ ++ [name]) (.file data)) else .error .notADirectory := by
  rw [follow.eq_def]
  split
  · contradiction
  · simp_all
  · simp_all
  · rename_i heq
    obtain ⟨rfl, rfl⟩ := List.cons_eq_cons.1 heq
    rw [if_neg hlimit, h]

theorem follow_none {name : String} (hhere : name ≠ ".") (hup : name ≠ "..")
    (hlimit : ¬ nameLimit < name.utf8ByteSize) (h : t.get? (at_ ++ [name]) = none) :
    follow t links at_ (name :: names) through =
      if names = [] then .ok (.missing at_ name) else .error .notFound := by
  rw [follow.eq_def]
  split
  · contradiction
  · simp_all
  · simp_all
  · rename_i heq
    obtain ⟨rfl, rfl⟩ := List.cons_eq_cons.1 heq
    rw [if_neg hlimit, h]

/-- A link on the way is followed. -/
theorem follow_linked {name target : String} (hhere : name ≠ ".") (hup : name ≠ "..")
    (hlimit : ¬ nameLimit < name.utf8ByteSize) (h : t.get? (at_ ++ [name]) = some (.link target))
    (hlast : ¬ (names = [] ∧ through = false)) :
    follow t links at_ (name :: names) through =
      match links with
      | 0 => .error .tooManyLinks
      | links + 1 =>
        if target.isEmpty then .error .notFound
        else follow t links (if target.toList.head? = some '/' then [] else at_)
          (steps target.toList ++ names) through := by
  rw [follow.eq_def]
  split
  · contradiction
  · simp_all
  · simp_all
  · rename_i heq
    obtain ⟨rfl, rfl⟩ := List.cons_eq_cons.1 heq
    rw [if_neg hlimit, h]
    cases links <;> simp only [if_neg hlast]

theorem follow_link {name target : String} (hhere : name ≠ ".") (hup : name ≠ "..")
    (hlimit : ¬ nameLimit < name.utf8ByteSize) (h : t.get? (at_ ++ [name]) = some (.link target))
    (hlast : ¬ (names = [] ∧ through = false)) (htarget : target.isEmpty = false) :
    follow t (links + 1) at_ (name :: names) through =
      follow t links (if target.toList.head? = some '/' then [] else at_)
        (steps target.toList ++ names) through := by
  rw [follow_linked hhere hup hlimit h hlast]
  simp only [htarget]
  rfl

/-- The last name is looked up and not followed. -/
theorem follow_last {name : String} {entry : Entry} (hhere : name ≠ ".") (hup : name ≠ "..")
    (hlimit : ¬ nameLimit < name.utf8ByteSize) (h : t.get? (at_ ++ [name]) = some entry) :
    follow t links at_ [name] false = .ok (.found (at_ ++ [name]) entry) := by
  cases entry with
  | directory => rw [follow_directory hhere hup hlimit h, follow_nil h]
  | file data => rw [follow_file hhere hup hlimit h, if_pos rfl]
  | link target =>
    rw [follow.eq_def]
    split
    · contradiction
    · simp_all
    · simp_all
    · rename_i heq
      obtain ⟨rfl, rfl⟩ := List.cons_eq_cons.1 heq
      rw [if_neg hlimit, h]
      rfl

/-- A link is either named or followed. -/
theorem follow_link_cases {name target : String} (hhere : name ≠ ".") (hup : name ≠ "..")
    (hlimit : ¬ nameLimit < name.utf8ByteSize) (h : t.get? (at_ ++ [name]) = some (.link target))
    (hfollow : follow t links at_ (name :: names) through = .ok spot) :
    names = [] ∧ spot = .found (at_ ++ [name]) (.link target) ∨
      ∃ left, follow t left (if target.toList.head? = some '/' then [] else at_)
        (steps target.toList ++ names) through = .ok spot := by
  by_cases hlast : names = [] ∧ through = false
  · obtain ⟨rfl, rfl⟩ := hlast
    rw [follow_last hhere hup hlimit h] at hfollow
    cases hfollow
    exact .inl ⟨rfl, rfl⟩
  · rw [follow_linked hhere hup hlimit h hlast] at hfollow
    split at hfollow
    · cases hfollow
    · split at hfollow
      · cases hfollow
      · exact .inr ⟨_, hfollow⟩

/-! ### What is come to -/

/-- A step of a path that has no separator in it. -/
def isStep (name : String) : Bool := name ≠ "" && !name.toList.contains '/'

theorem isName_of_isStep {name : String} (h : isStep name = true) (hhere : name ≠ ".")
    (hup : name ≠ "..") : isName name = true := by
  simp only [isStep, Bool.and_eq_true] at h
  simp only [isName, Bool.and_eq_true]
  exact ⟨⟨h, decide_eq_true hhere⟩, decide_eq_true hup⟩

theorem isStep_of_mem_steps {text : List Char} {name : String} (h : name ∈ steps text) :
    isStep name = true := by
  rcases List.mem_append.1 h with h | h
  · obtain ⟨piece, hpiece, rfl⟩ := List.mem_map.1 h
    obtain ⟨hpiece, hne⟩ := List.mem_filter.1 hpiece
    have hfree := Text.not_mem_of_mem_pieces hpiece
    simp only [isStep, String.toList_ofList, Bool.and_eq_true, Bool.not_eq_true',
      List.contains_eq_mem, decide_eq_false_iff_not, decide_eq_true_eq]
    refine ⟨fun hempty => ?_, hfree⟩
    have hlist := congrArg String.toList hempty
    rw [String.toList_ofList] at hlist
    exact absurd hne (by simp [hlist])
  · split at h
    · obtain rfl := List.mem_singleton.1 h
      decide
    · cases h

/-- The place that is come to, be it taken or free. -/
def Spot.place : Spot → Place
  | found place _ => place
  | missing parent name => parent ++ [name]

/-- What is found is there, and what is missing could be. -/
inductive Spot.Holds (t : Tree) : Spot → Prop
  | found {place : Place} {entry : Entry} : t.get? place = some entry → Holds t (.found place entry)
  | missing {parent : Place} {name : String} : t.get? parent = some .directory →
      t.get? (parent ++ [name]) = none → isName name = true → Holds t (.missing parent name)

theorem get?_dropLast (ht : t.Sound) (h : t.get? at_ = some .directory) :
    t.get? at_.dropLast = some .directory := by
  induction at_ using List.reverseRecOn with
  | nil => exact h
  | append_singleton front name _ =>
    rw [List.dropLast_concat]
    exact ht.parent front name .directory h

/-- The text of a link is followed from a directory. -/
theorem get?_start (hat : t.get? at_ = some .directory) (text : List Char) :
    t.get? (if text.head? = some '/' then [] else at_) = some .directory := by
  split
  · exact t.get?_nil
  · exact hat

theorem follow_holds (ht : t.Sound) (hat : t.get? at_ = some .directory)
    (hnames : ∀ name ∈ names, isStep name = true)
    (h : follow t links at_ names through = .ok spot) : spot.Holds t := by
  fun_induction follow t links at_ names through with
  | case1 => cases h
  | case2 links at_ entry hget =>
    cases h
    exact .found hget
  | case3 links at_ rest ih => exact ih hat (fun n hn => hnames n (List.mem_cons_of_mem _ hn)) h
  | case4 links at_ rest ih =>
    exact ih (get?_dropLast ht hat) (fun n hn => hnames n (List.mem_cons_of_mem _ hn)) h
  | case5 => cases h
  | case6 links at_ name hhere hup _ hnone =>
    cases h
    exact .missing hat hnone (isName_of_isStep (hnames name List.mem_cons_self) hhere hup)
  | case7 => cases h
  | case8 links at_ name rest _ _ _ hget ih =>
    exact ih hget (fun n hn => hnames n (List.mem_cons_of_mem _ hn)) h
  | case9 links at_ name _ _ _ data hget =>
    cases h
    exact .found hget
  | case10 => cases h
  | case11 links at_ name rest _ _ _ target hget _ =>
    cases h
    exact .found hget
  | case12 => cases h
  | case13 => cases h
  | case14 at_ name rest _ _ _ target hget _ links start _ ih =>
    refine ih (get?_start hat target.toList) (fun n hn => ?_) h
    rcases List.mem_append.1 hn with hn | hn
    · exact isStep_of_mem_steps hn
    · exact hnames n (List.mem_cons_of_mem _ hn)

/-- Where a path leads nowhere, nothing is. -/
theorem get?_of_missing {parent : Place} {name : String}
    (h : follow t links at_ names through = .ok (.missing parent name)) :
    t.get? (parent ++ [name]) = none := by
  fun_induction follow t links at_ names through with
  | case1 => cases h
  | case2 => cases h
  | case3 links at_ rest ih => exact ih h
  | case4 links at_ rest ih => exact ih h
  | case5 => cases h
  | case6 links at_ last _ _ _ hnone =>
    cases h
    exact hnone
  | case7 => cases h
  | case8 links at_ first rest _ _ _ _ ih => exact ih h
  | case9 => cases h
  | case10 => cases h
  | case11 => cases h
  | case12 => cases h
  | case13 => cases h
  | case14 at_ first rest _ _ _ target _ _ links start _ ih => exact ih h

/-- What a path leads to is there. -/
theorem get?_of_found {place : Place} {entry : Entry}
    (h : follow t links at_ names through = .ok (.found place entry)) : t.get? place = some entry := by
  fun_induction follow t links at_ names through with
  | case1 => cases h
  | case2 links at_ entry hget =>
    cases h
    exact hget
  | case3 links at_ rest ih => exact ih h
  | case4 links at_ rest ih => exact ih h
  | case5 => cases h
  | case6 => cases h
  | case7 => cases h
  | case8 links at_ first rest _ _ _ _ ih => exact ih h
  | case9 links at_ name _ _ _ data hget =>
    cases h
    exact hget
  | case10 => cases h
  | case11 links at_ name rest _ _ _ target hget _ =>
    cases h
    exact hget
  | case12 => cases h
  | case13 => cases h
  | case14 at_ first rest _ _ _ target _ _ links start _ ih => exact ih h

/-- All names on a way that leads somewhere are short enough. -/
theorem follow_fits (h : follow t links at_ names through = .ok spot) :
    ∀ name ∈ names, name.utf8ByteSize ≤ nameLimit := by
  fun_induction follow t links at_ names through with
  | case1 => nofun
  | case2 => nofun
  | case3 links at_ rest ih => exact List.forall_mem_cons.2 ⟨by decide, ih h⟩
  | case4 links at_ rest ih => exact List.forall_mem_cons.2 ⟨by decide, ih h⟩
  | case5 => cases h
  | case6 links at_ name _ _ hlimit =>
    exact List.forall_mem_cons.2 ⟨Nat.not_lt.1 hlimit, nofun⟩
  | case7 => cases h
  | case8 links at_ name rest _ _ hlimit _ ih => exact List.forall_mem_cons.2 ⟨Nat.not_lt.1 hlimit, ih h⟩
  | case9 links at_ name _ _ hlimit => exact List.forall_mem_cons.2 ⟨Nat.not_lt.1 hlimit, nofun⟩
  | case10 => cases h
  | case11 links at_ name rest _ _ hlimit target _ hlast =>
    obtain ⟨rfl, -⟩ := hlast
    exact List.forall_mem_cons.2 ⟨Nat.not_lt.1 hlimit, nofun⟩
  | case12 => cases h
  | case13 => cases h
  | case14 at_ name rest _ _ hlimit target _ _ links start _ ih =>
    exact List.forall_mem_cons.2 ⟨Nat.not_lt.1 hlimit, fun n hn => ih h n (List.mem_append_right _ hn)⟩

/-! ### Staying within a place -/

/-- Nothing at or below the place is a link. -/
def Unlinked (t : Tree) (place : Place) : Prop :=
  ∀ p target, place <+: p → t.get? p ≠ some (.link target)

/-- Whether names that begin `depth` names below a place never lead above it. -/
def stays : Nat → List String → Bool
  | _, [] => true
  | depth, name :: rest =>
    if name = "." then stays depth rest
    else if name = ".." then depth ≠ 0 && stays (depth - 1) rest
    else stays (depth + 1) rest

section Stays

variable {depth : Nat}

@[simp] theorem stays_nil : stays depth [] = true := rfl

@[simp] theorem stays_here : stays depth ("." :: names) = stays depth names := by
  rw [stays, if_pos rfl]

theorem stays_up : stays depth (".." :: names) = true ↔ depth ≠ 0 ∧ stays (depth - 1) names = true := by
  rw [stays, if_neg (by decide), if_pos rfl, Bool.and_eq_true, decide_eq_true_iff]

theorem stays_down {name : String} (hhere : name ≠ ".") (hup : name ≠ "..") :
    stays depth (name :: names) = stays (depth + 1) names := by
  rw [stays, if_neg hhere, if_neg hup]

theorem stays_mono {more : Nat} (hle : depth ≤ more) (h : stays depth names = true) :
    stays more names = true := by
  induction names generalizing depth more with
  | nil => rfl
  | cons name rest ih =>
    by_cases hhere : name = "."
    · subst hhere
      rw [stays_here] at h ⊢
      exact ih hle h
    by_cases hup : name = ".."
    · subst hup
      rw [stays_up] at h ⊢
      exact ⟨by omega, ih (by omega) h.2⟩
    · rw [stays_down hhere hup] at h ⊢
      exact ih (by omega) h

theorem stays_append {more : List String} (h : stays depth names = true) (hmore : stays 0 more = true) :
    stays depth (names ++ more) = true := by
  induction names generalizing depth with
  | nil => exact stays_mono (Nat.zero_le depth) hmore
  | cons name rest ih =>
    rw [List.cons_append]
    by_cases hhere : name = "."
    · subst hhere
      rw [stays_here] at h ⊢
      exact ih h
    by_cases hup : name = ".."
    · subst hup
      rw [stays_up] at h ⊢
      exact ⟨h.1, ih h.2⟩
    · rw [stays_down hhere hup] at h ⊢
      exact ih h

theorem stays_front {front : List String} (hle : front <+: names) (h : stays depth names = true) :
    stays depth front = true := by
  induction front generalizing depth names with
  | nil => rfl
  | cons name front ih =>
    obtain ⟨more, rfl⟩ := hle
    have hfront : front <+: front ++ more := List.prefix_append front more
    rw [List.cons_append] at h
    by_cases hhere : name = "."
    · subst hhere
      rw [stays_here] at h ⊢
      exact ih hfront h
    by_cases hup : name = ".."
    · subst hup
      rw [stays_up] at h ⊢
      exact ⟨h.1, ih hfront h.2⟩
    · rw [stays_down hhere hup] at h ⊢
      exact ih hfront h

theorem stays_of_not_mem (h : ".." ∉ names) : stays depth names = true := by
  induction names generalizing depth with
  | nil => rfl
  | cons name rest ih =>
    rw [List.mem_cons, not_or] at h
    by_cases hhere : name = "."
    · subst hhere
      rw [stays_here]
      exact ih h.2
    · rw [stays_down hhere (Ne.symm h.1)]
      exact ih h.2

end Stays

/-- **A path that never leads above the place where it may begin comes to places at or below it.** -/
theorem follow_within {place : Place} {depth : Nat} (hlinks : Unlinked t place) (hat : place <+: at_)
    (hdepth : place.length + depth ≤ at_.length) (hnames : stays depth names = true)
    (h : follow t links at_ names through = .ok spot) :
    (∃ p entry, spot = .found p entry ∧ place <+: p) ∨
      ∃ p name, spot = .missing p name ∧ place <+: p := by
  fun_induction follow t links at_ names through generalizing depth with
  | case1 => cases h
  | case2 links at_ entry hget =>
    cases h
    exact .inl ⟨_, _, rfl, hat⟩
  | case3 links at_ rest ih => exact ih hat hdepth (stays_here ▸ hnames) h
  | case4 links at_ rest ih =>
    -- One step up from a place that lies deeper ends at the place or below it.
    obtain ⟨hne, hrest⟩ := stays_up.1 hnames
    have hlength : place.length + (depth - 1) ≤ at_.dropLast.length := by
      rw [List.length_dropLast]
      omega
    exact ih (List.prefix_of_prefix_length_le hat (List.dropLast_prefix at_) (by omega)) hlength hrest h
  | case5 => cases h
  | case6 =>
    cases h
    exact .inr ⟨_, _, rfl, hat⟩
  | case7 => cases h
  | case8 links at_ name rest hhere hup _ hget ih =>
    rw [stays_down hhere hup] at hnames
    refine ih (hat.trans (List.prefix_append at_ [name])) ?_ hnames h
    rw [List.length_append, List.length_singleton]
    omega
  | case9 links at_ name =>
    cases h
    exact .inl ⟨_, _, rfl, hat.trans (List.prefix_append at_ [name])⟩
  | case10 => cases h
  | case11 links at_ name rest _ _ _ target hget =>
    exact absurd hget (hlinks _ target (hat.trans (List.prefix_append at_ [name])))
  | case12 at_ name rest _ _ _ target hget =>
    exact absurd hget (hlinks _ target (hat.trans (List.prefix_append at_ [name])))
  | case13 at_ name rest _ _ _ target hget =>
    exact absurd hget (hlinks _ target (hat.trans (List.prefix_append at_ [name])))
  | case14 at_ name rest _ _ _ target hget =>
    exact absurd hget (hlinks _ target (hat.trans (List.prefix_append at_ [name])))

/-! ### Going down -/

/-- A name that leads down and is short enough. -/
structure Passable (name : String) : Prop where
  here : name ≠ "."
  up : name ≠ ".."
  limit : ¬ nameLimit < name.utf8ByteSize

/-- Through directories a path leads down name by name. -/
theorem follow_down (ht : t.Sound) (hnames : ∀ n ∈ names, Passable n)
    (h : t.get? (at_ ++ names) = some .directory) (more : List String) :
    follow t links at_ (names ++ more) through = follow t links (at_ ++ names) more through := by
  induction names generalizing at_ with
  | nil => rw [List.append_nil, List.nil_append]
  | cons name rest ih =>
    obtain ⟨hhere, hup, hlimit⟩ := hnames name List.mem_cons_self
    rw [List.append_cons] at h
    have hdir : t.get? (at_ ++ [name]) = some .directory := ht.directory_of_prefix h (List.prefix_append _ rest)
    rw [List.cons_append, follow_directory hhere hup hlimit hdir,
      ih (fun n hn => hnames n (List.mem_cons_of_mem _ hn)) h, List.append_assoc]
    rfl

/-- What is no link is found where the names say. -/
theorem follow_found (ht : t.Sound) {entry : Entry} (hnames : ∀ n ∈ names, Passable n)
    (h : t.get? (at_ ++ names) = some entry) (hlink : entry.isLink = false) :
    follow t links at_ names through = .ok (.found (at_ ++ names) entry) := by
  induction names using List.reverseRecOn with
  | nil =>
    rw [List.append_nil] at h ⊢
    exact follow_nil h
  | append_singleton front last _ =>
    rw [List.forall_mem_append] at hnames
    obtain ⟨hhere, hup, hlimit⟩ := hnames.2 last List.mem_cons_self
    rw [← List.append_assoc] at h ⊢
    rw [follow_down ht hnames.1 (ht.parent _ _ _ h)]
    cases entry with
    | file data => rw [follow_file hhere hup hlimit h, if_pos rfl]
    | directory => rw [follow_directory hhere hup hlimit h, follow_nil h]
    | link target => cases hlink

/-- What could be made is missing where the names say. -/
theorem follow_missing (ht : t.Sound) {last : String} (hnames : ∀ n ∈ names, Passable n)
    (hlast : Passable last) (h : t.get? (at_ ++ names) = some .directory)
    (hnone : t.get? (at_ ++ names ++ [last]) = none) :
    follow t links at_ (names ++ [last]) through = .ok (.missing (at_ ++ names) last) := by
  rw [follow_down ht hnames h, follow_none hlast.here hlast.up hlast.limit hnone, if_pos rfl]

/-- Where a directory on the way is missing, nothing is found. -/
theorem follow_notFound (hnames : ∀ n ∈ names, Passable n)
    (hdirs : ∀ front, front <+: names → t.get? (at_ ++ front) = some .directory ∨ t.get? (at_ ++ front) = none)
    (hnone : t.get? (at_ ++ names) = none) (hat : t.get? at_ = some .directory) {more : List String}
    (hmore : more ≠ []) : follow t links at_ (names ++ more) through = .error .notFound := by
  induction names generalizing at_ with
  | nil =>
    rw [List.append_nil, hat] at hnone
    cases hnone
  | cons name rest ih =>
    obtain ⟨hhere, hup, hlimit⟩ := hnames name List.mem_cons_self
    rw [List.cons_append]
    rcases hdirs [name] (List.prefix_append [name] rest) with hdir | hfree
    · rw [follow_directory hhere hup hlimit hdir]
      refine ih (fun n hn => hnames n (List.mem_cons_of_mem _ hn)) (fun front hfront => ?_) ?_ hdir
      · rw [List.append_assoc]
        exact hdirs (name :: front) (List.cons_prefix_cons.2 ⟨rfl, hfront⟩)
      · rwa [List.append_cons] at hnone
    · rw [follow_none hhere hup hlimit hfree, if_neg (by simp [hmore])]

/-- A path to a directory leads there without the dot behind it. -/
theorem follow_concat_here {place : Place} {entry : Entry}
    (h : follow t links at_ (names ++ ["."]) true = .ok (.found place entry)) :
    follow t links at_ names true = .ok (.found place entry) := by
  generalize hthrough : true = through at h ⊢
  fun_induction follow t links at_ names through with
  | case1 links at_ hnone =>
    rw [List.nil_append, follow_here, follow, hnone] at h
    exact h
  | case2 links at_ entry hget =>
    rw [List.nil_append, follow_here, follow_nil hget] at h
    exact h
  | case3 links at_ rest ih =>
    rw [List.cons_append, follow_here] at h
    exact ih h
  | case4 links at_ rest ih =>
    rw [List.cons_append, follow_up] at h
    exact ih h
  | case5 links at_ name rest _ _ hlimit =>
    exact absurd (follow_fits h name List.mem_cons_self) (Nat.not_le.2 hlimit)
  | case6 links at_ name hhere hup hlimit hnone =>
    rw [List.cons_append, follow_none hhere hup hlimit hnone] at h
    cases h
  | case7 links at_ name rest hhere hup hlimit hnone =>
    rw [List.cons_append, follow_none hhere hup hlimit hnone, if_neg (by simp)] at h
    cases h
  | case8 links at_ name rest hhere hup hlimit hget ih =>
    rw [List.cons_append, follow_directory hhere hup hlimit hget] at h
    exact ih h
  | case9 links at_ name hhere hup hlimit data hget =>
    rw [List.cons_append, follow_file hhere hup hlimit hget] at h
    cases h
  | case10 links at_ name rest hhere hup hlimit data hget =>
    rw [List.cons_append, follow_file hhere hup hlimit hget, if_neg (by simp)] at h
    cases h
  | case11 links at_ name rest _ _ _ target _ hlast =>
    rw [← hthrough] at hlast
    cases hlast.2
  | case12 at_ name rest hhere hup hlimit target hget =>
    rw [List.cons_append, follow_linked hhere hup hlimit hget (by simp)] at h
    cases h
  | case13 at_ name rest hhere hup hlimit target hget _ links hempty =>
    rw [List.cons_append, follow_linked hhere hup hlimit hget (by simp)] at h
    simp only [hempty, if_true] at h
    cases h
  | case14 at_ name rest hhere hup hlimit target hget _ links start hempty ih =>
    rw [List.cons_append, follow_link hhere hup hlimit hget (by simp) (by simpa using hempty),
      ← List.append_assoc] at h
    exact ih h

/-- Where the last name is not followed, it leads to the same, or it is a link. -/
theorem follow_named (h : follow t links at_ names true = .ok spot) :
    follow t links at_ names false = .ok spot ∨
      ∃ place target, follow t links at_ names false = .ok (.found place (.link target)) := by
  generalize hthrough : true = through at h
  fun_induction follow t links at_ names through with
  | case1 => cases h
  | case2 links at_ entry hget =>
    rw [follow_nil hget]
    exact .inl h
  | case3 links at_ rest ih =>
    rw [follow_here]
    exact ih h
  | case4 links at_ rest ih =>
    rw [follow_up]
    exact ih h
  | case5 => cases h
  | case6 links at_ name hhere hup hlimit hnone =>
    rw [follow_none hhere hup hlimit hnone, if_pos rfl]
    exact .inl h
  | case7 => cases h
  | case8 links at_ name rest hhere hup hlimit hget ih =>
    rw [follow_directory hhere hup hlimit hget]
    exact ih h
  | case9 links at_ name hhere hup hlimit data hget =>
    rw [follow_file hhere hup hlimit hget, if_pos rfl]
    exact .inl h
  | case10 => cases h
  | case11 links at_ name rest _ _ _ target _ hlast =>
    rw [← hthrough] at hlast
    cases hlast.2
  | case12 => cases h
  | case13 => cases h
  | case14 at_ name rest hhere hup hlimit target hget _ links start hempty ih =>
    by_cases hrest : rest = []
    · subst hrest
      exact .inr ⟨_, target, follow_last hhere hup hlimit hget⟩
    · rw [follow_link hhere hup hlimit hget (by simp [hrest]) (by simpa using hempty)]
      exact ih h

/-- What is named and is no link is led to. -/
theorem follow_of_named (h : follow t links at_ names false = .ok spot)
    (hlink : ∀ place target, spot ≠ .found place (.link target)) : follow t links at_ names true = .ok spot := by
  generalize hthrough : false = through at h
  fun_induction follow t links at_ names through with
  | case1 => cases h
  | case2 links at_ entry hget =>
    rw [follow_nil hget]
    exact h
  | case3 links at_ rest ih =>
    rw [follow_here]
    exact ih h
  | case4 links at_ rest ih =>
    rw [follow_up]
    exact ih h
  | case5 => cases h
  | case6 links at_ name hhere hup hlimit hnone =>
    rw [follow_none hhere hup hlimit hnone, if_pos rfl]
    exact h
  | case7 => cases h
  | case8 links at_ name rest hhere hup hlimit hget ih =>
    rw [follow_directory hhere hup hlimit hget]
    exact ih h
  | case9 links at_ name hhere hup hlimit data hget =>
    rw [follow_file hhere hup hlimit hget, if_pos rfl]
    exact h
  | case10 => cases h
  | case11 links at_ name rest _ _ _ target =>
    cases h
    exact absurd rfl (hlink _ _)
  | case12 => cases h
  | case13 => cases h
  | case14 at_ name rest hhere hup hlimit target hget _ links start hempty ih =>
    rw [follow_link hhere hup hlimit hget (by simp) (by simpa using hempty)]
    exact ih h

namespace Disk

variable {d d' : Disk} {p : Path} {parent : Place} {name : String}

/-- A text that can be looked up. -/
def Findable (text : List Char) : Prop :=
  text ≠ [] ∧ '\x00' ∉ text ∧ ¬ pathLimit ≤ (String.ofList text).utf8ByteSize

theorem findText_eq_ok_iff {text : List Char} : d.findText text through = .ok spot ↔ Findable text ∧
    follow d.tree linkLimit (if text.head? = some '/' then [] else d.here) (steps text) through =
      .ok spot := by
  unfold findText Findable
  split
  · simp_all
  split
  · simp_all
  split
  · simp_all
  · simp_all

theorem findText_of_findTrimmed (h : d.findTrimmed p through = .ok spot) :
    d.findText (withoutSlash p.chars) through = .ok spot := by
  unfold findTrimmed at h
  split at h
  · cases h
  · exact h

theorem get?_of_findText_missing {text : List Char} (h : d.findText text through = .ok (.missing parent name)) :
    d.tree.get? (parent ++ [name]) = none :=
  get?_of_missing (findText_eq_ok_iff.1 h).2

theorem get?_of_find {place : Place} {entry : Entry} (h : d.find p through = .ok (.found place entry)) :
    d.tree.get? place = some entry :=
  get?_of_found (findText_eq_ok_iff.1 h).2

theorem findText_named {text : List Char} (h : d.findText text true = .ok spot) :
    d.findText text false = .ok spot ∨
      ∃ place target, d.findText text false = .ok (.found place (.link target)) := by
  obtain ⟨hfindable, hfollow⟩ := findText_eq_ok_iff.1 h
  rcases follow_named hfollow with hsame | ⟨place, target, hlink⟩
  · exact .inl (findText_eq_ok_iff.2 ⟨hfindable, hsame⟩)
  · exact .inr ⟨place, target, findText_eq_ok_iff.2 ⟨hfindable, hlink⟩⟩

end Disk

end PluginShading.Files
