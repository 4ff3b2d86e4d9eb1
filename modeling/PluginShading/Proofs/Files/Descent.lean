import PluginShading.Proofs.Files.Names

/-!
The ways down from a path.

`root.under names` is what names lead to from `root`, one below the other. Different names are different
paths (`same_under_iff`), the last name left away is the parent (`parent_under`), and what is below a
path is below it wherever that stands (`join_under`). The parent of any other path is on the way to it as well
(`parent_prefix`).
-/
namespace PluginShading

open Files (namesIn isName isName_iff)

namespace Path

variable {p q r root : Path} {name : String} {names more : List String}

/-! ### Components -/

theorem lead_append {a : List Char} (ha : a ≠ []) (b : List Char) :
    lead (a ++ '/' :: b) = ((lead a).1, (lead a).2 ++ '/' :: b) := by
  obtain ⟨c, rest, rfl⟩ := List.exists_cons_of_ne_nil ha
  by_cases hroot : c = '/'
  · subst hroot
    rfl
  by_cases hhere : c = '.'
  · subst hhere
    rcases rest with - | ⟨x, rest⟩
    · rfl
    by_cases hx : x = '/'
    · subst hx
      rfl
    · simp [lead, hx]
  · simp [lead, hroot, hhere]

/-- The text is what leads it in and the rest. -/
theorem exists_lead (text : List Char) : ∃ front, text = front ++ (lead text).2 ∧
    namesIn front <+: namesIn text ∧ (text.head? = some '/' → front.head? = some '/') := by
  unfold lead
  split
  · exact ⟨['/'], rfl, List.nil_prefix, fun _ => rfl⟩
  · exact ⟨['.'], rfl, List.prefix_rfl, nofun⟩
  · rename_i rest
    refine ⟨['.'], rfl, ?_, nofun⟩
    rw [show '.' :: '/' :: rest = ['.'] ++ '/' :: rest from rfl, Files.namesIn_append]
    exact List.prefix_append _ _
  · rename_i hroot _ _
    refine ⟨[], rfl, List.nil_prefix, fun hhead => ?_⟩
    obtain ⟨rest, rfl⟩ := List.head?_eq_some_iff.1 hhead
    exact absurd rfl (hroot rest)

/-- What leads a path in is what the rest leaves of it. -/
theorem take_lead {text front : List Char} (h : text = front ++ (lead text).2) :
    text.take (text.length - (lead text).2.length) = front := by
  have hlength := congrArg List.length h
  rw [List.length_append] at hlength
  rw [hlength, Nat.add_sub_cancel]
  conv_lhs => rw [h]
  exact List.take_left

theorem component?_name (h : isName name = true) : component? name.toList = some (.name name) := by
  obtain ⟨hne, -, hhere, hup⟩ := isName_iff.1 h
  rw [component?, if_neg (not_or.2 ⟨hne, hhere⟩), if_neg hup, String.ofList_toList]

theorem isAbsolute_name (h : isName name = true) : Path.isAbsolute ⟨name⟩ = false :=
  (Files.leadsDown_of_isName h).1

theorem lead_name (h : isName name = true) : lead name.toList = ([], name.toList) := by
  obtain ⟨-, hfree, hhere, -⟩ := isName_iff.1 h
  unfold lead
  split
  · rename_i hroot
    exact absurd (hroot ▸ List.mem_cons_self) hfree
  · contradiction
  · rename_i hroot
    exact absurd (hroot ▸ List.mem_cons_of_mem _ List.mem_cons_self) hfree
  · rfl

theorem chars_join_name (h : isName name = true) : (p.join ⟨name⟩).chars =
    if p.chars = [] ∨ p.chars.getLast? = some '/' then p.chars ++ name.toList
    else p.chars ++ '/' :: name.toList :=
  chars_join_relative (isAbsolute_name h)

/-- Behind a path that does not end in a separator, a name is a piece of its own. -/
theorem lead_join_of_last (hp : p.chars ≠ []) (hlast : p.chars.getLast? ≠ some '/') (h : isName name = true) :
    lead (p.join ⟨name⟩).chars = ((lead p.chars).1, (lead p.chars).2 ++ '/' :: name.toList) := by
  rw [Files.chars_join (isAbsolute_name h) hp, if_neg hlast, lead_append hp]
  rfl

/-- A name comes last among the pieces, and what stands before it is what was there. -/
theorem lead_join (p : Path) (h : isName name = true) : ∃ front,
    (lead (p.join ⟨name⟩).chars).1 = (lead p.chars).1 ∧
      Text.pieces '/' (lead (p.join ⟨name⟩).chars).2 = front ++ [name.toList] ∧
      front.filterMap component? = (Text.pieces '/' (lead p.chars).2).filterMap component? := by
  have hfree := (isName_iff.1 h).2.1
  by_cases hp : p.chars = []
  · rw [chars_join_name h, if_pos (.inl hp), hp, List.nil_append, lead_name h]
    exact ⟨[], rfl, Text.pieces_of_not_mem hfree, rfl⟩
  have hpieces : ∀ a, Text.pieces '/' (a ++ '/' :: name.toList) = Text.pieces '/' a ++ [name.toList] :=
    fun a => by rw [Text.pieces_append, Text.pieces_of_not_mem hfree]
  by_cases hlast : p.chars.getLast? = some '/'
  · rw [Files.chars_join (isAbsolute_name h) hp, if_pos hlast]
    obtain ⟨front, hfront⟩ := List.getLast?_eq_some_iff.1 hlast
    have hchars : Path.chars ⟨name⟩ = name.toList := rfl
    rw [hfront, List.append_assoc, List.singleton_append, hchars]
    by_cases hnil : front = []
    · subst hnil
      exact ⟨[], rfl, Text.pieces_of_not_mem hfree, rfl⟩
    · rw [lead_append hnil, lead_append hnil]
      refine ⟨Text.pieces '/' (lead front).2, rfl, hpieces _, ?_⟩
      show _ = List.filterMap component? (Text.pieces '/' ((lead front).2 ++ '/' :: []))
      rw [Text.pieces_append, List.filterMap_append]
      exact (List.append_nil _).symm
  · rw [lead_join_of_last hp hlast h]
    exact ⟨_, rfl, hpieces _, rfl⟩

theorem components_join (p : Path) (h : isName name = true) :
    (p.join ⟨name⟩).components = p.components ++ [.name name] := by
  obtain ⟨front, hlead, hpieces, hfront⟩ := lead_join p h
  simp only [components, hlead, hpieces, List.filterMap_append, hfront, List.append_assoc]
  rw [List.filterMap_cons_some (component?_name h), List.filterMap_nil]

/-! ### Parents -/

theorem join_ne_nil (p : Path) (h : isName name = true) : (p.join ⟨name⟩).chars ≠ [] := by
  rw [chars_join_name h]
  split <;> simp [(isName_iff.1 h).1]

theorem getLast?_join (p : Path) (h : isName name = true) : (p.join ⟨name⟩).chars.getLast? ≠ some '/' := by
  obtain ⟨hne, hfree, -⟩ := isName_iff.1 h
  rw [chars_join_name h]
  split
  · rw [List.getLast?_append_of_ne_nil _ hne]
    exact fun hlast => hfree (List.mem_of_getLast? hlast)
  · rw [List.getLast?_append_of_ne_nil _ (List.cons_ne_nil _ _), List.getLast?_cons_of_ne_nil hne]
    exact fun hlast => hfree (List.mem_of_getLast? hlast)

theorem namesIn_join (p : Path) (h : isName name = true) :
    namesIn (p.join ⟨name⟩).chars = namesIn p.chars ++ [name] := by
  obtain ⟨hne, hfree, -⟩ := isName_iff.1 h
  have hself : namesIn name.toList = [name] := by rw [Files.namesIn_singleton hne hfree, String.ofList_toList]
  by_cases hp : p.chars = []
  · rw [chars_join_name h, if_pos (.inl hp), hp, List.nil_append, hself]
    rfl
  · rw [Files.namesIn_join (isAbsolute_name h) hp]
    exact congrArg _ hself

/-- **What is above a name is what the name was joined to**, where that ends in a name itself. -/
theorem parent_join_join (p : Path) {above : String} (ha : isName above = true)
    (h : isName name = true) : ((p.join ⟨above⟩).join ⟨name⟩).parent = some (p.join ⟨above⟩) := by
  obtain ⟨before, -, habove, -⟩ := lead_join p ha
  have hne := join_ne_nil p ha
  have hlead := lead_join_of_last hne (getLast?_join p ha) h
  have hjoin : ((p.join ⟨above⟩).join ⟨name⟩).chars = (p.join ⟨above⟩).chars ++ '/' :: name.toList := by
    rw [Files.chars_join (isAbsolute_name h) hne, if_neg (getLast?_join p ha)]
    rfl
  have hcomponents := components_join (p.join ⟨above⟩) h
  generalize hq : p.join ⟨above⟩ = q at *
  obtain ⟨front, hfront, -⟩ := exists_lead q.chars
  have hblank : ∀ {n : String}, isName n = true → (component? n.toList).isNone = false :=
    fun hn => by rw [component?_name hn]; rfl
  have hpieces : (Text.pieces '/' (lead (q.join ⟨name⟩).chars).2).reverse =
      name.toList :: above.toList :: before.reverse := by
    rw [hlead, Text.pieces_append, habove, Text.pieces_of_not_mem (isName_iff.1 h).2.1]
    simp
  have htake : (q.join ⟨name⟩).chars.take ((q.join ⟨name⟩).chars.length -
      (lead (q.join ⟨name⟩).chars).2.length) = front := by
    refine take_lead ?_
    rw [hlead, hjoin, ← List.append_assoc, ← hfront]
  unfold parent
  rw [hcomponents, List.getLast?_append, List.getLast?_singleton]
  simp only [Option.some_or, htake, hpieces]
  rw [List.dropWhile_cons_of_neg (by simp [hblank h]), List.drop_one, List.tail_cons,
    List.dropWhile_cons_of_neg (by simp [hblank ha]), List.reverse_cons, List.reverse_reverse, ← habove,
    Text.join_pieces, ← hfront, chars, String.ofList_toList]

theorem here_not_mem_components (hp : p.isAbsolute = true) : Component.here ∉ p.components := by
  obtain ⟨rest, hrest⟩ := List.head?_eq_some_iff.1 (beq_iff_eq.1 hp)
  rw [components, hrest]
  show Component.here ∉ [Component.root] ++ _
  rw [List.mem_append, not_or]
  refine ⟨by decide, fun hmem => ?_⟩
  obtain ⟨piece, -, hpiece⟩ := List.mem_filterMap.1 hmem
  unfold component? at hpiece
  split at hpiece
  · cases hpiece
  · split at hpiece <;> cases hpiece

/-- What is left when the last of a list goes, with all blanks around it, is its front. -/
theorem exists_behind {α : Type} (blank : α → Bool) (l : List α) :
    ∃ behind, (((l.reverse.dropWhile blank).drop 1).dropWhile blank).reverse ++ behind = l := by
  have hsuffix := (List.dropWhile_suffix (l := (l.reverse.dropWhile blank).drop 1) blank).trans
    ((List.drop_suffix 1 _).trans (List.dropWhile_suffix blank))
  obtain ⟨behind, hbehind⟩ := List.reverse_prefix.2 hsuffix
  exact ⟨behind, hbehind.trans l.reverse_reverse⟩

/-- **A path leads on from its parent**: the names in the parent stand in front of the rest. -/
theorem parent_prefix (h : p.parent = some q) (hp : p.isAbsolute = true) :
    q.isAbsolute = true ∧ namesIn q.chars <+: namesIn p.chars := by
  obtain ⟨front, hfront, hnames, hhead⟩ := exists_lead p.chars
  have hhead := hhead (beq_iff_eq.1 hp)
  have hne : front ≠ [] := by
    rintro rfl
    cases hhead
  unfold parent at h
  split at h
  · cases h
  · cases h
  · rename_i hlast
    exact absurd (List.mem_of_getLast? hlast) (here_not_mem_components hp)
  · cases h
    obtain ⟨b, hpieces⟩ := exists_behind (fun piece => (component? piece).isNone)
      (Text.pieces '/' (lead p.chars).2)
    rw [take_lead hfront]
    generalize List.reverse _ = a at hpieces ⊢
    have hchars : Path.chars ⟨String.ofList (front ++ Text.join '/' a)⟩ = front ++ Text.join '/' a :=
      String.toList_ofList
    rw [isAbsolute, hchars, List.head?_append_of_ne_nil _ hne, hhead]
    refine ⟨rfl, ?_⟩
    have hrest := Text.join_pieces '/' (lead p.chars).2
    rw [← hpieces] at hrest
    by_cases ha : a = []
    · rw [ha]
      exact (List.append_nil front).symm ▸ hnames
    by_cases hb : b = []
    · rw [hb, List.append_nil] at hrest
      have heq : front ++ Text.join '/' a = p.chars := by rw [hrest, ← hfront]
      exact heq ▸ List.prefix_rfl
    · rw [Text.join_append ha hb] at hrest
      conv_rhs => rw [hfront, ← hrest, ← List.append_assoc]
      rw [Files.namesIn_append]
      exact List.prefix_append _ _

theorem join_empty (p : Path) : (⟨""⟩ : Path).join p = p := by
  unfold join
  split
  · rfl
  · rw [if_pos (.inl rfl)]
    exact congrArg Path.mk String.empty_append

/-! ### Ways down -/

/-- What the names lead to from `root`. -/
def under (root : Path) (names : List String) : Path := names.foldl (fun p name => p.join ⟨name⟩) root

@[simp] theorem under_nil : root.under [] = root := rfl

theorem under_append : root.under (names ++ more) = (root.under names).under more := List.foldl_append

theorem under_concat : root.under (names ++ [name]) = (root.under names).join ⟨name⟩ := under_append

section Names

variable (hnames : ∀ n ∈ names, isName n = true)
include hnames

theorem under_ne_nil (hroot : root.chars ≠ []) : (root.under names).chars ≠ [] := by
  rcases List.eq_nil_or_concat' names with rfl | ⟨front, name, rfl⟩
  · exact hroot
  · rw [under_concat]
    exact join_ne_nil _ (hnames name (List.mem_append_right _ List.mem_cons_self))

theorem components_under : (root.under names).components = root.components ++ names.map Component.name := by
  induction names using List.reverseRecOn with
  | nil => simp
  | append_singleton front name ih =>
    rw [List.forall_mem_append] at hnames
    rw [under_concat, components_join _ (hnames.2 name List.mem_cons_self), ih hnames.1, List.append_assoc,
      List.map_append]
    rfl

theorem namesIn_under : namesIn (root.under names).chars = namesIn root.chars ++ names := by
  induction names using List.reverseRecOn with
  | nil => simp
  | append_singleton front name ih =>
    rw [List.forall_mem_append] at hnames
    rw [under_concat, namesIn_join _ (hnames.2 name List.mem_cons_self), ih hnames.1, List.append_assoc]

/-- A way down starts where the path does. -/
theorem isAbsolute_under : (root.under names).isAbsolute = root.isAbsolute := by
  induction names using List.reverseRecOn with
  | nil => rfl
  | append_singleton front name ih =>
    rw [List.forall_mem_append] at hnames
    have hname := isAbsolute_name (hnames.2 name List.mem_cons_self)
    rw [under_concat, ← ih hnames.1]
    by_cases hfront : (root.under front).chars = []
    · have hrelative : (root.under front).isAbsolute = false := by
        rw [isAbsolute, hfront]
        rfl
      rw [hrelative, isAbsolute, chars_join_relative hname, if_pos (.inl hfront), hfront]
      exact hname
    · rw [isAbsolute, Files.head?_join hname hfront]
      rfl

theorem getLast?_under (hne : names ≠ []) : (root.under names).chars.getLast? ≠ some '/' := by
  obtain ⟨front, name, rfl⟩ := (List.eq_nil_or_concat' names).resolve_left hne
  rw [List.forall_mem_append] at hnames
  rw [under_concat]
  exact getLast?_join _ (hnames.2 name List.mem_cons_self)

theorem steps_under (hne : names ≠ []) :
    Files.steps (root.under names).chars = namesIn root.chars ++ names := by
  rw [Files.steps_eq, if_neg (getLast?_under hnames hne), List.append_nil, namesIn_under hnames]

/-- A way down only adds to the text, separators and characters of the names. -/
theorem exists_under (root : Path) : ∃ tail, (root.under names).chars = root.chars ++ tail ∧
    ∀ c ∈ tail, c = '/' ∨ ∃ name ∈ names, c ∈ name.toList := by
  induction names using List.reverseRecOn with
  | nil => exact ⟨[], (List.append_nil _).symm, nofun⟩
  | append_singleton front name ih =>
    rw [List.forall_mem_append] at hnames
    obtain ⟨tail, htail, hmem⟩ := ih hnames.1
    have hfront : ∀ c ∈ tail, c = '/' ∨ ∃ n ∈ front ++ [name], c ∈ n.toList := fun c hc =>
      (hmem c hc).imp_right fun ⟨n, hn, hc⟩ => ⟨n, List.mem_append_left _ hn, hc⟩
    have hlast : ∀ c ∈ name.toList, c = '/' ∨ ∃ n ∈ front ++ [name], c ∈ n.toList :=
      fun c hc => .inr ⟨name, List.mem_append_right _ List.mem_cons_self, hc⟩
    rw [under_concat, chars_join_name (hnames.2 name List.mem_cons_self), htail]
    split <;> rw [List.append_assoc]
    · exact ⟨_, rfl, List.forall_mem_append.2 ⟨hfront, hlast⟩⟩
    · exact ⟨_, rfl, List.forall_mem_append.2 ⟨hfront, List.forall_mem_cons.2 ⟨.inl rfl, hlast⟩⟩⟩

theorem length_le_under (root : Path) : names.length ≤ (root.under names).chars.length := by
  induction names using List.reverseRecOn with
  | nil => exact Nat.zero_le _
  | append_singleton front name ih =>
    rw [List.forall_mem_append] at hnames
    have hname := hnames.2 name List.mem_cons_self
    have hpos : 0 < name.toList.length := List.length_pos_iff.2 (isName_iff.1 hname).1
    have hfront := ih hnames.1
    rw [under_concat, chars_join_name hname, List.length_append, List.length_singleton]
    split <;> rw [List.length_append]
    · omega
    · rw [List.length_cons]
      omega

end Names

/-- Different names lead to different paths. -/
theorem same_under_iff (hnames : ∀ n ∈ names, isName n = true) (hmore : ∀ n ∈ more, isName n = true) :
    (root.under names).same (root.under more) = true ↔ names = more := by
  rw [same, beq_iff_eq, components_under hnames, components_under hmore, List.append_cancel_left_eq]
  exact (List.map_injective_iff.2 fun _ _ => Component.name.inj).eq_iff

theorem parent_under (hnames : ∀ n ∈ names ++ [name], isName n = true) (hne : names ≠ []) :
    (root.under (names ++ [name])).parent = some (root.under names) := by
  obtain ⟨front, above, rfl⟩ := (List.eq_nil_or_concat' names).resolve_left hne
  simp only [List.forall_mem_append] at hnames
  rw [under_concat, under_concat]
  exact parent_join_join _ (hnames.1.2 above List.mem_cons_self) (hnames.2 name List.mem_cons_self)

/-! ### Joining ways -/

theorem join_join (hq : q.isAbsolute = false) (hne : q.chars ≠ []) (hr : r.isAbsolute = false) :
    p.join (q.join r) = (p.join q).join r := by
  have hqr : (q.join r).isAbsolute = false := by
    rw [isAbsolute, Files.head?_join hr hne]
    exact hq
  have hpq : (p.join q).chars ≠ [] ∧ (p.join q).chars.getLast? = q.chars.getLast? := by
    rw [chars_join_relative hq]
    split
    · exact ⟨by simp [hne], List.getLast?_append_of_ne_nil _ hne⟩
    · exact ⟨by simp, by
        rw [List.getLast?_append_of_ne_nil _ (List.cons_ne_nil _ _), List.getLast?_cons_of_ne_nil hne]⟩
  have hchars : (p.join (q.join r)).chars = ((p.join q).join r).chars := by
    rw [Files.chars_join hr hpq.1, hpq.2, chars_join_relative hqr, Files.chars_join hr hne,
      chars_join_relative hq]
    split <;> split <;> simp
  cases hleft : p.join (q.join r)
  cases hright : (p.join q).join r
  rw [hleft, hright] at hchars
  exact congrArg Path.mk (String.toList_injective hchars)

/-- A way down from nowhere leads down from where it is joined to. -/
theorem join_under (hnames : ∀ n ∈ names, isName n = true) (hne : names ≠ []) :
    root.join ((⟨""⟩ : Path).under names) = root.under names := by
  obtain ⟨first, rest, rfl⟩ := List.exists_cons_of_ne_nil hne
  have hfirst := hnames first List.mem_cons_self
  have hrest : ∀ n ∈ rest, isName n = true := fun n hn => hnames n (List.mem_cons_of_mem _ hn)
  have hchars : (⟨first⟩ : Path).chars ≠ [] := (isName_iff.1 hfirst).1
  show root.join (((⟨""⟩ : Path).join ⟨first⟩).under rest) = (root.join ⟨first⟩).under rest
  rw [join_empty]
  clear hnames hne
  induction rest using List.reverseRecOn with
  | nil => rfl
  | append_singleton front name ih =>
    rw [List.forall_mem_append] at hrest
    have hrelative : ((⟨first⟩ : Path).under front).isAbsolute = false :=
      (isAbsolute_under hrest.1).trans (isAbsolute_name hfirst)
    rw [under_concat, under_concat, join_join hrelative (under_ne_nil hrest.1 hchars)
      (isAbsolute_name (hrest.2 name List.mem_cons_self)), ih hrest.1]

end Path

end PluginShading
