import PluginShading.Proofs.Files.Descent

/-!
What is above a path.

The parent of a path is the text in front of its last piece that names something (`Path.parent_eq`). So where a path
ends in a name, the other names of it lead to the parent, but for dots (`Path.exists_parent`).
-/
namespace PluginShading

open Files (namesIn isName)

namespace Path

variable {p : Path} {name : String}

/-! ### Blank pieces -/

/-- A list that is not all blank ends in what is not and blanks. -/
theorem exists_last {α : Type} {blank : α → Bool} {l : List α} (h : ∃ a ∈ l, blank a = false) :
    ∃ before x behind, l = before ++ x :: behind ∧ blank x = false ∧ ∀ b ∈ behind, blank b = true := by
  obtain ⟨a, ha, hblank⟩ := h
  cases hrest : l.reverse.dropWhile blank with
  | nil =>
    rw [List.dropWhile_eq_nil_iff] at hrest
    rw [hrest a (List.mem_reverse.2 ha)] at hblank
    cases hblank
  | cons x back =>
    have hsplit := List.takeWhile_append_dropWhile (p := blank) (l := l.reverse)
    rw [hrest] at hsplit
    have hback := congrArg List.reverse hsplit
    refine ⟨back.reverse, x, (l.reverse.takeWhile blank).reverse, ?_, ?_, fun b hb => ?_⟩
    · rw [List.reverse_reverse, List.reverse_append, List.reverse_cons, List.append_assoc] at hback
      exact hback.symm
    · have hstop := List.head?_dropWhile_not blank l.reverse
      rw [hrest] at hstop
      simpa using hstop
    · exact List.mem_takeWhile_imp (List.mem_reverse.1 hb)

theorem component?_eq_none_iff {piece : List Char} : component? piece = none ↔ piece = [] ∨ piece = ['.'] := by
  unfold component?
  split
  · simp_all
  · split <;> simp_all

/-- Pieces that name nothing are dots or nothing. -/
theorem names_of_blank {ps : List (List Char)} (h : ∀ piece ∈ ps, (component? piece).isNone = true) :
    ∃ count, (ps.filter (· ≠ [])).map String.ofList = List.replicate count "." := by
  refine ⟨((ps.filter (· ≠ [])).map String.ofList).length, List.eq_replicate_of_mem fun s hs => ?_⟩
  obtain ⟨piece, hpiece, rfl⟩ := List.mem_map.1 hs
  obtain ⟨hmem, hne⟩ := List.mem_filter.1 hpiece
  rcases component?_eq_none_iff.1 (Option.isNone_iff_eq_none.1 (h piece hmem)) with rfl | rfl
  · simp at hne
  · rfl

/-- Only the empty path has no components. -/
theorem components_ne_nil (h : p.chars ≠ []) : p.components ≠ [] := by
  unfold components lead
  split
  · simp
  · simp
  · simp
  · rename_i hroot hhere hdot
    obtain ⟨c, rest, hchars⟩ := List.exists_cons_of_ne_nil h
    have hc : c ≠ '/' := fun heq => hroot rest (heq ▸ hchars)
    have hfirst : ∃ piece more, Text.pieces '/' p.chars = (c :: piece) :: more ∧ (c = '.' → piece ≠ []) := by
      rw [hchars, Text.pieces, if_neg hc]
      cases rest with
      | nil => exact ⟨[], [], rfl, fun heq => absurd (heq ▸ hchars) hhere⟩
      | cons second more =>
        have hsecond : c = '.' → second ≠ '/' := fun heq hslash => hdot more (heq ▸ hslash ▸ hchars)
        by_cases hslash : second = '/'
        · rw [Text.pieces, if_pos hslash]
          exact ⟨[], _, rfl, fun heq => absurd hslash (hsecond heq)⟩
        · rw [Text.pieces, if_neg hslash]
          cases Text.pieces '/' more with
          | nil => exact ⟨[second], [], rfl, fun _ => List.cons_ne_nil _ _⟩
          | cons piece more => exact ⟨second :: piece, more, rfl, fun _ => List.cons_ne_nil _ _⟩
    obtain ⟨piece, more, hpieces, hdot⟩ := hfirst
    have hnamed : component? (c :: piece) ≠ none := by
      rw [ne_eq, component?_eq_none_iff, not_or]
      refine ⟨List.cons_ne_nil _ _, fun heq => ?_⟩
      obtain ⟨hc, hpiece⟩ := List.cons_eq_cons.1 heq
      exact hdot hc hpiece
    obtain ⟨component, hcomponent⟩ := Option.ne_none_iff_exists'.1 hnamed
    rw [hpieces, List.filterMap_cons_some hcomponent]
    simp

/-! ### The last piece -/

/-- What leads a path in stands in front of the names of the rest, and is a dot at most. -/
theorem namesIn_lead {text front : List Char} (h : text = front ++ (lead text).2) :
    namesIn text = namesIn front ++ namesIn (lead text).2 ∧ (namesIn front = [] ∨ namesIn front = ["."]) := by
  revert h
  unfold lead
  split
  · rename_i rest
    intro h
    obtain rfl : front = ['/'] := List.append_cancel_right (h.symm.trans (List.singleton_append (l := rest)).symm)
    exact ⟨Files.namesIn_append [] rest, .inl rfl⟩
  · intro h
    rw [List.append_nil] at h
    rw [← h]
    exact ⟨(List.append_nil _).symm, .inr rfl⟩
  · rename_i rest
    intro h
    obtain rfl : front = ['.'] := List.append_cancel_right (h.symm.trans (List.singleton_append (l := '/' :: rest)).symm)
    have hrest : namesIn ('/' :: rest) = namesIn rest := Files.namesIn_append [] rest
    rw [hrest]
    exact ⟨Files.namesIn_append ['.'] rest, .inr rfl⟩
  · intro h
    obtain rfl : front = [] := List.append_cancel_right (h.symm.trans (List.nil_append _).symm)
    exact ⟨rfl, .inl rfl⟩

/-- A name at the end of a path is one of the pieces behind what leads the path in. -/
theorem exists_name_piece {front : List String} (h : namesIn p.chars = front ++ [name]) (hname : isName name = true) :
    ∃ piece ∈ Text.pieces '/' (lead p.chars).2, (component? piece).isNone = false := by
  obtain ⟨start, hstart, -⟩ := exists_lead p.chars
  obtain ⟨hnames, hdot⟩ := namesIn_lead hstart
  have hlast : (namesIn (lead p.chars).2).getLast? = some name := by
    rw [h] at hnames
    have hlast := congrArg List.getLast? hnames
    rw [List.getLast?_concat, List.getLast?_append] at hlast
    cases hrest : (namesIn (lead p.chars).2).getLast? with
    | some last =>
      rw [hrest] at hlast
      exact hlast.symm
    | none =>
      rw [hrest, Option.none_or] at hlast
      rcases hdot with hnil | hdot
      · rw [hnil] at hlast
        cases hlast
      · rw [hdot] at hlast
        cases hlast
        cases hname
  obtain ⟨piece, hpiece, rfl⟩ := List.mem_map.1 (List.mem_of_getLast? hlast)
  refine ⟨piece, (List.mem_filter.1 hpiece).1, ?_⟩
  have hcomponent := component?_name hname
  rw [String.toList_ofList] at hcomponent
  rw [hcomponent]
  rfl

/-! ### The parent -/

/-- What a piece names is no start of a path. -/
theorem component?_cases {piece : List Char} (h : (component? piece).isNone = false) :
    component? piece = some .up ∨ ∃ s, component? piece = some (.name s) := by
  unfold component? at h ⊢
  split at h
  · cases h
  · rename_i hblank
    rw [if_neg hblank]
    split
    · exact .inl rfl
    · exact .inr ⟨_, rfl⟩

/-- The parent is the text in front of the last piece that names something, without the blank pieces between. -/
theorem parent_eq {start : List Char} (hstart : p.chars = start ++ (lead p.chars).2) {before behind : List (List Char)}
    {x : List Char} (hpieces : Text.pieces '/' (lead p.chars).2 = before ++ x :: behind)
    (hx : (component? x).isNone = false) (hbehind : ∀ b ∈ behind, (component? b).isNone = true) :
    ∃ left blanks, before = left ++ blanks ∧ (∀ b ∈ blanks, (component? b).isNone = true) ∧
      p.parent = some ⟨String.ofList (start ++ Text.join '/' left)⟩ := by
  have hnone : behind.filterMap component? = [] :=
    List.filterMap_eq_nil_iff.2 fun b hb => Option.isNone_iff_eq_none.1 (hbehind b hb)
  have hlast : p.components.getLast? = component? x := by
    rw [components, hpieces, List.filterMap_append, List.filterMap_cons]
    rcases component?_cases hx with hup | ⟨s, hs⟩
    · rw [hup, hnone, ← List.append_assoc, List.getLast?_concat]
    · rw [hs, hnone, ← List.append_assoc, List.getLast?_concat]
  have hdrop : (Text.pieces '/' (lead p.chars).2).reverse.dropWhile (fun piece => (component? piece).isNone) =
      x :: before.reverse := by
    rw [hpieces, List.reverse_append, List.reverse_cons, List.append_assoc,
      List.dropWhile_append_of_pos fun b hb => hbehind b (List.mem_reverse.1 hb)]
    exact List.dropWhile_cons_of_neg (by simp [hx])
  refine ⟨(before.reverse.dropWhile fun piece => (component? piece).isNone).reverse,
    (before.reverse.takeWhile fun piece => (component? piece).isNone).reverse, ?_, fun b hb => ?_, ?_⟩
  · rw [← List.reverse_append, List.takeWhile_append_dropWhile, List.reverse_reverse]
  · exact List.mem_takeWhile_imp (p := fun piece => (component? piece).isNone) (List.mem_reverse.1 hb)
  unfold parent
  rw [hlast]
  rcases component?_cases hx with hup | ⟨s, hs⟩
  · simp only [hup, hdrop, take_lead hstart, List.drop_one, List.tail_cons]
  · simp only [hs, hdrop, take_lead hstart, List.drop_one, List.tail_cons]

/-- Where the pieces of a path are cut, its text and its names are cut as well. -/
theorem cut_pieces {text start : List Char} (hstart : text = start ++ (lead text).2) {left more : List (List Char)}
    (hpieces : Text.pieces '/' (lead text).2 = left ++ more) (hmore : more ≠ []) :
    (start ++ Text.join '/' left) <+: text ∧
      namesIn text = namesIn (start ++ Text.join '/' left) ++ namesIn (Text.join '/' more) := by
  have hrest := Text.join_pieces '/' (lead text).2
  rw [hpieces] at hrest
  by_cases hleft : left = []
  · rw [hleft, List.nil_append] at hrest
    rw [hleft, hrest]
    show (start ++ []) <+: _ ∧ namesIn text = namesIn (start ++ []) ++ _
    rw [List.append_nil]
    exact ⟨⟨_, hstart.symm⟩, (namesIn_lead hstart).1⟩
  · rw [Text.join_append hleft hmore] at hrest
    rw [← hrest, ← List.append_assoc] at hstart
    exact ⟨⟨_, hstart.symm⟩, (congrArg namesIn hstart).trans (Files.namesIn_append _ _)⟩

/-- The names of a piece between blank ones: its own, between dots. -/
theorem namesIn_between {blanks behind : List (List Char)} {x : List Char}
    (hfree : ∀ piece ∈ blanks ++ x :: behind, '/' ∉ piece) (hx : (component? x).isNone = false)
    (hblanks : ∀ b ∈ blanks, (component? b).isNone = true) (hbehind : ∀ b ∈ behind, (component? b).isNone = true) :
    ∃ count more, namesIn (Text.join '/' (blanks ++ x :: behind)) =
      List.replicate count "." ++ String.ofList x :: List.replicate more "." := by
  have hne : x ≠ [] := by
    rintro rfl
    cases hx
  obtain ⟨count, hcount⟩ := names_of_blank hblanks
  obtain ⟨more, hmore⟩ := names_of_blank hbehind
  refine ⟨count, more, ?_⟩
  rw [namesIn, Text.pieces_join (by simp) hfree, List.filter_append, List.filter_cons_of_pos (by simpa using hne),
    List.map_append, List.map_cons, hcount, hmore]

/-- A front of a path starts where the path starts, unless it is empty. -/
theorem isAbsolute_of_prefix {q : Path} (h : q.chars <+: p.chars) (hempty : q.chars = [] → p.chars.head? ≠ some '/') :
    q.isAbsolute = p.isAbsolute := by
  obtain ⟨tail, htail⟩ := h
  rw [isAbsolute, isAbsolute]
  cases hq : q.chars with
  | nil =>
    rw [beq_false_of_ne (hempty hq)]
    rfl
  | cons c rest =>
    rw [← htail, hq]
    rfl

/-- **What is above a path that ends in a name**: the names in front of it lead there, but for dots. -/
theorem exists_parent {front : List String} (h : namesIn p.chars = front ++ [name]) (hname : isName name = true) :
    ∃ q count, p.parent = some q ∧ q.chars <+: p.chars ∧ q.isAbsolute = p.isAbsolute ∧
      front = namesIn q.chars ++ List.replicate count "." := by
  obtain ⟨start, hstart, -, hhead⟩ := exists_lead p.chars
  obtain ⟨before, x, behind, hpieces, hx, hbehind⟩ := exists_last (exists_name_piece h hname)
  obtain ⟨left, blanks, rfl, hblanks, hparent⟩ := parent_eq hstart hpieces hx hbehind
  rw [List.append_assoc] at hpieces
  -- The text is that of the parent, a separator and the pieces that are left away.
  obtain ⟨hfront, hnames⟩ := cut_pieces hstart hpieces (by simp)
  obtain ⟨q, hq, hparent⟩ : ∃ q : Path, q.chars = start ++ Text.join '/' left ∧ p.parent = some q :=
    ⟨_, String.toList_ofList, hparent⟩
  rw [← hq] at hfront hnames
  have hfree : ∀ piece ∈ blanks ++ x :: behind, '/' ∉ piece := fun piece hpiece =>
    Text.not_mem_of_mem_pieces (hpieces ▸ List.mem_append_right left hpiece)
  obtain ⟨count, more, hself⟩ := namesIn_between hfree hx hblanks hbehind
  rw [h, hself] at hnames
  -- No dot follows, since the path ends in a name.
  obtain rfl : more = 0 := by
    cases more with
    | zero => rfl
    | succ more =>
      rw [List.replicate_succ', ← List.cons_append, ← List.append_assoc, ← List.append_assoc] at hnames
      cases (List.append_inj' hnames rfl).2
      cases hname
  rw [List.replicate_zero, ← List.append_assoc] at hnames
  refine ⟨q, count, hparent, hfront, isAbsolute_of_prefix hfront fun hempty hroot => ?_,
    (List.append_inj' hnames rfl).1⟩
  have hstarts := hhead hroot
  rw [hq] at hempty
  rw [(List.append_eq_nil_iff.1 hempty).1] at hstarts
  cases hstarts

end Path

end PluginShading
