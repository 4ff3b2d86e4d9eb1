import Mathlib.Data.List.Basic
import Mathlib.Data.List.TakeWhile
import PluginShading.Proofs.Files.Follow

/-!
The names in a path.

What a path leads to depends on the names between its separators. Joining puts the names of one path
behind those of another (`namesIn_join`), and separators at the end of a path add none
(`namesIn_withoutSlash`). A path that goes up no farther than it came down stays where it starts
(`StaysIn`), and one without `..` is such a path (`LeadsDown.staysIn`).
-/
namespace PluginShading

namespace Text

/-- A text is what is left of it without marks at its end, and marks. -/
theorem exists_trimmed (mark : Char) (text : List Char) :
    ∃ count, text = (text.reverse.dropWhile (· == mark)).reverse ++ List.replicate count mark := by
  have hmarks : text.reverse.takeWhile (· == mark) =
      List.replicate (text.reverse.takeWhile (· == mark)).length mark := by
    refine List.eq_replicate_of_mem fun c hc => ?_
    simpa using List.mem_takeWhile_imp hc
  have hsplit := congrArg List.reverse
    (List.takeWhile_append_dropWhile (p := (· == mark)) (l := text.reverse))
  rw [List.reverse_append, List.reverse_reverse, hmarks, List.reverse_replicate] at hsplit
  exact ⟨_, hsplit.symm⟩

theorem join_append {mark : Char} {a b : List (List Char)} (ha : a ≠ []) (hb : b ≠ []) :
    join mark (a ++ b) = join mark a ++ mark :: join mark b := by
  induction a with
  | nil => contradiction
  | cons piece rest ih =>
    cases rest with
    | nil =>
      obtain ⟨second, more, rfl⟩ := List.exists_cons_of_ne_nil hb
      rfl
    | cons second more =>
      show piece ++ mark :: join mark ((second :: more) ++ b) = (piece ++ mark :: join mark (second :: more)) ++ _
      rw [ih (List.cons_ne_nil _ _), List.append_assoc]
      rfl

end Text

theorem Path.chars_injective {p q : Path} (h : p.chars = q.chars) : p = q :=
  congrArg Path.mk (String.toList_injective h)

theorem Path.chars_join_relative {p q : Path} (hq : q.isAbsolute = false) : (p.join q).chars =
    if p.chars = [] ∨ p.chars.getLast? = some '/' then p.chars ++ q.chars
    else p.chars ++ '/' :: q.chars := by
  rw [join, if_neg (by simp [hq])]
  split <;> simp [chars]

namespace Files

open Disk (withoutSlash)

/-- What stands between the separators of a text. -/
def namesIn (text : List Char) : List String :=
  ((Text.pieces '/' text).filter (· ≠ [])).map String.ofList

theorem steps_eq (text : List Char) :
    steps text = namesIn text ++ if text.getLast? = some '/' then ["."] else [] := rfl

theorem namesIn_append (a b : List Char) : namesIn (a ++ '/' :: b) = namesIn a ++ namesIn b := by
  simp only [namesIn, Text.pieces_append, List.filter_append, List.map_append]

@[simp] theorem namesIn_nil : namesIn [] = [] := rfl

theorem namesIn_singleton {name : List Char} (hne : name ≠ []) (hfree : '/' ∉ name) :
    namesIn name = [String.ofList name] := by
  simp [namesIn, Text.pieces_of_not_mem hfree, hne]

/-! ### Separators at the end -/

theorem namesIn_separators (text : List Char) (count : Nat) :
    namesIn (text ++ List.replicate count '/') = namesIn text := by
  induction count with
  | zero => simp
  | succ count ih =>
    rw [List.replicate_succ', ← List.append_assoc, namesIn_append, ih]
    simp

/-- A text is what is left of it without separators at its end, and separators. -/
theorem withoutSlash_append (text : List Char) :
    ∃ count, text = withoutSlash text ++ List.replicate count '/' := by
  simp only [withoutSlash]
  split
  · exact ⟨0, (List.append_nil text).symm⟩
  · exact Text.exists_trimmed '/' text

theorem namesIn_withoutSlash (text : List Char) : namesIn (withoutSlash text) = namesIn text := by
  obtain ⟨count, htext⟩ := withoutSlash_append text
  conv_rhs => rw [htext]
  rw [namesIn_separators]

theorem withoutSlash_eq_self {text : List Char} (h : text.getLast? ≠ some '/') :
    withoutSlash text = text := by
  have hdrop : text.reverse.dropWhile (· == '/') = text.reverse := by
    rw [List.getLast?_eq_head?_reverse] at h
    cases hrev : text.reverse with
    | nil => rfl
    | cons c rest =>
      rw [hrev] at h
      rw [List.dropWhile_cons_of_neg (by simpa using h)]
  simp only [withoutSlash, hdrop, List.reverse_reverse, ite_self]

/-- Where there are names, they are all that is followed once separators at the end are gone. -/
theorem steps_withoutSlash {text : List Char} (h : namesIn text ≠ []) :
    steps (withoutSlash text) = namesIn text := by
  have hlast : (withoutSlash text).getLast? ≠ some '/' := by
    simp only [withoutSlash]
    split
    · rename_i htrimmed
      obtain ⟨count, htext⟩ := Text.exists_trimmed '/' text
      rw [htrimmed, List.nil_append] at htext
      rw [htext] at h
      exact absurd (namesIn_separators [] count) h
    · intro hlast
      rw [List.getLast?_reverse] at hlast
      have hstop := List.head?_dropWhile_not (· == '/') text.reverse
      rw [hlast] at hstop
      cases hstop
  rw [steps_eq, if_neg hlast, List.append_nil, namesIn_withoutSlash]

theorem withoutSlash_ne_nil {text : List Char} (h : text ≠ []) : withoutSlash text ≠ [] := by
  simp only [withoutSlash]
  split <;> assumption

theorem head?_withoutSlash (text : List Char) : (withoutSlash text).head? = text.head? := by
  by_cases h : text = []
  · rw [h]
    rfl
  · obtain ⟨count, htext⟩ := withoutSlash_append text
    conv_rhs => rw [htext]
    exact (List.head?_append_of_ne_nil _ (withoutSlash_ne_nil h)).symm

section Trimmed

variable {d : Disk} {p : Path} {through : Bool}

theorem Disk.findTrimmed_of_last (h : p.chars.getLast? ≠ some '/') : d.findTrimmed p through = d.find p through := by
  unfold findTrimmed find
  rw [withoutSlash_eq_self h]
  split
  · rename_i hlong
    have hne : p.chars ≠ [] := by
      intro hnil
      have hempty : p.text = "" := String.toList_injective hnil
      rw [hempty] at hlong
      exact absurd hlong.2 (by decide)
    rw [findText, if_neg hne, if_neg hlong.1, Path.chars, String.ofList_toList, if_pos hlong.2]
  · rfl

/-- A path that means something is short enough, separators at its end included. -/
theorem Disk.length_of_findTrimmed {spot : Spot} (h : d.findTrimmed p through = .ok spot) :
    '\x00' ∉ p.chars ∧ p.text.utf8ByteSize < pathLimit := by
  have hnul : '\x00' ∉ p.chars := by
    obtain ⟨count, htext⟩ := withoutSlash_append p.chars
    intro hmem
    rw [htext, List.mem_append] at hmem
    rcases hmem with hmem | hmem
    · exact (findText_eq_ok_iff.1 (findText_of_findTrimmed h)).1.2.1 hmem
    · cases List.eq_of_mem_replicate hmem
  refine ⟨hnul, Nat.not_le.1 fun hlong => ?_⟩
  rw [findTrimmed, if_pos ⟨hnul, hlong⟩] at h
  cases h

end Trimmed

/-! ### Joining -/

theorem chars_join {p q : Path} (hq : q.isAbsolute = false) (hp : p.chars ≠ []) :
    (p.join q).chars =
      if p.chars.getLast? = some '/' then p.chars ++ q.chars else p.chars ++ '/' :: q.chars := by
  rw [Path.chars_join_relative hq]
  simp only [hp, false_or]

theorem namesIn_join {p q : Path} (hq : q.isAbsolute = false) (hp : p.chars ≠ []) :
    namesIn (p.join q).chars = namesIn p.chars ++ namesIn q.chars := by
  rw [chars_join hq hp]
  split
  · rename_i hlast
    obtain ⟨front, hfront⟩ := List.getLast?_eq_some_iff.1 hlast
    rw [hfront, List.append_assoc, List.singleton_append, namesIn_append, namesIn_append,
      namesIn_nil, List.append_nil]
  · rw [namesIn_append]

theorem head?_join {p q : Path} (hq : q.isAbsolute = false) (hp : p.chars ≠ []) :
    (p.join q).chars.head? = p.chars.head? := by
  rw [chars_join hq hp]
  split <;> exact List.head?_append_of_ne_nil _ hp

/-- Paths that do not start from the root are joined to one that does not, also where the first is empty. -/
theorem relative_join {p q : Path} (hp : p.isAbsolute = false) (hq : q.isAbsolute = false) :
    (p.join q).isAbsolute = false ∧ namesIn (p.join q).chars = namesIn p.chars ++ namesIn q.chars := by
  unfold Path.isAbsolute
  by_cases hne : p.chars = []
  · rw [Path.chars_join_relative hq, if_pos (.inl hne), hne]
    exact ⟨hq, rfl⟩
  · rw [head?_join hq hne]
    exact ⟨hp, namesIn_join hq hne⟩

/-! ### Leading down -/

/-- A path that leads down from where it starts. -/
def LeadsDown (p : Path) : Prop := p.isAbsolute = false ∧ ".." ∉ namesIn p.chars

/-- A path that never leads above where it starts. -/
def StaysIn (p : Path) : Prop := p.isAbsolute = false ∧ stays 0 (namesIn p.chars) = true

instance (p : Path) : Decidable (StaysIn p) := inferInstanceAs (Decidable (_ ∧ _))

theorem LeadsDown.staysIn {p : Path} (h : LeadsDown p) : StaysIn p := ⟨h.1, stays_of_not_mem h.2⟩

theorem StaysIn.join {p q : Path} (hp : StaysIn p) (hq : StaysIn q) : StaysIn (p.join q) := by
  obtain ⟨hrelative, hnames⟩ := relative_join hp.1 hq.1
  exact ⟨hrelative, hnames ▸ stays_append hp.2 hq.2⟩

/-- A text without separators leads down unless it means the directory above. -/
theorem leadsDown_of_free {text : List Char} (hfree : '/' ∉ text) (hup : text ≠ ['.', '.']) :
    LeadsDown ⟨String.ofList text⟩ := by
  have hchars : Path.chars ⟨String.ofList text⟩ = text := String.toList_ofList
  unfold LeadsDown Path.isAbsolute
  rw [hchars]
  constructor
  · rw [beq_eq_false_iff_ne]
    exact fun hhead => hfree (List.mem_of_mem_head? hhead)
  · by_cases hne : text = []
    · rw [hne]
      nofun
    · rw [namesIn_singleton hne hfree, List.mem_singleton]
      intro heq
      apply hup
      rw [← String.toList_ofList (l := text), ← heq]
      rfl

theorem isName_iff {name : String} : isName name = true ↔
    name.toList ≠ [] ∧ '/' ∉ name.toList ∧ name.toList ≠ ['.'] ∧ name.toList ≠ ['.', '.'] := by
  have hempty : name.toList = [] ↔ name = "" := String.toList_eq_nil_iff
  have hhere : name.toList = ['.'] ↔ name = "." :=
    ⟨fun h => String.toList_injective h, fun h => by rw [h]; rfl⟩
  have hup : name.toList = ['.', '.'] ↔ name = ".." :=
    ⟨fun h => String.toList_injective h, fun h => by rw [h]; rfl⟩
  simp only [isName, Bool.and_eq_true, Bool.not_eq_true', List.contains_eq_mem,
    decide_eq_false_iff_not, decide_eq_true_eq, ne_eq, hempty, hhere, hup, and_assoc]

theorem leadsDown_of_isName {name : String} (h : isName name = true) : LeadsDown ⟨name⟩ := by
  obtain ⟨-, hfree, -, hup⟩ := isName_iff.1 h
  rw [← String.ofList_toList (s := name)]
  exact leadsDown_of_free hfree hup

end Files

end PluginShading
