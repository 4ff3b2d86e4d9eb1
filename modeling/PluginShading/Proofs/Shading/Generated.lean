import PluginShading.Descriptor
import PluginShading.Proofs.Shading.Confinement
import PluginShading.Proofs.Shading.Segments

/-!
Generated targets.

A build makes its target from the name of the plugin's main class: the segments in front of the last one
(`Descriptor.spaceSegments`) and two of its own (`pieces_generate`). Those of the main class are not looked at, so
the target is a namespace exactly if they are identifiers. Only then is a name that moves behind the target
read as one name again (`generated_target_reads`).
-/
namespace PluginShading

namespace Text

/-- The pieces without the empty ones at both ends. -/
def strip (ps : List (List Char)) : List (List Char) := (ps.dropWhile List.isEmpty).rdropWhile List.isEmpty

theorem strip_empty_append (ps : List (List Char)) : strip ([] :: ps) = strip ps := by
  rw [strip, List.dropWhile_cons_of_pos rfl, strip]

theorem strip_append_empty (ps : List (List Char)) : strip (ps ++ [[]]) = strip ps := by
  simp only [strip, List.dropWhile_append]
  split
  · rename_i hall
    rw [List.isEmpty_iff.1 hall]
    rfl
  · exact List.rdropWhile_concat_pos _ _ _ rfl

theorem strip_padded (before after : Nat) (ps : List (List Char)) :
    strip (List.replicate before [] ++ (ps ++ List.replicate after [])) = strip ps := by
  induction before with
  | zero =>
    induction after with
    | zero => rw [List.replicate_zero, List.nil_append, List.append_nil]
    | succ after ih => rwa [List.replicate_succ', ← List.append_assoc, ← List.append_assoc, strip_append_empty]
  | succ before ih => rwa [List.replicate_succ, List.cons_append, strip_empty_append]

variable {mark : Char} {s : List Char}

/-- A text that neither begins nor ends with a mark has no empty piece at its ends. -/
theorem strip_pieces (hne : s ≠ []) (hhead : s.head? ≠ some mark) (hlast : s.getLast? ≠ some mark) :
    strip (pieces mark s) = pieces mark s := by
  have hjoin := join_pieces mark s
  have hfirst : (pieces mark s).dropWhile List.isEmpty = pieces mark s := by
    cases hp : pieces mark s with
    | nil => rfl
    | cons piece more =>
      refine List.dropWhile_cons_of_neg fun hempty => ?_
      obtain rfl := List.isEmpty_iff.1 hempty
      rw [hp] at hjoin
      cases more with
      | nil => exact hne hjoin.symm
      | cons second rest => exact hhead (by rw [← hjoin]; rfl)
  rw [strip, hfirst, List.rdropWhile_eq_self_iff]
  intro hpieces hempty
  rw [← List.dropLast_concat_getLast hpieces, List.isEmpty_iff.1 hempty] at hjoin
  by_cases hfront : (pieces mark s).dropLast = []
  · rw [hfront] at hjoin
    exact hne hjoin.symm
  · rw [join_append hfront (List.cons_ne_nil _ _)] at hjoin
    exact hlast (by rw [← hjoin]; exact List.getLast?_concat)

end Text

open Shading (separator Target generatedText leaf trimSeparators)

/-- The segments of the main class without the last one, and without empty ones at both ends. -/
def Descriptor.spaceSegments (d : Descriptor) : List (List Char) :=
  Text.strip (Text.pieces separator (d.main.getD [])).dropLast

namespace Shading

open Source

/-! ### The segments of a generated target -/

theorem getLast?_trimSeparators (space : List Char) : (trimSeparators space).getLast? ≠ some separator := by
  intro h
  rw [trimSeparators, List.getLast?_reverse] at h
  have hstop := List.head?_dropWhile_not (· == separator) (space.dropWhile (· == separator)).reverse
  rw [h] at hstop
  simp at hstop

/-- What is cut from a namespace are empty segments. -/
theorem strip_pieces_trimSeparators (space : List Char) : Text.strip (Text.pieces separator space) =
    if trimSeparators space = [] then [] else Text.pieces separator (trimSeparators space) := by
  obtain ⟨before, after, hpieces⟩ := pieces_trimSeparators space
  rw [hpieces, Text.strip_padded]
  split
  · rename_i hnil
    rw [hnil]
    rfl
  · exact Text.strip_pieces ‹_› (head?_trimSeparators space) (getLast?_trimSeparators space)

theorem throughSeparator_append (front : List Char) {last : List Char} (hlast : separator ∉ last) :
    Descriptor.throughSeparator (front ++ separator :: last) = some (front ++ [separator]) := by
  have hpass : ∀ c ∈ last.reverse, (c != '\\') = true := fun c hc =>
    bne_iff_ne.2 (ne_of_mem_of_not_mem (List.mem_reverse.1 hc) hlast)
  have hcut : ((front ++ separator :: last).reverse.dropWhile (· != '\\')).reverse = front ++ [separator] := by
    rw [List.reverse_append, List.reverse_cons, List.append_assoc, List.dropWhile_append_of_pos hpass, List.singleton_append,
      List.dropWhile_cons_of_neg (by decide), List.reverse_cons, List.reverse_reverse]
  simp only [Descriptor.throughSeparator, hcut, List.concat_ne_nil, if_false]

theorem throughSeparator_of_not_mem {main : List Char} (h : separator ∉ main) :
    Descriptor.throughSeparator main = none := by
  refine if_pos ?_
  rw [List.reverse_eq_nil_iff, List.dropWhile_eq_nil_iff]
  exact fun c hc => bne_iff_ne.2 (ne_of_mem_of_not_mem (List.mem_reverse.1 hc) h)

theorem strip_mainSpace (d : Descriptor) :
    Text.strip (Text.pieces separator (d.mainSpace.getD [])) = d.spaceSegments := by
  obtain ⟨_ | main, _⟩ := d
  · rfl
  show Text.strip (Text.pieces separator ((Descriptor.throughSeparator main).getD [])) =
    Text.strip (Text.pieces separator main).dropLast
  by_cases hmem : separator ∈ main
  · obtain ⟨last, front, hsplit, hfree⟩ := List.eq_append_cons_of_mem (List.mem_reverse.2 hmem)
    obtain rfl : main = front.reverse ++ separator :: last.reverse := by
      rw [← List.reverse_reverse main, hsplit, List.reverse_append, List.reverse_cons, List.append_assoc,
        List.singleton_append]
    have hlast : separator ∉ last.reverse := fun hin => hfree (List.mem_reverse.1 hin)
    rw [throughSeparator_append _ hlast, Option.getD_some, Text.pieces_append, Text.pieces_append,
      Text.pieces_of_not_mem hlast, List.dropLast_concat]
    exact Text.strip_append_empty _
  · rw [throughSeparator_of_not_mem hmem, Text.pieces_of_not_mem hmem]
    rfl

/-- The two segments behind the main class's. -/
def ownSegments (seed : UInt64) : List (List Char) := [['l', 'i', 'b', 's'], '_' :: hexWord seed]

theorem isIdentifier_ownSegments (seed : UInt64) : ∀ word ∈ ownSegments seed, isIdentifier word = true := by
  have hdigit : ∀ k < 16, isNameChar (Text.hexDigit k) = true := by decide
  have hword : (hexWord seed).all isNameChar = true := by
    rw [hexWord, List.all_map, List.all_eq_true]
    exact fun i _ => hdigit _ (Nat.mod_lt _ (by decide))
  refine List.forall_mem_cons.2 ⟨by decide, List.forall_mem_singleton.2 ?_⟩
  rw [isIdentifier, List.all_cons, hword]
  rfl

theorem pieces_leaf (seed : UInt64) : Text.pieces separator (leaf seed) = ownSegments seed := by
  have hword : separator ∉ '_' :: hexWord seed :=
    separator_not_mem (isIdentifier_ownSegments seed _ (List.mem_cons_of_mem _ List.mem_cons_self))
  show Text.pieces separator (['l', 'i', 'b', 's'] ++ separator :: '_' :: hexWord seed) = _
  rw [Text.pieces_append, Text.pieces_of_not_mem hword]
  rfl

theorem pieces_generate (d : Descriptor) (seed : UInt64) :
    Text.pieces separator (Target.generate d.mainSpace seed).text = d.spaceSegments ++ ownSegments seed := by
  rw [← strip_mainSpace, strip_pieces_trimSeparators]
  show Text.pieces separator (generatedText d.mainSpace seed) = _
  simp only [generatedText]
  split
  · exact pieces_leaf seed
  · rw [Text.pieces_append, pieces_leaf]

/-! ### Names behind it -/

/-- A text of more than one segment is read as one qualified name exactly if the segments are identifiers and the
first one is not `namespace`. -/
theorem fragmentTokens_eq_name_iff {name : List Char} (hlong : 2 ≤ (Text.pieces separator name).length) :
    fragmentTokens name = .ok [⟨.qualifiedName, name⟩] ↔ (∀ word ∈ Text.pieces separator name, isIdentifier word = true) ∧
      ∀ word, (Text.pieces separator name).head? = some word → spells "namespace" word = false := by
  refine ⟨fun hread => ?_, fun ⟨hwords, hfree⟩ => fragmentTokens_name ?_ hlong⟩
  · obtain ⟨first, more, rfl, -, hwords, hfree⟩ := shaped_of_fragmentTokens hread _ List.mem_cons_self
    have hpieces : Text.pieces separator (first ++ segments more) = first :: more :=
      pieces_segments (hwords first List.mem_cons_self) fun word hw => hwords word (List.mem_cons_of_mem _ hw)
    rw [hpieces]
    exact ⟨hwords, fun word hw => Option.some.inj hw ▸ hfree⟩
  · simp only [isFront, Bool.and_eq_true, List.all_eq_true, Bool.not_eq_true', Option.any_eq_false]
    exact ⟨hwords, hfree⟩

/-- **A generated target is a namespace exactly if the main class is in one**, and names that move behind it are
read as names again exactly if that namespace may also begin a name. -/
theorem generated_target_reads (d : Descriptor) (seed : UInt64) :
    let t := Target.generate d.mainSpace seed
    Target.ofText t.text = .ok t ∧
    ((∀ word ∈ Text.pieces separator t.text, isIdentifier word = true) ↔
      ∀ word ∈ d.spaceSegments, isIdentifier word = true) ∧
    ∀ name, (∀ word ∈ Text.pieces separator name, isIdentifier word = true) →
      (fragmentTokens (t.relocate name) = .ok [⟨.qualifiedName, t.relocate name⟩] ↔
        (∀ word ∈ d.spaceSegments, isIdentifier word = true) ∧
          ∀ word, d.spaceSegments.head? = some word → spells "namespace" word = false) := by
  intro t
  have hown := isIdentifier_ownSegments seed
  refine ⟨dif_pos t.valid, ?_, fun name hname => ?_⟩
  · rw [pieces_generate, List.forall_mem_append]
    exact and_iff_left hown
  · have hpieces : Text.pieces separator (t.relocate name) =
        d.spaceSegments ++ ownSegments seed ++ Text.pieces separator name := by
      rw [pieces_relocate, pieces_generate]
    have hlong : 2 ≤ (Text.pieces separator (t.relocate name)).length := by
      rw [hpieces, List.length_append, List.length_append]
      exact (Nat.le_add_left 2 _).trans (Nat.le_add_right _ _)
    rw [fragmentTokens_eq_name_iff hlong, hpieces, List.forall_mem_append, List.forall_mem_append,
      and_iff_left hname, and_iff_left hown]
    refine and_congr_right fun _ => ?_
    -- Where the main class has no namespace, the name begins with `libs`.
    cases d.spaceSegments with
    | nil => exact iff_of_true (fun word hw => Option.some.inj hw ▸ by decide) nofun
    | cons first more => rfl

/-- The statement holds of a main class with a separator in front. -/
theorem exists_generated_target_reads : ∃ text d seed name,
    Descriptor.parse text = some d ∧ (∀ word ∈ Text.pieces separator name, isIdentifier word = true) ∧
      (Target.generate d.mainSpace seed).relocate name = "My\\Plugin\\libs\\_00000000000000ff\\A\\B".toList ∧
      fragmentTokens ((Target.generate d.mainSpace seed).relocate name) =
        .ok [⟨.qualifiedName, (Target.generate d.mainSpace seed).relocate name⟩] := by
  let d : Descriptor := {main := some "\\My\\Plugin\\Main".toList}
  have hname : ∀ word ∈ Text.pieces separator "A\\B".toList, isIdentifier word = true := by decide
  refine ⟨"main: \\My\\Plugin\\Main\n".toList, d, 255, _, by decide +kernel, hname, by decide, ?_⟩
  exact ((generated_target_reads d 255).2.2 _ hname).2 ⟨by decide, by decide⟩

/-- This descriptor is read, but gives a prefix that is no namespace, and a name under it does not read as one. -/
def Unfit (text : List Char) : Prop :=
  ∃ d, Descriptor.parse text = some d ∧
    (∃ word ∈ Text.pieces separator (Target.generate d.mainSpace 0).text, isIdentifier word = false) ∧
    fragmentTokens ((Target.generate d.mainSpace 0).relocate "A\\B".toList) ≠
      .ok [⟨.qualifiedName, (Target.generate d.mainSpace 0).relocate "A\\B".toList⟩]

/-- Nothing looks at the namespace of the main class: with an empty segment it is no front for a name, and neither
is one with a blank. -/
theorem main_class_not_checked :
    Unfit "main: A\\\\B\\Main\n".toList ∧ Unfit "main: My Plugin\\Main\n".toList := by
  refine ⟨⟨{main := some "A\\\\B\\Main".toList}, ?_⟩, ⟨{main := some "My Plugin\\Main".toList}, ?_⟩⟩
  · decide +kernel
  · decide +kernel

end Shading

end PluginShading
