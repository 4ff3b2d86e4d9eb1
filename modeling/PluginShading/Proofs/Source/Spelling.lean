import PluginShading.Proofs.Source.Rerun
import PluginShading.Proofs.Source.Words

/-!
Names as they are spelled: identifiers with separators between them, with or without one in front, are read
as one token of code, whatever follows that cannot carry a name on (`Machine.Plain.next_qualified`,
`Machine.Plain.next_fullyQualified`).
-/
namespace PluginShading.Source

variable {rest word : List Char} {words : List (List Char)}

theorem nameSegments_stop (h : headIs isNamePart rest = false) : nameSegments rest = ([], rest) := by
  cases rest with
  | nil => simp [nameSegments]
  | cons c more =>
    have hc : c ≠ '\\' := by
      rintro rfl
      simp [headIs, isNamePart] at h
    unfold nameSegments
    split
    · rename_i heq
      exact absurd (List.cons_eq_cons.1 heq).1 hc
    · rfl

theorem headIs_segments (h : headIs isNamePart rest = false) :
    headIs isNameChar (segments words ++ rest) = false := by
  cases words with
  | cons second more => rfl
  | nil =>
    cases rest with
    | nil => rfl
    | cons c more => exact (Bool.or_eq_false_iff.1 h).1

theorem nameSegments_words (hwords : ∀ piece ∈ words, isIdentifier piece = true)
    (h : headIs isNamePart rest = false) : nameSegments (segments words ++ rest) = (segments words, rest) := by
  induction words with
  | nil => exact nameSegments_stop h
  | cons second more ih =>
    rw [List.forall_mem_cons] at hwords
    show nameSegments ('\\' :: (second ++ segments more) ++ rest) = _
    rw [List.cons_append, List.append_assoc, nameSegments_identifier hwords.1 (headIs_segments h), ih hwords.2]
    rfl

theorem readWord_words (last : Option Token) (hword : isIdentifier word = true)
    (hfree : spells "namespace" word = false) (hwords : ∀ piece ∈ words, isIdentifier piece = true)
    (hne : words ≠ []) (h : headIs isNamePart rest = false) :
    readWord last (word ++ segments words ++ rest) = .plain .qualifiedName (word ++ segments words, rest) := by
  have hstop : headIs isNameChar (segments words ++ rest) = false := headIs_segments h
  have hchars := isNameChar_of_isIdentifier hword
  obtain ⟨second, more, rfl⟩ := List.exists_cons_of_ne_nil hne
  rw [List.append_assoc]
  simp only [readWord, takeWhile_append_stop hchars hstop, dropWhile_append_stop hchars hstop,
    nameSegments_words hwords h]
  simp [wordKind, hfree, segments]

namespace Machine

variable {m : Machine}

/-- A token of code that opens and closes nothing leaves a plain machine plain. -/
theorem Plain.next_code {c : Char} {rest : List Char} {r : Reading} (hm : m.Plain) (hrest : m.rest = c :: rest)
    (hr : Source.readCode m.last m.line c rest = .ok r) (hcloses : r.closesCode = false)
    (hopens : r.opens = none) (hmember : namesMember (some r.token) = false) :
    ∃ m', m.next = .ok (some (r.token, m')) ∧ m'.Plain ∧ m'.rest = r.rest := by
  rw [hm.next_eq hrest, Machine.readCode, hr]
  refine ⟨_, rfl, ⟨?_, ?_, ?_⟩, rfl⟩
  · simp [hm.outside, hcloses]
  · simp [Machine.pass, hm.stack, hopens]
  · simp only [Machine.pass]
    split
    · exact hmember
    · exact hm.member

theorem Plain.next_qualified (hm : m.Plain) (hword : isIdentifier word = true)
    (hfree : spells "namespace" word = false) (hwords : ∀ piece ∈ words, isIdentifier piece = true)
    (hne : words ≠ []) (h : headIs isNamePart rest = false) (hrest : m.rest = word ++ segments words ++ rest) :
    ∃ m', m.next = .ok (some (⟨.qualifiedName, word ++ segments words⟩, m')) ∧ m'.Plain ∧ m'.rest = rest := by
  have hread := readWord_words m.last hword hfree hwords hne h
  obtain ⟨c, more, rfl, hc⟩ := exists_cons_of_isIdentifier hword
  rw [List.cons_append, List.cons_append] at hrest hread
  have hcode := readCode_of_nameStart m.last m.line (more ++ segments words ++ rest) hc
  rw [hread] at hcode
  refine hm.next_code hrest hcode rfl rfl ?_
  refine (namesMember_of_head rfl fun hmem => ?_).trans rfl
  simp only [List.mem_cons, List.not_mem_nil, or_false] at hmem
  rcases hmem with rfl | rfl | rfl <;> exact absurd hc (by decide)

theorem Plain.next_fullyQualified (hm : m.Plain) (hwords : ∀ piece ∈ words, isIdentifier piece = true)
    (hne : words ≠ []) (h : headIs isNamePart rest = false) (hrest : m.rest = segments words ++ rest) :
    ∃ m', m.next = .ok (some (⟨.fullyQualifiedName, segments words⟩, m')) ∧ m'.Plain ∧ m'.rest = rest := by
  have hread := nameSegments_words hwords h
  obtain ⟨word, more, rfl⟩ := List.exists_cons_of_ne_nil hne
  have hstart : headIs isNameStart (word ++ segments more ++ rest) = true := by
    obtain ⟨c, tail, rfl, hc⟩ := exists_cons_of_isIdentifier (hwords word List.mem_cons_self)
    exact hc
  have hcode := readCode_of_separator m.last m.line hstart
  rw [show '\\' :: (word ++ segments more ++ rest) = segments (word :: more) ++ rest from rfl, hread] at hcode
  exact hm.next_code hrest hcode rfl rfl ((namesMember_of_head rfl (by decide)).trans rfl)

end Machine

end PluginShading.Source
