import PluginShading.Proofs.Shading.Fragment
import PluginShading.Proofs.Source.Fault

/-!
Errors in fragments.

A fragment that does not open code is divided behind an open tag that is put in front of it. The tag is taken away
again from the tokens, but not from the line of an error, which is then one too high (`shadeCode_fault`).
-/
namespace PluginShading.Shading

open Source

variable {r : Rule}

/-- The line on which the text of a fragment begins. -/
theorem fragmentStart_line (code : List Char) :
    (fragmentStart code).line = if opensCode code then 1 else 2 := by
  unfold fragmentStart
  split <;> rfl

theorem fragmentStart_stack (code : List Char) : (fragmentStart code).stack = [] := by
  unfold fragmentStart
  split <;> rfl

theorem run_of_fragmentTokens_error {code : List Char} {e : LexError} (h : fragmentTokens code = .error e) :
    (fragmentStart code).run.2 = some e := by
  unfold fragmentTokens at h
  unfold fragmentStart
  split at h
  · rw [if_pos ‹_›]
    exact run_of_tokenize_error h
  · rw [if_neg ‹_›]
    cases hts : tokenize (openLine ++ code) with
    | ok ts =>
      rw [hts] at h
      cases h
    | error e' =>
      rw [hts] at h
      cases h
      have hrun := run_of_tokenize_error hts
      rwa [(Machine.Steps.next (next_openLine code) (.refl _)).run] at hrun

/-- **An error of a fragment names the construct that is left open.** The line that it gives is counted in the fragment
exactly if that opens code itself; if not, the line is one too high. -/
theorem shadeCode_fault {code : List Char} {e : LexError} (h : shadeCode r code = .error e) : ∃ front back k m,
    Machine.Fault (fragmentStart code) e front back k m ∧ code = Source.text front ++ k.rest ∧
      e.line = (if opensCode code then 1 else 2) + Text.newlines (Source.text front) ∧
      (e.line = 1 + Text.newlines (Source.text front) ↔ opensCode code = true) := by
  have hts : fragmentTokens code = .error e := by
    unfold shadeCode at h
    cases hts : fragmentTokens code with
    | ok ts =>
      rw [hts] at h
      cases h
    | error e' =>
      rw [hts] at h
      cases h
      rfl
  obtain ⟨front, back, k, m, hfault⟩ :=
    Machine.exists_fault (run_of_fragmentTokens_error hts) (fragmentStart_stack code)
  have htext := hfault.text
  have hline := hfault.line
  rw [fragmentStart_rest] at htext
  rw [fragmentStart_line] at hline
  refine ⟨front, back, k, m, hfault, htext, hline, ?_⟩
  cases hopen : opensCode code with
  | true => simpa [hopen] using hline
  | false =>
    rw [hopen, if_neg Bool.false_ne_true] at hline
    simp only [Bool.false_eq_true, iff_false]
    omega

/-- A literal that is never closed, in a fragment with an open tag of its own. -/
theorem exists_shadeCode_fault : ∃ (r : Rule) (code : List Char) (e : LexError) (front : List Token) (k : Machine),
    shadeCode r code = .error e ∧ code = Source.text front ++ k.rest ∧ k.Begins e ∧
      e.line = 1 + Text.newlines (Source.text front) := by
  let r : Rule := ⟨"Foo\\Bar".toList, by decide +kernel, ⟨"t".toList, by decide +kernel⟩, none, none⟩
  have h : shadeCode r "<?php\n$a = 'abc".toList = .error (.unterminatedString 2) := by decide +kernel
  obtain ⟨front, back, k, m, hfault, htext, -, hright⟩ := shadeCode_fault h
  exact ⟨r, _, _, front, k, h, htext, hfault.begins, hright.2 (by decide +kernel)⟩

/-- A literal on the first and only line of a fragment is said to begin on the second. -/
theorem fragment_error_shifted : ∃ (r : Rule) (code : List Char) (e : LexError) (front : List Token) (k : Machine),
    shadeCode r code = .error e ∧ Machine.Steps (fragmentStart code) front k ∧ k.Begins e ∧
      code = Source.text front ++ k.rest ∧ '\n' ∉ code ∧ e = .unterminatedString 2 := by
  let r : Rule := ⟨"Foo\\Bar".toList, by decide +kernel, ⟨"t".toList, by decide +kernel⟩, none, none⟩
  have h : shadeCode r "$a = 'abc".toList = .error (.unterminatedString 2) := by decide +kernel
  obtain ⟨front, back, k, m, hfault⟩ := Machine.exists_fault (s := fragmentStart "$a = 'abc".toList)
    (e := .unterminatedString 2) (by decide +kernel) rfl
  exact ⟨r, _, _, front, k, h, hfault.before, hfault.begins, hfault.text, by decide, rfl⟩

end PluginShading.Shading
