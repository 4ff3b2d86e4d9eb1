import PluginShading.Proofs.Version.Window

/-!
Versions of one or two numbers, whatever the zeros in front of them.

The verdict on such a text goes by the two numbers alone (`verdict?_whole`, `verdict?_decimal`). With a sign or with an
exponent the text is no version (`verdict?_dash`, `verdict?_exponent`).
-/
namespace PluginShading.Version

variable {w f cs : List Char} {c : Char}

/-! ### Verdicts -/

inductive Verdict
  | tooOld
  | supported
  | tooNew
  deriving DecidableEq, Repr

def Support.verdict : Support → Verdict
  | tooOld _ => .tooOld
  | supported _ => .supported
  | tooNew _ => .tooNew

/-- How a text is classified; nothing where it gives no version. -/
def verdict? (text : List Char) : Option Verdict := (check? text).map Support.verdict

/-- The verdict on two numbers. -/
def verdictOf (major minor : Nat) : Verdict :=
  if major < 3 then .tooOld else if major = 3 ∧ minor ≤ 1 then .supported else .tooNew

theorem verdict_of (a b : Nat) : (Support.of ⟨a, b, 0, [], []⟩).verdict = verdictOf a b := by
  have hold : Semantic.precedence ⟨a, b, 0, [], []⟩ oldest = .lt ↔ a < 3 := by
    rw [precedence_eq_lt_iff rfl]
    simp only [Semantic.triple, oldest, triple_lt_iff, ne_eq, not_true_eq_false, and_false, or_false]
    omega
  have hnew : Semantic.precedence ⟨a, b, 0, [], []⟩ newest = .gt ↔ 3 < a ∨ a = 3 ∧ 1 < b := by
    rw [precedence_eq_gt_iff rfl]
    simp only [Semantic.triple, newest, triple_lt_iff]
    omega
  unfold Support.of verdictOf
  simp only [hold, hnew]
  split
  · rfl
  · split
    · rw [if_neg (by omega)]
      rfl
    · rw [if_pos (by omega)]
      rfl

/-! ### Digits -/

/-- The number that digits spell, zeros in front of them or not. -/
def spelled (cs : List Char) : Nat := Nat.ofDigitChars 10 cs 0

theorem digitsValue?_digits (hne : cs ≠ []) (h : ∀ c ∈ cs, c.isDigit = true) : digitsValue? cs = some (spelled cs) := by
  rw [digitsValue?, if_pos ⟨hne, List.all_eq_true.2 h⟩, spelled, Nat.ofDigitChars_eq_foldl]
  simp only [Nat.mul_comm]
  rfl

theorem plainWord?_of_head (h : cs.head? ≠ some '+') : plainWord? cs = word? cs := by
  unfold plainWord?
  split
  · exact absurd rfl h
  · rfl

theorem head?_of_digits (h : ∀ c ∈ cs, c.isDigit = true) (hc : c.isDigit = false) : cs.head? ≠ some c := fun heq => by
  rw [h c (List.mem_of_mem_head? heq)] at hc
  cases hc

theorem plainWord?_digits (hne : cs ≠ []) (h : ∀ c ∈ cs, c.isDigit = true) :
    plainWord? cs = if spelled cs < limit then some (spelled cs) else none := by
  rw [plainWord?_of_head (head?_of_digits h (by decide)), word?, digitsValue?_digits hne h, Option.filter_some]
  simp only [decide_eq_true_eq]

/-- Digits and nothing else make a number. -/
theorem word?_of_not_digit (hc : c ∈ cs) (hdigit : c.isDigit = false) : word? cs = none := by
  rw [word?, digitsValue?, if_neg, Option.filter_none]
  rintro ⟨-, hall⟩
  rw [List.all_eq_true.1 hall c hc] at hdigit
  cases hdigit

/-! ### Pieces -/

theorem number?_split {n : Nat} {rest : List Char} (h : number? cs = some (n, rest)) :
    cs = cs.takeWhile Char.isDigit ++ rest := by
  unfold number? at h
  dsimp only at h
  split at h
  · cases h
  · obtain ⟨_, -, heq⟩ := Option.map_eq_some_iff.1 h
    obtain ⟨-, rfl⟩ := Prod.mk.inj heq
    exact List.takeWhile_append_dropWhile.symm

/-- A full version has two dots at least. -/
theorem ofText?_of_count (h : cs.count '.' ≤ 1) : Semantic.ofText? cs = none := by
  have hdot : ∀ {r r' : List Char}, dot? r = some r' → r = '.' :: r' := by
    intro r r' hr
    unfold dot? at hr
    split at hr
    · rw [Option.some.inj hr]
    · cases hr
  cases hread : Semantic.ofText? cs with
  | none => rfl
  | some v =>
    simp only [Semantic.ofText?, Option.bind_eq_bind, Option.bind_eq_some_iff] at hread
    obtain ⟨⟨_, r₁⟩, hmajor, r₂, hfirst, ⟨_, r₃⟩, hminor, r₄, hsecond, -⟩ := hread
    rw [number?_split hmajor, show r₁ = _ from hdot hfirst, number?_split hminor, show r₃ = _ from hdot hsecond] at h
    simp only [List.count_append, List.count_cons_self] at h
    omega

/-- A text without blanks is not changed by trimming. -/
theorem trim_eq_self (hne : cs ≠ []) (h : ∀ c ∈ cs, Text.isSpace c = false) : Text.trim cs = cs := by
  have htrim : Text.trim ([] ++ (cs ++ [])) = cs := trim_around nofun nofun h hne
  rwa [List.nil_append, List.append_nil] at htrim

theorem verdict?_of_piece (hblank : ∀ c ∈ cs, Text.isSpace c = false) (hne : cs ≠ []) (hdot : '.' ∉ cs) :
    verdict? cs = (plainWord? cs).map (verdictOf · 0) := by
  have hcount : cs.count '.' ≤ 1 := by rw [List.count_eq_zero_of_not_mem hdot]; omega
  have hread : lenient? cs = (plainWord? cs).bind fun a => some ⟨a, 0, 0, [], []⟩ := by
    simp only [lenient?, trim_eq_self hne hblank, ofText?_of_count hcount, Text.pieces_of_not_mem hdot]
    rfl
  rw [verdict?, check?, hread]
  cases plainWord? cs with
  | none => rfl
  | some a => exact congrArg some (verdict_of a 0)

theorem verdict?_of_pieces (hblank : ∀ c ∈ w ++ '.' :: f, Text.isSpace c = false) (hw : '.' ∉ w) (hf : '.' ∉ f) :
    verdict? (w ++ '.' :: f) = (plainWord? w).bind fun a => (plainWord? f).map (verdictOf a) := by
  have hcount : (w ++ '.' :: f).count '.' ≤ 1 := by
    rw [List.count_append, List.count_cons_self, List.count_eq_zero_of_not_mem hw, List.count_eq_zero_of_not_mem hf]
  have hread : lenient? (w ++ '.' :: f) =
      (plainWord? w).bind fun a => (plainWord? f).bind fun b => some ⟨a, b, 0, [], []⟩ := by
    simp only [lenient?, trim_eq_self (List.append_ne_nil_of_right_ne_nil _ (List.cons_ne_nil _ _)) hblank,
      ofText?_of_count hcount, Text.pieces_append, Text.pieces_of_not_mem hw, Text.pieces_of_not_mem hf]
    rfl
  rw [verdict?, check?, hread]
  cases plainWord? w with
  | none => rfl
  | some a =>
    cases plainWord? f with
    | none => rfl
    | some b => exact congrArg some (verdict_of a b)

/-! ### Verdicts on digits -/

theorem not_isSpace_of_isDigit (h : c.isDigit = true) : Text.isSpace c = false :=
  not_isSpace_of_isAlphanum (by rw [Char.isAlphanum, h, Bool.or_true])

theorem not_mem_of_digits (h : ∀ c ∈ cs, c.isDigit = true) (hc : c.isDigit = false) : c ∉ cs := fun hmem => by
  rw [h c hmem] at hc
  cases hc

theorem verdict?_whole (hne : w ≠ []) (hw : ∀ c ∈ w, c.isDigit = true) :
    verdict? w = if spelled w < limit then some (verdictOf (spelled w) 0) else none := by
  rw [verdict?_of_piece (fun c hc => not_isSpace_of_isDigit (hw c hc)) hne (not_mem_of_digits hw (by decide)),
    plainWord?_digits hne hw]
  split <;> rfl

theorem verdict?_decimal (hwne : w ≠ []) (hw : ∀ c ∈ w, c.isDigit = true) (hfne : f ≠ [])
    (hf : ∀ c ∈ f, c.isDigit = true) : verdict? (w ++ '.' :: f) =
      if spelled w < limit ∧ spelled f < limit then some (verdictOf (spelled w) (spelled f)) else none := by
  have hblank : ∀ c ∈ w ++ '.' :: f, Text.isSpace c = false := by
    intro c hc
    rcases List.mem_append.1 hc with hc | hc
    · exact not_isSpace_of_isDigit (hw c hc)
    · rcases List.mem_cons.1 hc with rfl | hc
      · rfl
      · exact not_isSpace_of_isDigit (hf c hc)
  rw [verdict?_of_pieces hblank (not_mem_of_digits hw (by decide)) (not_mem_of_digits hf (by decide)),
    plainWord?_digits hwne hw, plainWord?_digits hfne hf]
  by_cases hlarge : spelled w < limit
  · by_cases hlong : spelled f < limit <;> simp [hlarge, hlong]
  · simp [hlarge]

/-- What may stand in a number, the point apart. -/
structure IsNumberMark (c : Char) : Prop where
  blank : Text.isSpace c = false
  dot : c ≠ '.'

theorem isNumberMark_of_isDigit (h : c.isDigit = true) : IsNumberMark c := by
  refine ⟨not_isSpace_of_isDigit h, ?_⟩
  rintro rfl
  cases h

/-- A number with an exponent is no version, whether there is a point in it or not. -/
theorem verdict?_exponent {mark : Char} {tail : List Char} (hw : ∀ c ∈ w, c.isDigit = true)
    (hf : ∀ c ∈ f, c.isDigit = true) (hmark : mark = 'e' ∨ mark = 'E') (htail : ∀ c ∈ tail, IsNumberMark c) :
    verdict? (w ++ (f ++ mark :: tail)) = none ∧ verdict? (w ++ '.' :: (f ++ mark :: tail)) = none := by
  have hmarked : IsNumberMark mark ∧ mark.isDigit = false ∧ mark ≠ '+' := by
    rcases hmark with rfl | rfl <;> exact ⟨⟨by decide, by decide⟩, by decide, by decide⟩
  have hback : ∀ c ∈ f ++ mark :: tail, IsNumberMark c := by
    simp only [List.forall_mem_append, List.forall_mem_cons]
    exact ⟨fun c hc => isNumberMark_of_isDigit (hf c hc), hmarked.1, htail⟩
  have hmem : mark ∈ f ++ mark :: tail := List.mem_append_right f List.mem_cons_self
  have hfirst : ∀ {front : List Char}, (∀ c ∈ front, c.isDigit = true) → (front ++ mark :: tail).head? ≠ some '+' := by
    intro front hfront
    cases front with
    | nil => exact fun heq => hmarked.2.2 (Option.some.inj heq)
    | cons d more =>
      show (d :: more).head? ≠ some '+'
      exact head?_of_digits hfront (by decide)
  have hhead := hfirst hf
  have hhead' : (w ++ (f ++ mark :: tail)).head? ≠ some '+' := by
    rw [← List.append_assoc]
    exact hfirst (List.forall_mem_append.2 ⟨hw, hf⟩)
  generalize f ++ mark :: tail = back at *
  have hdot : '.' ∉ back := fun hc => (hback _ hc).dot rfl
  have hwdot : '.' ∉ w := not_mem_of_digits hw (by decide)
  have hwblank : ∀ c ∈ w, Text.isSpace c = false := fun c hc => not_isSpace_of_isDigit (hw c hc)
  have hblank : ∀ c ∈ back, Text.isSpace c = false := fun c hc => (hback c hc).blank
  constructor
  · rw [verdict?_of_piece (List.forall_mem_append.2 ⟨hwblank, hblank⟩)
      (List.append_ne_nil_of_right_ne_nil _ (List.ne_nil_of_mem hmem)) (List.mem_append.not.2 (not_or.2 ⟨hwdot, hdot⟩)),
      plainWord?_of_head hhead', word?_of_not_digit (List.mem_append_right w hmem) hmarked.2.1]
    rfl
  · rw [verdict?_of_pieces (List.forall_mem_append.2 ⟨hwblank, List.forall_mem_cons.2 ⟨rfl, hblank⟩⟩) hwdot hdot,
      plainWord?_of_head hhead, word?_of_not_digit hmem hmarked.2.1]
    cases plainWord? w <;> rfl

/-- No version begins with a minus sign. -/
theorem verdict?_dash (cs : List Char) : verdict? ('-' :: cs) = none := by
  obtain ⟨rest, htrim⟩ : ∃ rest, Text.trim ('-' :: cs) = '-' :: rest := by
    rw [Text.trim, Text.trimStart, List.dropWhile_cons_of_neg (by decide), Text.trimEnd, List.reverse_cons,
      List.dropWhile_append]
    split
    · exact ⟨[], rfl⟩
    · exact ⟨(cs.reverse.dropWhile Text.isSpace).reverse, by rw [List.reverse_append]; rfl⟩
  have hnumber : ∀ more, word? ('-' :: more) = none := fun more => word?_of_not_digit List.mem_cons_self rfl
  have hfull : Semantic.ofText? ('-' :: rest) = none := by
    have hnone : number? ('-' :: rest) = none := by
      simp only [number?, List.takeWhile_cons_of_neg (show ¬ ('-').isDigit = true by decide)]
      rfl
    rw [Semantic.ofText?, hnone]
    rfl
  obtain ⟨piece, more, hpieces⟩ : ∃ piece more, Text.pieces '.' ('-' :: rest) = ('-' :: piece) :: more := by
    rw [Text.pieces, if_neg (by decide)]
    split
    · exact ⟨[], [], rfl⟩
    · exact ⟨_, _, rfl⟩
  have hread : lenient? ('-' :: cs) = none := by
    simp only [lenient?, htrim, hfull, hpieces]
    split
    · rename_i hone
      obtain ⟨rfl, -⟩ := List.cons.inj hone
      rw [plainWord?_of_head (by simp), hnumber]
      rfl
    · rename_i htwo
      obtain ⟨rfl, -⟩ := List.cons.inj htwo
      rw [plainWord?_of_head (by simp), hnumber]
      rfl
    · rfl
  rw [verdict?, check?, hread]
  rfl

end PluginShading.Version
