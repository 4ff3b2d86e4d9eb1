import Mathlib
import PluginShading.Version.Spec

/-!
The window of supported versions.

`Written` says how a version is written: short, as one number or two, or in full with a pre-release and a build. A text
so written, with blanks around it, is read as that version (`lenient?_written`), and the verdict on it goes by its three
numbers (`written_judged`): they are compared in order with those of the oldest and the newest version, a pre-release
counts as less than its numbers say, and the build as nothing.
-/
namespace PluginShading.Version

/-! ### Numbers -/

/-- A number as it is written, without zeros in front. -/
def numeral (n : Nat) : List Char := Nat.toDigits 10 n

variable {n : Nat} {cs rest : List Char} {c : Char}

theorem numeral_ne_nil : numeral n ≠ [] := Nat.toDigits_ne_nil

theorem isDigit_of_mem_numeral (h : c ∈ numeral n) : c.isDigit = true :=
  Nat.isDigit_of_mem_toDigits (by decide) (by decide) h

theorem digitsValue?_numeral (n : Nat) : digitsValue? (numeral n) = some n := by
  have hdigits : (numeral n).all Char.isDigit = true := List.all_eq_true.2 fun _ => isDigit_of_mem_numeral
  have hvalue : Nat.ofDigitChars 10 (numeral n) 0 = n := Nat.ofDigitChars_ten_toDigits
  rw [Nat.ofDigitChars_eq_foldl] at hvalue
  rw [digitsValue?, if_pos ⟨numeral_ne_nil, hdigits⟩]
  simp only [Nat.mul_comm] at hvalue
  exact congrArg some hvalue

theorem word?_numeral (h : n < limit) : word? (numeral n) = some n := by
  rw [word?, digitsValue?_numeral, Option.filter_some, if_pos (decide_eq_true h)]

/-- Only the number zero begins with a zero. -/
theorem hasLeadingZero_numeral (n : Nat) : hasLeadingZero (numeral n) = false := by
  induction n using Nat.strong_induction_on with
  | _ n ih =>
    rw [numeral, Nat.toDigits_eq_if (by decide)]
    split
    · simp [hasLeadingZero]
    · rename_i hlarge
      have hsmaller := ih (n / 10) (Nat.div_lt_self (by omega) (by decide))
      cases hfront : Nat.toDigits 10 (n / 10) with
      | nil => exact absurd hfront Nat.toDigits_ne_nil
      | cons c more =>
        rw [numeral, hfront] at hsmaller
        cases more with
        | cons second more =>
          by_cases hzero : c = '0'
          · subst hzero
            cases hsmaller
          · simp [hasLeadingZero, hzero]
        | nil =>
          -- A single digit in front is not zero, since the number is ten at least.
          have hvalue : Nat.ofDigitChars 10 (Nat.toDigits 10 (n / 10)) 0 = n / 10 := Nat.ofDigitChars_ten_toDigits
          have hzero : c ≠ '0' := by
            rintro rfl
            rw [hfront] at hvalue
            have hnone : n / 10 = 0 := hvalue.symm
            omega
          simp [hasLeadingZero, hzero]

/-- A number is read up to what is no digit. -/
theorem number?_numeral (h : n < limit) (hrest : ∀ c ∈ rest.head?, c.isDigit = false) :
    number? (numeral n ++ rest) = some (n, rest) := by
  have htake : (numeral n ++ rest).takeWhile Char.isDigit = numeral n := by
    rw [List.takeWhile_append_of_pos fun _ => isDigit_of_mem_numeral]
    cases rest with
    | nil => exact List.append_nil _
    | cons c more => rw [List.takeWhile_cons_of_neg (by simp [hrest c rfl]), List.append_nil]
  have hdrop : (numeral n ++ rest).dropWhile Char.isDigit = rest := by
    rw [List.dropWhile_append_of_pos fun _ => isDigit_of_mem_numeral]
    cases rest with
    | nil => rfl
    | cons c more => exact List.dropWhile_cons_of_neg (by simp [hrest c rfl])
  simp only [number?, htake, hdrop, hasLeadingZero_numeral, word?_numeral h]
  rfl

theorem number?_dot (h : n < limit) : number? (numeral n ++ '.' :: rest) = some (n, '.' :: rest) :=
  number?_numeral h fun c hc => by
    obtain rfl : '.' = c := Option.some.inj hc
    rfl

theorem plainWord?_numeral (h : n < limit) : plainWord? (numeral n) = some n := by
  unfold plainWord?
  split
  · rename_i heq
    have hplus : '+' ∈ numeral n := heq ▸ List.mem_cons_self
    exact absurd (isDigit_of_mem_numeral hplus) (by decide)
  · exact word?_numeral h

/-! ### Identifiers -/

/-- What may stand between the dots of a build. -/
structure IsBuildIdentifier (id : List Char) : Prop where
  ne_nil : id ≠ []
  plain : ∀ c ∈ id, c.isAlphanum = true ∨ c = '-'

/-- What may stand between the dots of a pre-release. A number has no zeros in front there. -/
structure IsPreIdentifier (id : List Char) : Prop extends IsBuildIdentifier id where
  numbers : (∀ c ∈ id, c.isDigit = true) → ∃ n, id = numeral n

variable {ids : List (List Char)}

theorem isIdentifier_iff {id : List Char} : isIdentifier id = true ↔ IsBuildIdentifier id := by
  simp only [isIdentifier, Bool.and_eq_true, Bool.not_eq_true', List.isEmpty_eq_false_iff, List.all_eq_true,
    Bool.or_eq_true, beq_iff_eq]
  exact ⟨fun ⟨hne, hplain⟩ => ⟨hne, hplain⟩, fun h => ⟨h.ne_nil, h.plain⟩⟩

theorem IsPreIdentifier.unpadded {id : List Char} (h : IsPreIdentifier id) :
    (numeric id && hasLeadingZero id) = false := by
  by_cases hnumeric : numeric id = true
  · simp only [numeric, Bool.and_eq_true, List.all_eq_true] at hnumeric
    obtain ⟨n, rfl⟩ := h.numbers hnumeric.2
    rw [hasLeadingZero_numeral, Bool.and_false]
  · rw [Bool.not_eq_true] at hnumeric
    rw [hnumeric, Bool.false_and]

theorem IsBuildIdentifier.free {id : List Char} (h : IsBuildIdentifier id) {mark : Char}
    (hmark : mark.isAlphanum = false) (hdash : mark ≠ '-') : mark ∉ id := by
  intro hmem
  rcases h.plain mark hmem with hplain | heq
  · rw [hmark] at hplain
    cases hplain
  · exact hdash heq

/-- What is written between dots holds no mark but the dots. -/
theorem not_mem_join (h : ∀ id ∈ ids, IsBuildIdentifier id) {mark : Char} (hmark : mark.isAlphanum = false)
    (hdash : mark ≠ '-') (hdot : mark ≠ '.') : mark ∉ Text.join '.' ids := by
  induction ids with
  | nil => exact List.not_mem_nil
  | cons id more ih =>
    obtain ⟨hid, hmore⟩ := List.forall_mem_cons.1 h
    cases more with
    | nil => exact hid.free hmark hdash
    | cons second more =>
      show mark ∉ id ++ '.' :: Text.join '.' (second :: more)
      rw [List.mem_append, List.mem_cons, not_or, not_or]
      exact ⟨hid.free hmark hdash, hdot, ih hmore⟩

theorem pieces_join_identifiers (hne : ids ≠ []) (h : ∀ id ∈ ids, IsBuildIdentifier id) :
    Text.pieces '.' (Text.join '.' ids) = ids :=
  Text.pieces_join hne fun id hid => (h id hid).free (by decide) (by decide)

theorem identifiers?_build (hne : ids ≠ []) (h : ∀ id ∈ ids, IsBuildIdentifier id) :
    identifiers? true (Text.join '.' ids) = some ids := by
  have hall : (ids.all fun id => isIdentifier id && (true || !(numeric id && hasLeadingZero id))) = true :=
    List.all_eq_true.2 fun id hid => by simp only [isIdentifier_iff.2 (h id hid), Bool.true_or, Bool.and_true]
  simp only [identifiers?, pieces_join_identifiers hne h]
  exact if_pos hall

theorem identifiers?_pre (hne : ids ≠ []) (h : ∀ id ∈ ids, IsPreIdentifier id) :
    identifiers? false (Text.join '.' ids) = some ids := by
  have hall : (ids.all fun id => isIdentifier id && (false || !(numeric id && hasLeadingZero id))) = true :=
    List.all_eq_true.2 fun id hid => by
      simp only [isIdentifier_iff.2 (h id hid).toIsBuildIdentifier, (h id hid).unpadded, Bool.not_false, Bool.or_true,
        Bool.and_true]
  simp only [identifiers?, pieces_join_identifiers hne fun id hid => (h id hid).toIsBuildIdentifier]
  exact if_pos hall

/-- Identifiers behind their mark, where there are any. -/
def suffix (mark : Char) (ids : List (List Char)) : List Char := if ids = [] then [] else mark :: Text.join '.' ids

theorem suffixes?_written {pre build : List (List Char)} (hpre : ∀ id ∈ pre, IsPreIdentifier id)
    (hbuild : ∀ id ∈ build, IsBuildIdentifier id) : suffixes? (suffix '-' pre ++ suffix '+' build) = some (pre, build) := by
  unfold suffix
  by_cases hnone : pre = []
  · subst hnone
    by_cases hplain : build = []
    · subst hplain
      rfl
    · simp [hplain, suffixes?, identifiers?_build hplain hbuild]
  · have hfree : ∀ c ∈ Text.join '.' pre, (c != '+') = true := fun c hc => bne_iff_ne.2 fun heq =>
      not_mem_join (fun id hid => (hpre id hid).toIsBuildIdentifier) (by decide) (by decide) (by decide) (heq ▸ hc)
    have hread := identifiers?_pre hnone hpre
    by_cases hplain : build = []
    · subst hplain
      have hend : (Text.join '.' pre).dropWhile (· != '+') = [] := List.dropWhile_eq_nil_iff.2 hfree
      simp [hnone, suffixes?, hend, hread]
    · have hend : (Text.join '.' pre ++ '+' :: Text.join '.' build).dropWhile (· != '+') =
          '+' :: Text.join '.' build := by
        rw [List.dropWhile_append_of_pos hfree]
        rfl
      have hfront : (Text.join '.' pre ++ '+' :: Text.join '.' build).takeWhile (· != '+') = Text.join '.' pre := by
        rw [List.takeWhile_append_of_pos hfree]
        exact List.append_nil _
      simp [hnone, hplain, suffixes?, hend, hfront, hread, identifiers?_build hplain hbuild]

/-! ### Versions as they are written -/

structure Semantic.WellFormed (v : Semantic) : Prop where
  major : v.major < limit
  minor : v.minor < limit
  patch : v.patch < limit
  pre : ∀ id ∈ v.pre, IsPreIdentifier id
  build : ∀ id ∈ v.build, IsBuildIdentifier id

/-- The texts that stand for a version. One number or two stand for a release with zeros behind them. -/
inductive Written : List Char → Semantic → Prop
  | major {a : Nat} : a < limit → Written (numeral a) ⟨a, 0, 0, [], []⟩
  | minor {a b : Nat} : a < limit → b < limit → Written (numeral a ++ '.' :: numeral b) ⟨a, b, 0, [], []⟩
  | full {v : Semantic} : v.WellFormed → Written v.text.toList v

variable {v : Semantic} {text : List Char}

theorem Semantic.toList_text (v : Semantic) : v.text.toList = numeral v.major ++ '.' :: (numeral v.minor ++
    '.' :: (numeral v.patch ++ (suffix '-' v.pre ++ suffix '+' v.build))) := by
  unfold text suffix numeral
  split <;> split <;> simp

theorem ofText?_text (h : v.WellFormed) : Semantic.ofText? v.text.toList = some v := by
  have hend : ∀ c ∈ (suffix '-' v.pre ++ suffix '+' v.build).head?, c.isDigit = false := by
    unfold suffix
    split <;> split <;> simp
  rw [v.toList_text, Semantic.ofText?, number?_dot h.major]
  show (number? _).bind _ = _
  rw [number?_dot h.minor]
  show (number? _).bind _ = _
  rw [number?_numeral h.patch hend]
  show (suffixes? _).bind _ = _
  rw [suffixes?_written h.pre h.build]
  rfl

/-- One number or two are no full version. -/
theorem ofText?_numeral {a : Nat} (ha : a < limit) : Semantic.ofText? (numeral a) = none := by
  have hread : number? (numeral a ++ []) = some (a, []) := number?_numeral ha nofun
  rw [List.append_nil] at hread
  rw [Semantic.ofText?, hread]
  rfl

theorem ofText?_numerals {a b : Nat} (ha : a < limit) (hb : b < limit) :
    Semantic.ofText? (numeral a ++ '.' :: numeral b) = none := by
  have hread : number? (numeral b ++ []) = some (b, []) := number?_numeral hb nofun
  rw [List.append_nil] at hread
  rw [Semantic.ofText?, number?_dot ha]
  show (number? _).bind _ = _
  rw [hread]
  rfl

theorem pieces_numeral (n : Nat) : Text.pieces '.' (numeral n) = [numeral n] :=
  Text.pieces_of_not_mem fun hdot => absurd (isDigit_of_mem_numeral hdot) (by decide)

/-- Reading looks at what is left when blanks are trimmed. -/
theorem lenient?_of_trim {whole : List Char} (htrim : Text.trim whole = text) (h : Written text v) :
    lenient? whole = some v := by
  unfold lenient?
  rw [htrim]
  cases h with
  | full hv => simp only [ofText?_text hv]
  | major ha =>
    simp only [ofText?_numeral ha, pieces_numeral, plainWord?_numeral ha]
    rfl
  | minor ha hb =>
    simp only [ofText?_numerals ha hb, Text.pieces_append, pieces_numeral, plainWord?_numeral ha,
      plainWord?_numeral hb, List.singleton_append]
    rfl

/-! ### Blanks -/

theorem not_isSpace_of_isAlphanum (h : c.isAlphanum = true) : Text.isSpace c = false := by
  simp only [Char.isAlphanum, Char.isAlpha, Char.isUpper, Char.isLower, Char.isDigit, Bool.or_eq_true,
    Bool.and_eq_true, decide_eq_true_eq, UInt32.le_iff_toNat_le, ge_iff_le] at h
  simp only [Text.isSpace, Char.toNat, Bool.or_eq_false_iff, Bool.and_eq_false_iff, beq_eq_false_iff_ne,
    decide_eq_false_iff_not]
  have hbounds : 48 ≤ c.val.toNat ∧ c.val.toNat ≤ 122 := by
    rcases h with (⟨hlow, hhigh⟩ | ⟨hlow, hhigh⟩) | ⟨hlow, hhigh⟩ <;>
      simp only [Char.reduceVal, UInt32.reduceToNat] at hlow hhigh <;> omega
  omega

/-- A blank is none of the characters that versions are written with. -/
structure IsBlankMark (c : Char) : Prop where
  word : c.isAlphanum = false
  dot : c ≠ '.'
  dash : c ≠ '-'
  plus : c ≠ '+'

theorem isBlankMark_of_isSpace (h : Text.isSpace c = true) : IsBlankMark c where
  word := by
    by_contra hword
    rw [Bool.not_eq_false] at hword
    rw [not_isSpace_of_isAlphanum hword] at h
    cases h
  dot := by
    rintro rfl
    cases h
  dash := by
    rintro rfl
    cases h
  plus := by
    rintro rfl
    cases h

namespace IsBlankMark

theorem not_mem_numeral (h : IsBlankMark c) : c ∉ numeral n := fun hmem => by
  have hword := h.word
  rw [Char.isAlphanum, isDigit_of_mem_numeral hmem, Bool.or_true] at hword
  cases hword

theorem not_mem_suffix (h : IsBlankMark c) {mark : Char} (hmark : c ≠ mark) (hids : ∀ id ∈ ids, IsBuildIdentifier id) :
    c ∉ suffix mark ids := by
  unfold suffix
  split
  · exact List.not_mem_nil
  · rw [List.mem_cons, not_or]
    exact ⟨hmark, not_mem_join hids h.word h.dash h.dot⟩

/-- A version is written without blanks. -/
theorem not_mem_written (h : IsBlankMark c) (htext : Written text v) : c ∉ text := by
  cases htext with
  | major ha => exact h.not_mem_numeral
  | minor ha hb => simp [h.not_mem_numeral, h.dot]
  | full hv =>
    have hpre := h.not_mem_suffix h.dash fun id hid => (hv.pre id hid).toIsBuildIdentifier
    have hbuild := h.not_mem_suffix h.plus hv.build
    rw [v.toList_text]
    simp [h.not_mem_numeral, h.dot, hpre, hbuild]

end IsBlankMark

/-- Blanks around a text that has none are trimmed away. -/
theorem trim_around {before after : List Char} (hbefore : ∀ c ∈ before, Text.isSpace c = true)
    (hafter : ∀ c ∈ after, Text.isSpace c = true) (htext : ∀ c ∈ text, Text.isSpace c = false) (hne : text ≠ []) :
    Text.trim (before ++ (text ++ after)) = text := by
  have hkeep : ∀ {s rest : List Char}, s ≠ [] → (∀ c ∈ s, Text.isSpace c = false) →
      (s ++ rest).dropWhile Text.isSpace = s ++ rest := by
    intro s rest hs hfree
    obtain ⟨c, more, rfl⟩ := List.exists_cons_of_ne_nil hs
    exact List.dropWhile_cons_of_neg (by simp [hfree c List.mem_cons_self])
  rw [Text.trim, Text.trimStart, Text.trimEnd, List.dropWhile_append_of_pos hbefore, hkeep hne htext,
    List.reverse_append, List.dropWhile_append_of_pos fun c hc => hafter c (List.mem_reverse.1 hc)]
  have hback : text.reverse.dropWhile Text.isSpace = text.reverse := by
    simpa using @hkeep text.reverse [] (List.reverse_ne_nil_iff.2 hne) fun c hc => htext c (List.mem_reverse.1 hc)
  rw [hback, List.reverse_reverse]

theorem Written.ne_nil (h : Written text v) : text ≠ [] := by
  cases h with
  | major ha => exact numeral_ne_nil
  | minor ha hb => exact List.append_ne_nil_of_left_ne_nil numeral_ne_nil _
  | full hv =>
    rw [v.toList_text]
    exact List.append_ne_nil_of_left_ne_nil numeral_ne_nil _

/-- **A version is read as it is written**, short or in full, with blanks around it. -/
theorem lenient?_written {before after : List Char} (hbefore : ∀ c ∈ before, Text.isSpace c = true)
    (hafter : ∀ c ∈ after, Text.isSpace c = true) (h : Written text v) :
    lenient? (before ++ (text ++ after)) = some v := by
  refine lenient?_of_trim (trim_around hbefore hafter (fun c hc => ?_) h.ne_nil) h
  rw [← Bool.not_eq_true]
  exact fun hblank => (isBlankMark_of_isSpace hblank).not_mem_written h hc

/-! ### The window -/

abbrev Triple := Nat ×ₗ Nat ×ₗ Nat

/-- Three numbers, compared in order. -/
def triple (a b c : Nat) : Triple := toLex (a, toLex (b, c))

def Semantic.triple (v : Semantic) : Triple := Version.triple v.major v.minor v.patch

theorem triple_lt_iff {a b c a' b' c' : Nat} : triple a b c < triple a' b' c' ↔
    a < a' ∨ a = a' ∧ (b < b' ∨ b = b' ∧ c < c') := by
  simp only [triple, Prod.Lex.toLex_lt_toLex]

theorem compare_then (a b : Nat) (o : Ordering) :
    (compare a b).then o = if a < b then .lt else if b < a then .gt else o := by
  rw [Nat.compare_eq_ite_lt]
  split
  · rfl
  · split <;> rfl

/-- Against a release the numbers decide; where they are equal, a pre-release comes before. -/
theorem precedence_release {w : Semantic} (hw : w.pre = []) : v.precedence w =
    if v.triple < w.triple then .lt else if w.triple < v.triple then .gt else if v.pre = [] then .eq else .lt := by
  have hpre : comparePre v.pre [] = if v.pre = [] then .eq else .lt := by
    cases v.pre <;> rfl
  simp only [Semantic.precedence, hw, hpre, compare_then, Semantic.triple, triple_lt_iff]
  grind

theorem precedence_eq_lt_iff {w : Semantic} (hw : w.pre = []) :
    v.precedence w = .lt ↔ v.triple < w.triple ∨ v.triple = w.triple ∧ v.pre ≠ [] := by
  rw [precedence_release hw]
  rcases lt_trichotomy v.triple w.triple with h | h | h
  · simp [h]
  · by_cases hpre : v.pre = [] <;> simp [h, hpre]
  · simp [h, h.not_gt, h.ne']

theorem precedence_eq_gt_iff {w : Semantic} (hw : w.pre = []) : v.precedence w = .gt ↔ w.triple < v.triple := by
  rw [precedence_release hw]
  rcases lt_trichotomy v.triple w.triple with h | h | h
  · simp [h, h.not_gt]
  · by_cases hpre : v.pre = [] <;> simp [h, hpre]
  · simp [h, h.not_gt]

def Support.version : Support → Semantic
  | supported v | tooOld v | tooNew v => v

/-- The verdict on a text that gives the version `v` goes by three conditions. -/
@[mk_iff]
structure Judged (text : List Char) (v : Semantic) (old fit new : Prop) : Prop where
  tooOld : check? text = some (.tooOld v) ↔ old
  supported : check? text = some (.supported v) ↔ fit
  tooNew : check? text = some (.tooNew v) ↔ new

theorem judged_of_check {old new : Prop} [Decidable old] [Decidable new] (hnew : new → ¬ old)
    (h : check? text = some (if old then .tooOld v else if new then .tooNew v else .supported v)) :
    Judged text v old (¬ old ∧ ¬ new) new := by
  rw [judged_iff, h]
  by_cases hold : old
  · have hfit : ¬ new := fun hover => hnew hover hold
    simp [hold, hfit]
  · by_cases hover : new <;> simp [hold, hover]

/-- **The window is that of the numbers.** A version that is written down, short or in full and with blanks around it,
is judged by its three numbers, which are compared in order with those of the oldest and the newest version. A
pre-release counts as just below its numbers, and the build does not count. -/
theorem written_judged {before after : List Char} (hbefore : ∀ c ∈ before, Text.isSpace c = true)
    (hafter : ∀ c ∈ after, Text.isSpace c = true) (h : Written text v) :
    (check? (before ++ (text ++ after))).map Support.version = some v ∧
      (v.pre = [] → Judged (before ++ (text ++ after)) v (v.triple < triple 3 0 0)
        (triple 3 0 0 ≤ v.triple ∧ v.triple ≤ triple 3 1 0) (triple 3 1 0 < v.triple)) ∧
      (v.pre ≠ [] → Judged (before ++ (text ++ after)) v (v.triple ≤ triple 3 0 0)
        (triple 3 0 0 < v.triple ∧ v.triple ≤ triple 3 1 0) (triple 3 1 0 < v.triple)) := by
  have hof : Support.of v = if v.triple < triple 3 0 0 ∨ v.triple = triple 3 0 0 ∧ v.pre ≠ [] then .tooOld v
      else if triple 3 1 0 < v.triple then .tooNew v else .supported v := by
    simp only [Support.of, precedence_eq_lt_iff (w := oldest) rfl, precedence_eq_gt_iff (w := newest) rfl]
    rfl
  have hcheck : check? (before ++ (text ++ after)) = some (Support.of v) := by
    rw [check?, lenient?_written hbefore hafter h, Option.map_some]
  rw [hof] at hcheck
  have hwide : triple 3 0 0 < triple 3 1 0 := triple_lt_iff.2 (by decide)
  refine ⟨?_, fun hpre => ?_, fun hpre => ?_⟩
  · rw [hcheck, Option.map_some]
    split
    · rfl
    · split <;> rfl
  · simp only [hpre, ne_eq, not_true_eq_false, and_false, or_false] at hcheck
    have hjudged := judged_of_check (fun hnew => (hwide.trans hnew).not_gt) hcheck
    rwa [not_lt, not_lt] at hjudged
  · simp only [ne_eq, hpre, not_false_eq_true, and_true, ← le_iff_lt_or_eq] at hcheck
    have hjudged := judged_of_check (fun hnew => not_le.2 (hwide.trans hnew)) hcheck
    rwa [not_le, not_lt] at hjudged

theorem exists_written_judged : ∃ before after text v, (∀ c ∈ before, Text.isSpace c = true) ∧
    (∀ c ∈ after, Text.isSpace c = true) ∧ Written text v ∧ v.pre ≠ [] ∧ v.build ≠ [] ∧
      before ++ (text ++ after) = "\t3.1.0-rc.10+b.07 ".toList ∧ v.triple = triple 3 1 0 ∧
      check? (before ++ (text ++ after)) = some (.supported v) := by
  let v : Semantic := ⟨3, 1, 0, [['r', 'c'], ['1', '0']], [['b'], ['0', '7']]⟩
  have hword : IsBuildIdentifier ['r', 'c'] := isIdentifier_iff.1 (by decide)
  have hnumber : IsBuildIdentifier ['1', '0'] := isIdentifier_iff.1 (by decide)
  have hpre : ∀ id ∈ v.pre, IsPreIdentifier id := by
    refine List.forall_mem_cons.2 ⟨⟨hword, fun hdigits => ?_⟩, List.forall_mem_singleton.2 ⟨hnumber, fun _ => ⟨10, rfl⟩⟩⟩
    exact absurd (hdigits 'r' List.mem_cons_self) (by decide)
  have hbuild : ∀ id ∈ v.build, IsBuildIdentifier id :=
    fun id hid => isIdentifier_iff.1 (List.all_eq_true.1 (by decide : v.build.all isIdentifier = true) id hid)
  have hblank : ∀ c ∈ ['\t'], Text.isSpace c = true := List.forall_mem_singleton.2 (by decide)
  have hblank' : ∀ c ∈ [' '], Text.isSpace c = true := List.forall_mem_singleton.2 (by decide)
  have hv : v.WellFormed := ⟨by decide, by decide, by decide, hpre, hbuild⟩
  have hjudged := (written_judged hblank hblank' (.full hv)).2.2 (by decide)
  exact ⟨_, _, _, v, hblank, hblank', .full hv, by decide, by decide, by decide, rfl,
    hjudged.supported.2 ⟨triple_lt_iff.2 (by decide), le_refl _⟩⟩

end PluginShading.Version
