import Mathlib.Data.List.TakeWhile
import PluginShading.Proofs.Source.Lookahead

/-!
Every lexeme ends at the same place in front of a text that looks alike.

For each recogniser: if it divides a text into `t` and `a`, it divides `t ++ b` into `t` and `b`, where
`Alike a b`. Recognisers that find their own end (a closing quote, the end of a comment) need nothing of
`b`; a stretch of a literal that an interpolation interrupts needs the same interpolation in `b`.
-/
namespace PluginShading.Source

variable {strict : Prop} {inWord : Bool}

/-! ### Runs of characters -/

theorem takeWhile_of_stop {p : Char → Bool} {b : List Char} (h : headIs p b = false) :
    b.takeWhile p = [] := by
  cases b with
  | nil => rfl
  | cons c rest =>
    have hc : p c = false := h
    simp [hc]

theorem headIs_dropWhile (p : Char → Bool) (cs : List Char) : headIs p (cs.dropWhile p) = false := by
  induction cs with
  | nil => rfl
  | cons c rest ih =>
    rw [List.dropWhile_cons]
    cases hc : p c with
    | true => simpa using ih
    | false => simpa [headIs] using hc

theorem takeWhile_append_stop {p : Char → Bool} {t b : List Char} (ht : ∀ c ∈ t, p c = true)
    (hb : headIs p b = false) : (t ++ b).takeWhile p = t := by
  rw [List.takeWhile_append_of_pos ht, takeWhile_of_stop hb, List.append_nil]

theorem dropWhile_append_stop {p : Char → Bool} {t b : List Char} (ht : ∀ c ∈ t, p c = true)
    (hb : headIs p b = false) : (t ++ b).dropWhile p = b := by
  rw [List.dropWhile_append_of_pos ht]
  cases b with
  | nil => rfl
  | cons c rest =>
    have hc : p c = false := hb
    simp [hc]

theorem takeWhile_swap {p : Char → Bool} {cs b : List Char} (hb : headIs p b = false) :
    (cs.takeWhile p ++ b).takeWhile p = cs.takeWhile p :=
  takeWhile_append_stop (fun _ hc => List.mem_takeWhile_imp hc) hb

theorem dropWhile_swap {p : Char → Bool} {cs b : List Char} (hb : headIs p b = false) :
    (cs.takeWhile p ++ b).dropWhile p = b :=
  dropWhile_append_stop (fun _ hc => List.mem_takeWhile_imp hc) hb

/-- A mark that is not behind `u` in front of `a` is not behind it in front of `b` either. -/
theorem headIs_swap {u a b : List Char} (h : Alike strict inWord a b) {x : Char}
    (hx : isMark x = true) (ha : headIs (· == x) (u ++ a) = false) :
    headIs (· == x) (u ++ b) = false := by
  cases u with
  | cons c rest => exact ha
  | nil =>
    rw [List.nil_append] at ha ⊢
    rw [h.headIs_eq, ha]
    intro c hc
    have : c ≠ x := by
      rintro rfl
      rw [(isMark_iff.1 hx).1] at hc
      cases hc
    simpa using this

/-! ### Names and numbers -/

theorem nameSegments_eq_nil_swap {a b : List Char} (h : Alike strict inWord a b)
    (ha : nameSegments a = ([], a)) : nameSegments b = ([], b) := by
  unfold nameSegments
  split
  · rename_i c rest
    obtain ⟨a', rfl, h'⟩ := h.of_cons (x := '\\') (by decide)
    have hc : isNameStart c = false := by
      cases hs : isNameStart c with
      | false => rfl
      | true =>
        have hstart := h'.headIs_isNameStart
        cases a' with
        | nil => simp [headIs, hs] at hstart
        | cons d more =>
          have hd : isNameStart d = true := by simpa [headIs, hs] using hstart.symm
          simp [nameSegments, hd] at ha
    simp [hc]
  · rfl

/-- Where the segments of a name end, no further one begins. -/
theorem nameSegments_rest (cs : List Char) :
    nameSegments (nameSegments cs).2 = ([], (nameSegments cs).2) := by
  fun_induction nameSegments cs with
  | case1 c rest h tail ih => exact ih
  | case2 c rest h => simp [nameSegments, h]
  | case3 cs h => unfold nameSegments; split <;> simp_all

theorem headIs_nameSegments_rest {cs : List Char} (h : headIs isNameChar cs = false) :
    headIs isNameChar (nameSegments cs).2 = false := by
  fun_induction nameSegments cs with
  | case1 c rest hc tail ih => exact ih (headIs_dropWhile _ _)
  | case2 => exact h
  | case3 => exact h

/-- Segments begin with a separator, so no word goes on into them. -/
theorem headIs_nameSegments_append (cs : List Char) {b : List Char}
    (hb : headIs isNameChar b = false) : headIs isNameChar ((nameSegments cs).1 ++ b) = false := by
  unfold nameSegments
  split
  · split
    · rfl
    · exact hb
  · exact hb

/-- Segments stay what they are in front of a text that continues none. -/
theorem nameSegments_append_stop {cs b : List Char} (hb : headIs isNameChar b = false)
    (hn : nameSegments b = ([], b)) :
    nameSegments ((nameSegments cs).1 ++ b) = ((nameSegments cs).1, b) := by
  fun_induction nameSegments cs with
  | case1 c rest hc tail ih =>
    have hword : ∀ x ∈ rest.takeWhile isNameChar, isNameChar x = true :=
      fun x hx => List.mem_takeWhile_imp hx
    have htail : headIs isNameChar (tail.1 ++ b) = false := headIs_nameSegments_append _ hb
    have hsplit : ('\\' :: c :: rest.takeWhile isNameChar ++ tail.1) ++ b =
        '\\' :: c :: (rest.takeWhile isNameChar ++ (tail.1 ++ b)) := by simp
    rw [hsplit, nameSegments, if_pos hc, takeWhile_append_stop hword htail,
      dropWhile_append_stop hword htail, ih]
  | case2 => simpa using hn
  | case3 => simpa using hn

theorem nameSegments_swap {cs b : List Char} (hcs : headIs isNameChar cs = false)
    (h : Alike strict inWord (nameSegments cs).2 b) :
    nameSegments ((nameSegments cs).1 ++ b) = ((nameSegments cs).1, b) :=
  nameSegments_append_stop (by rw [h.headIs_isNameChar]; exact headIs_nameSegments_rest hcs)
    (nameSegments_eq_nil_swap h (nameSegments_rest cs))

theorem numeralRun_swap {cs b : List Char} (hb : headIs isNumeral b = false) :
    numeralRun ((numeralRun cs).1 ++ b) = ((numeralRun cs).1, b) := by
  simp [numeralRun, takeWhile_swap hb, dropWhile_swap hb]

theorem fraction_swap {cs b : List Char} (h : Alike strict inWord (fraction cs).2 b)
    (hb : headIs isNumeral b = false) : fraction ((fraction cs).1 ++ b) = ((fraction cs).1, b) := by
  unfold fraction at h ⊢
  split at h
  · rename_i rest
    split at h
    · rename_i hd
      have hdigit : headIs Char.isDigit ((numeralRun rest).1 ++ b) = true := by
        cases rest with
        | nil => simp [headIs] at hd
        | cons c more =>
          have hc : c.isDigit = true := hd
          have : isNumeral c = true := by simp [isNumeral, Char.isAlphanum, hc]
          simp [numeralRun, this, headIs, hc]
      simp [hd, hdigit, numeralRun_swap hb]
    · rename_i hd
      obtain ⟨b', rfl, h'⟩ := h.cons (x := '.') (by decide)
      have := h'.headIs_isDigit
      simp_all
  · rename_i hne
    simp only [List.nil_append]
    split
    · rename_i rest
      obtain ⟨a', rfl, _⟩ := h.of_cons (x := '.') (by decide)
      exact absurd rfl (hne a')
    · rfl

theorem exponent_swap {mantissa cs b : List Char}
    (h : Alike strict inWord (exponent mantissa cs).2 b) (hb : headIs isNumeral b = false) :
    exponent mantissa ((exponent mantissa cs).1 ++ b) = ((exponent mantissa cs).1, b) := by
  cases cs with
  | nil => cases h; rfl
  | cons sign rest =>
    simp only [exponent] at h ⊢
    split at h
    · rename_i hs
      have hdigit : headIs Char.isDigit ((numeralRun rest).1 ++ b) = true := by
        simp only [Bool.and_eq_true] at hs
        cases rest with
        | nil => simp [headIs] at hs
        | cons c more =>
          have hc : c.isDigit = true := hs.2
          have : isNumeral c = true := by simp [isNumeral, Char.isAlphanum, hc]
          simp [numeralRun, this, headIs, hc]
      simp only [Bool.and_eq_true] at hs
      simp [hs, hdigit, numeralRun_swap hb]
    · rename_i hs
      simp only [if_neg hs, List.nil_append]
      cases b with
      | nil => rfl
      | cons d more =>
        have hd : ¬ ((mantissa.getLast? == some 'e' || mantissa.getLast? == some 'E') &&
            (d == '+' || d == '-') && headIs Char.isDigit more) = true := by
          intro hd
          simp only [Bool.and_eq_true] at hd
          have hmark : isMark d = true := by
            simp only [Bool.or_eq_true, beq_iff_eq] at hd
            rcases hd.1.2 with rfl | rfl <;> decide
          obtain ⟨a', he, h'⟩ := h.of_cons hmark
          simp only [List.cons.injEq] at he
          obtain ⟨rfl, rfl⟩ := he
          apply hs
          simp only [Bool.and_eq_true]
          exact ⟨hd.1, h'.headIs_isDigit ▸ hd.2⟩
        simp [hd]

theorem headIs_fraction_rest {cs : List Char} (h : headIs isNumeral cs = false) :
    headIs isNumeral (fraction cs).2 = false := by
  unfold fraction
  split
  · split
    · exact headIs_dropWhile _ _
    · rfl
  · exact h

theorem headIs_exponent_rest (mantissa : List Char) {cs : List Char}
    (h : headIs isNumeral cs = false) : headIs isNumeral (exponent mantissa cs).2 = false := by
  unfold exponent
  split
  · split
    · exact headIs_dropWhile _ _
    · exact h
  · rfl

theorem headIs_number_rest (cs : List Char) : headIs isNumeral (number cs).2 = false :=
  headIs_exponent_rest _ (headIs_fraction_rest (headIs_dropWhile _ _))

/-- An exponent begins with its sign, so no numeral stands in front of it. -/
theorem headIs_exponent_append (mantissa cs : List Char) {b : List Char}
    (hb : headIs isNumeral b = false) : headIs isNumeral ((exponent mantissa cs).1 ++ b) = false := by
  cases cs with
  | nil => exact hb
  | cons sign rest =>
    simp only [exponent]
    split
    · rename_i hs
      simp only [Bool.and_eq_true, Bool.or_eq_true, beq_iff_eq] at hs
      rcases hs.1.2 with rfl | rfl <;> rfl
    · exact hb

theorem number_swap {cs b : List Char} (h : Alike strict inWord (number cs).2 b) :
    number ((number cs).1 ++ b) = ((number cs).1, b) := by
  have hb : headIs isNumeral b = false := h.headIs_isNumeral (headIs_number_rest cs)
  have hwhole := numeralRun_append cs
  have hpart := fraction_append (numeralRun cs).2
  have hpower := exponent_append ((numeralRun cs).1 ++ (fraction (numeralRun cs).2).1)
    (fraction (numeralRun cs).2).2
  have hany := h.anywhere (headIs_number_rest cs)
  have hrun : headIs isNumeral (numeralRun cs).2 = false := headIs_dropWhile _ _
  have hall : ∀ c ∈ (numeralRun cs).1, isNumeral c = true := fun _ hc => List.mem_takeWhile_imp hc
  simp only [number] at hany ⊢
  generalize (numeralRun cs).1 = whole at *
  generalize (numeralRun cs).2 = rest at *
  -- Part by part: each is followed by the beginning of the next, and the last by `b`.
  have hfraction : Alike strict false (fraction rest).2
      ((exponent (whole ++ (fraction rest).1) (fraction rest).2).1 ++ b) := by
    have hpart : Alike strict false _ _ :=
      Alike.append (exponent (whole ++ (fraction rest).1) (fraction rest).2).1 hany
    rwa [hpower] at hpart
  have hrest : Alike strict false rest ((fraction rest).1 ++
      ((exponent (whole ++ (fraction rest).1) (fraction rest).2).1 ++ b)) := by
    have happend : Alike strict false _ _ :=
      Alike.append (fraction rest).1 (hfraction.anywhere (headIs_fraction_rest hrun))
    rwa [hpart] at happend
  have hstart := hrest.headIs_isNumeral hrun
  have hmiddle := headIs_exponent_append (whole ++ (fraction rest).1) (fraction rest).2 hb
  have h1 : numeralRun (whole ++ (fraction rest).1 ++
      (exponent (whole ++ (fraction rest).1) (fraction rest).2).1 ++ b) =
        (whole, (fraction rest).1 ++
          ((exponent (whole ++ (fraction rest).1) (fraction rest).2).1 ++ b)) := by
    simp only [numeralRun, List.append_assoc]
    rw [takeWhile_append_stop hall hstart, dropWhile_append_stop hall hstart]
  have h2 := fraction_swap hfraction hmiddle
  have h3 := exponent_swap (hany false) hb
  rw [h1]
  simp only [h2, h3]

/-! ### Comments and tags -/

theorem lineComment_swap {cs b : List Char} (h : Alike strict inWord (lineComment cs).2 b) :
    lineComment ((lineComment cs).1 ++ b) = ((lineComment cs).1, b) := by
  fun_induction lineComment cs with
  | case1 => cases h; rfl
  | case2 rest =>
    obtain ⟨b', rfl, _⟩ := h.cons (x := '\n') (by decide)
    rfl
  | case3 rest =>
    obtain ⟨b', rfl, h'⟩ := h.cons (x := '?') (by decide)
    obtain ⟨b'', rfl, _⟩ := h'.cons (x := '>') (by decide)
    rfl
  | case4 c rest hline htag ih =>
    have hend : c = '?' → headIs (· == '>') ((lineComment rest).1 ++ b) = false := by
      rintro rfl
      apply headIs_swap h (by decide)
      rw [lineComment_append]
      cases rest with
      | nil => rfl
      | cons d more =>
        have hd : d ≠ '>' := fun hd => htag more rfl (by rw [hd])
        simpa [headIs] using hd
    rw [List.cons_append, lineComment, ih h]
    · exact fun hc => hline (by rw [hc])
    · intro more hc hmore
      have := hend hc
      rw [hmore] at this
      simp [headIs] at this

theorem throughCommentEnd_ne_nil {cs : List Char} {cut : List Char × List Char}
    (h : throughCommentEnd cs = some cut) : cut.1 ≠ [] := by
  unfold throughCommentEnd at h
  split at h
  · simp at h
  · simp only [Option.some.injEq] at h
    simp [← h]
  · obtain ⟨cut, _, rfl⟩ := Option.map_eq_some_iff.1 h
    simp

theorem throughCommentEnd_swap {cs : List Char} {cut : List Char × List Char}
    (h : throughCommentEnd cs = some cut) (b : List Char) :
    throughCommentEnd (cut.1 ++ b) = some (cut.1, b) := by
  fun_induction throughCommentEnd cs generalizing cut with
  | case1 => simp at h
  | case2 rest => simp only [Option.some.injEq] at h; subst h; rfl
  | case3 c rest hend ih =>
    obtain ⟨cut, hc, rfl⟩ := Option.map_eq_some_iff.1 h
    have hne : ∀ more, c = '*' → cut.1 ++ b = '/' :: more → False := by
      intro more hstar hmore
      have hrest := throughCommentEnd_append hc
      have hne := throughCommentEnd_ne_nil hc
      obtain ⟨d, tail, hcut⟩ := List.exists_cons_of_ne_nil hne
      rw [hcut, List.cons_append, List.cons.injEq] at hmore
      rw [hcut, hmore.1] at hrest
      exact hend _ hstar hrest.symm
    rw [List.cons_append, throughCommentEnd]
    · simp [ih hc]
    · exact hne

theorem lineEnd_eq_none_swap {a b : List Char} (h : Alike strict inWord a b)
    (ha : lineEnd a = none) : lineEnd b = none := by
  unfold lineEnd
  split
  · rename_i rest
    obtain ⟨a', rfl, h'⟩ := h.of_cons (x := '\r') (by decide)
    obtain ⟨a'', rfl, _⟩ := h'.of_cons (x := '\n') (by decide)
    simp [lineEnd] at ha
  · rename_i rest
    obtain ⟨a', rfl, _⟩ := h.of_cons (x := '\n') (by decide)
    simp [lineEnd] at ha
  · rfl

theorem lineEnd_swap {cs : List Char} {cut : List Char × List Char} (h : lineEnd cs = some cut)
    (b : List Char) : lineEnd (cut.1 ++ b) = some (cut.1, b) := by
  unfold lineEnd at h
  split at h <;> simp only [Option.some.injEq, reduceCtorEq] at h <;> subst h <;> rfl

theorem closeTag_swap {rest b : List Char} (h : Alike strict inWord (closeTag rest).2 b) :
    ∃ more, (closeTag rest).1 = '?' :: '>' :: more ∧
      closeTag (more ++ b) = ((closeTag rest).1, b) := by
  unfold closeTag at h ⊢
  cases hl : lineEnd rest with
  | some cut => exact ⟨cut.1, rfl, by simp [lineEnd_swap hl]⟩
  | none =>
    rw [hl] at h
    exact ⟨[], rfl, by simp [lineEnd_eq_none_swap h hl]⟩

/-- The tag that opens code looks one character ahead: a line feed belongs to a carriage return. -/
theorem openTag_swap {cs b : List Char} {cut : List Char × List Char} (h : openTag cs = some cut)
    (hb : Alike strict inWord cut.2 b) : openTag (cut.1 ++ b) = some (cut.1, b) := by
  unfold openTag at h
  repeat' split at h
  all_goals simp only [Option.some.injEq, reduceCtorEq] at h
  all_goals subst h
  · rfl
  · rename_i hs _
    cases hb
    simp [openTag, hs]
  · rename_i hs _ more
    simp [openTag, hs]
  · rename_i p h q _ _ hs _ c more hcr hblank
    have hnl : ∀ rest, c = '\r' → b ≠ '\n' :: rest := by
      rintro rest hc rfl
      obtain ⟨a', rfl, _⟩ := hb.of_cons (x := '\n') (by decide)
      exact hcr a' hc rfl
    simp only [List.cons_append, List.nil_append]
    rw [openTag, if_pos hs]
    case x_2 => exact fun more hc => hnl more hc
    all_goals simp_all

/-- What is not a letter is spelled in one way. -/
theorem eq_of_toLower {c x : Char} (h : c.toLower = x) (hx : x.toNat < 97) : c = x := by
  unfold Char.toLower at h
  split at h
  · rename_i hc
    have hlow : 97 ≤ x.toNat := by
      rw [← h]
      show 97 ≤ (c.val + 32).toNat
      have h1 : 65 ≤ c.toNat := hc.1
      have h2 : c.toNat ≤ 90 := hc.2
      rw [UInt32.toNat_add, Nat.mod_eq_of_lt (by simp; omega)]
      simp; omega
    omega
  · exact h

theorem spells_openTag {word : List Char} (h : spells "<?php" word = true) :
    ∃ p q r, word = ['<', '?', p, q, r] := by
  simp only [spells, beq_iff_eq] at h
  have hlength : word.length = 5 := by simpa using congrArg List.length h
  match word, hlength with
  | [a, b, p, q, r], _ =>
    have ha : a.toLower = '<' ∧ b.toLower = '?' := by
      have : [a, b, p, q, r].map Char.toLower = ['<', '?', 'p', 'h', 'p'] := h
      simp at this
      exact ⟨this.1, this.2.1⟩
    exact ⟨p, q, r, by rw [eq_of_toLower ha.1 (by decide), eq_of_toLower ha.2 (by decide)]⟩

/-- A tag that opens code is in front of the text. -/
def tagAhead (cs : List Char) : Bool :=
  cs.take 3 == ['<', '?', '='] ||
    (spells "<?php" (cs.take 5) && ((cs.drop 5).isEmpty || headIs isBlank (cs.drop 5)))

theorem isSome_openTag (cs : List Char) : (openTag cs).isSome = tagAhead cs := by
  unfold openTag
  split
  · simp [tagAhead]
  · rename_i p h q rest hp
    have hequal : (p == '=') = false := by simpa using hp
    have hword : spells "<?php" ['<', '?', p, h, q] = spells "php" [p, h, q] := by
      simp [spells]
    have hahead : tagAhead ('<' :: '?' :: p :: h :: q :: rest) =
        (spells "php" [p, h, q] && (rest.isEmpty || headIs isBlank rest)) := by
      simp [tagAhead, hequal, hword]
    rw [hahead]
    cases spells "php" [p, h, q] with
    | false => simp
    | true =>
      cases rest with
      | nil => rfl
      | cons c more =>
        simp only [if_true, List.isEmpty_cons, Bool.false_or, headIs, Bool.true_and]
        split
        · rename_i heq; cases heq
        · rename_i heq; cases heq; rfl
        · rename_i heq
          cases heq
          cases isBlank c <;> rfl
  · rename_i h3 h5
    cases h : tagAhead cs with
    | false => rfl
    | true =>
      exfalso
      simp only [tagAhead, Bool.or_eq_true, beq_iff_eq, Bool.and_eq_true] at h
      rcases h with h | h
      · apply h3 (cs.drop 3)
        have := List.take_append_drop 3 cs
        rw [h] at this
        exact this.symm
      · obtain ⟨p, q, r, hp⟩ := spells_openTag h.1
        apply h5 p q r (cs.drop 5)
        have := List.take_append_drop 5 cs
        rw [hp] at this
        exact this.symm

/-- Both texts are at their end, or the same tag opens code in them. -/
def Tagged (a b : List Char) : Prop :=
  (a = [] ∧ b = []) ∨ ∃ o a' b', openTag a = some (o, a') ∧ openTag b = some (o, b')

theorem openTag_shape {cs : List Char} {cut : List Char × List Char} (h : openTag cs = some cut) :
    ∃ more, cut.1 = '<' :: '?' :: more := by
  unfold openTag at h
  repeat' split at h
  all_goals simp only [Option.some.injEq, reduceCtorEq] at h
  all_goals subst h
  all_goals exact ⟨_, rfl⟩

/-- Text in front of a tag does not make a tag together with the beginning of that tag. -/
theorem openTag_append_isSome {u a b : List Char} (hu : u ≠ []) (h : Tagged a b) :
    (openTag (u ++ b)).isSome = (openTag (u ++ a)).isSome := by
  rcases h with ⟨rfl, rfl⟩ | ⟨o, a', b', ha, hb⟩
  · rfl
  · obtain ⟨more, rfl⟩ : ∃ more, o = '<' :: '?' :: more := openTag_shape ha
    obtain rfl := openTag_append ha
    obtain rfl := openTag_append hb
    rw [isSome_openTag, isSome_openTag]
    match u, hu with
    | [c1], _ => simp [tagAhead, spells]
    | [c1, c2], _ => simp [tagAhead, spells]
    | [c1, c2, c3], _ => simp [tagAhead, spells]
    | [c1, c2, c3, c4], _ => simp [tagAhead, spells]
    | [c1, c2, c3, c4, c5], _ => simp [tagAhead, headIs, isBlank]
    | c1 :: c2 :: c3 :: c4 :: c5 :: c6 :: u, _ => simp [tagAhead, headIs]

theorem Tagged.isSome_openTag {a b : List Char} (h : Tagged a b) (hb : b ≠ []) :
    (openTag b).isSome = true := by
  rcases h with ⟨-, rfl⟩ | ⟨o, a', b', -, ho⟩
  · exact absurd rfl hb
  · rw [ho]
    rfl

/-- Text outside code ends at its end or in front of a tag. -/
theorem inlineText_rest (cs : List Char) :
    (inlineText cs).2 = [] ∨ (openTag (inlineText cs).2).isSome = true := by
  fun_induction inlineText cs with
  | case1 => exact .inl rfl
  | case2 c rest h => exact .inr h
  | case3 c rest h ih => exact ih

theorem inlineText_swap {cs b : List Char} (h : Tagged (inlineText cs).2 b) :
    inlineText ((inlineText cs).1 ++ b) = ((inlineText cs).1, b) := by
  fun_induction inlineText cs with
  | case1 =>
    rcases h with ⟨-, rfl⟩ | ⟨o, a', b', ho, -⟩
    · rfl
    · cases ho
  | case2 c rest hc =>
    cases b with
    | nil => rfl
    | cons d more => simp [inlineText, h.isSome_openTag]
  | case3 c rest hc ih =>
    have hnone : (openTag (c :: (inlineText rest).1 ++ b)).isSome = false := by
      rw [openTag_append_isSome (by simp) h, List.cons_append, inlineText_append]
      simpa using hc
    rw [List.cons_append] at hnone ⊢
    simp [inlineText, hnone, ih h]

end PluginShading.Source
