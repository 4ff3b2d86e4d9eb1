import PluginShading.Proofs.Source.Reading

/-!
Lexemes in front of less text.

If a recogniser divides a text into `t` and `a`, it divides `t ++ b` into `t` and `b` for a beginning `b` of `a`
(the `_cut` lemmas): what is not ahead in `a` is not ahead in `b`. Where a recogniser stops because of what is ahead,
that must be ahead in `b` as well: the mark of an interpolation, or the tag that ends a comment on its line. The word
`enum` is the one token whose kind may change, from a keyword to a name where only blanks are left (`readCode_cut`).
-/
namespace PluginShading.Source

variable {a b : List Char}

/-! ### What is ahead -/

/-- A lexeme in front of the beginning of what it leaves is the beginning of the text. -/
theorem front_cut {u cs : List Char} (hcs : u ++ a = cs) (h : b <+: a) : u ++ b <+: cs :=
  hcs ▸ (List.prefix_append_right_inj u).2 h

theorem headIs_cut {p : Char → Bool} (h : b <+: a) (ha : headIs p a = false) : headIs p b = false := by
  obtain ⟨z, rfl⟩ := h
  cases b with
  | nil => rfl
  | cons c rest => exact ha

theorem opener_cut (h : b <+: a) (ha : (opener a).isSome = false) : (opener b).isSome = false := by
  obtain ⟨z, rfl⟩ := h
  cases b with
  | nil => rfl
  | cons c rest =>
    rw [List.cons_append, isSome_opener_cons] at ha
    rw [isSome_opener_cons]
    simp only [Bool.or_eq_false_iff, Bool.and_eq_false_iff] at ha ⊢
    exact ⟨ha.1.imp_right (headIs_cut (List.prefix_append rest z)),
      ha.2.imp_right (headIs_cut (List.prefix_append rest z))⟩

/-! ### Names and numbers -/

theorem nameSegments_eq_nil_cut (h : b <+: a) (ha : nameSegments a = ([], a)) : nameSegments b = ([], b) := by
  unfold nameSegments
  split
  · rename_i c rest
    obtain ⟨z, rfl⟩ := h
    have hc : ¬ isNameStart c = true := by
      intro hc
      simp [nameSegments, hc] at ha
    rw [if_neg hc]
  · rfl

theorem nameSegments_cut {cs : List Char} (hcs : headIs isNameChar cs = false) (h : b <+: (nameSegments cs).2) :
    nameSegments ((nameSegments cs).1 ++ b) = ((nameSegments cs).1, b) :=
  nameSegments_append_stop (headIs_cut h (headIs_nameSegments_rest hcs))
    (nameSegments_eq_nil_cut h (nameSegments_rest cs))

theorem headIs_numeralRun {rest : List Char} (h : headIs Char.isDigit rest = true) (b : List Char) :
    headIs Char.isDigit ((numeralRun rest).1 ++ b) = true := by
  cases rest with
  | nil => cases h
  | cons c more =>
    have hc : c.isDigit = true := h
    have hn : isNumeral c = true := by simp [isNumeral, Char.isAlphanum, hc]
    simp [numeralRun, hn, headIs, hc]

theorem fraction_cut {cs : List Char} (hcs : headIs isNumeral cs = false) (h : b <+: (fraction cs).2) :
    fraction ((fraction cs).1 ++ b) = ((fraction cs).1, b) := by
  have hb := headIs_cut h (headIs_fraction_rest hcs)
  unfold fraction at h ⊢
  split at h
  · rename_i rest
    split at h
    · rename_i hd
      simp [hd, headIs_numeralRun hd, numeralRun_swap hb]
    · rename_i hd
      rw [if_neg hd, List.nil_append]
      obtain ⟨z, hz⟩ := h
      cases b with
      | nil => rfl
      | cons c more =>
        obtain ⟨rfl, rfl⟩ := List.cons.inj hz
        have hmore : headIs Char.isDigit more = false :=
          headIs_cut (List.prefix_append more z) (Bool.not_eq_true _ ▸ hd)
        simp [hmore]
  · rename_i hne
    rw [List.nil_append]
    obtain ⟨z, rfl⟩ := h
    split
    · exact absurd rfl (hne _)
    · rfl

theorem exponent_cut {mantissa cs : List Char} (hcs : headIs isNumeral cs = false)
    (h : b <+: (exponent mantissa cs).2) :
    exponent mantissa ((exponent mantissa cs).1 ++ b) = ((exponent mantissa cs).1, b) := by
  have hb := headIs_cut h (headIs_exponent_rest mantissa hcs)
  cases cs with
  | nil =>
    obtain rfl := List.prefix_nil.1 h
    rfl
  | cons sign rest =>
    simp only [exponent] at h ⊢
    split at h
    · rename_i hs
      rw [if_pos hs]
      simp only [Bool.and_eq_true] at hs
      simp [hs, headIs_numeralRun hs.2, numeralRun_swap hb]
    · rename_i hs
      rw [if_neg hs, List.nil_append]
      obtain ⟨z, hz⟩ := h
      cases b with
      | nil => rfl
      | cons d more =>
        obtain ⟨rfl, rfl⟩ := List.cons.inj hz
        rw [Bool.not_eq_true, Bool.and_eq_false_iff] at hs
        have hs' : ((mantissa.getLast? == some 'e' || mantissa.getLast? == some 'E') &&
            (d == '+' || d == '-') && headIs Char.isDigit more) = false :=
          Bool.and_eq_false_iff.2 (hs.imp_right (headIs_cut (List.prefix_append more z)))
        simp [hs']

/-- Part by part: each is followed by the beginning of the next, and the last by `b`. -/
theorem number_cut {cs : List Char} (h : b <+: (number cs).2) : number ((number cs).1 ++ b) = ((number cs).1, b) := by
  have hall : ∀ c ∈ (numeralRun cs).1, isNumeral c = true := fun _ hc => List.mem_takeWhile_imp hc
  have hrun : headIs isNumeral (numeralRun cs).2 = false := headIs_dropWhile _ _
  simp only [number] at h ⊢
  generalize (numeralRun cs).1 = whole at *
  generalize (numeralRun cs).2 = rest at *
  have hpart := headIs_fraction_rest hrun
  have hpower : (exponent (whole ++ (fraction rest).1) (fraction rest).2).1 ++ b <+: (fraction rest).2 :=
    front_cut (exponent_append _ _) h
  have hfraction : (fraction rest).1 ++ ((exponent (whole ++ (fraction rest).1) (fraction rest).2).1 ++ b) <+: rest :=
    front_cut (fraction_append _) hpower
  have hstop := headIs_cut hfraction hrun
  have hnumeral : numeralRun (whole ++ (fraction rest).1 ++
      (exponent (whole ++ (fraction rest).1) (fraction rest).2).1 ++ b) =
        (whole, (fraction rest).1 ++ ((exponent (whole ++ (fraction rest).1) (fraction rest).2).1 ++ b)) := by
    simp only [numeralRun, List.append_assoc]
    rw [takeWhile_append_stop hall hstop, dropWhile_append_stop hall hstop]
  have h2 := fraction_cut hrun hpower
  have h3 := exponent_cut hpart h
  rw [hnumeral]
  simp only [h2, h3]

/-! ### Comments and tags -/

/-- A comment that a closing tag ends needs the tag behind it. -/
theorem lineComment_cut {cs : List Char} (h : b <+: (lineComment cs).2)
    (hclose : b ≠ [] → ['?', '>'] <+: (lineComment cs).2 → ['?', '>'] <+: b) :
    lineComment ((lineComment cs).1 ++ b) = ((lineComment cs).1, b) := by
  fun_induction lineComment cs with
  | case1 =>
    obtain rfl := List.prefix_nil.1 h
    rfl
  | case2 rest =>
    obtain ⟨z, hz⟩ := h
    cases b with
    | nil => rfl
    | cons c more =>
      obtain ⟨rfl, -⟩ := List.cons.inj hz
      rfl
  | case3 rest =>
    cases b with
    | nil => rfl
    | cons c more =>
      obtain ⟨tail, htail⟩ := hclose (List.cons_ne_nil _ _) ⟨rest, rfl⟩
      rw [← htail]
      rfl
  | case4 c rest hline htag ih =>
    have hrest : (lineComment rest).1 ++ b <+: rest := front_cut (lineComment_append _) h
    rw [List.cons_append, lineComment, ih h hclose]
    · exact fun hc => hline (by rw [hc])
    · intro more hc hmore
      obtain ⟨z, hz⟩ := hrest
      rw [hmore, List.cons_append] at hz
      exact htag (more ++ z) hc hz.symm

theorem lineEnd_eq_none_cut (h : b <+: a) (ha : lineEnd a = none) : lineEnd b = none := by
  unfold lineEnd
  obtain ⟨z, rfl⟩ := h
  split
  · cases ha
  · cases ha
  · rfl

theorem closeTag_cut {rest : List Char} (h : b <+: (closeTag rest).2) :
    ∃ more, (closeTag rest).1 = '?' :: '>' :: more ∧ closeTag (more ++ b) = ((closeTag rest).1, b) := by
  unfold closeTag at h ⊢
  cases hl : lineEnd rest with
  | some cut => exact ⟨cut.1, rfl, by simp [lineEnd_swap hl]⟩
  | none =>
    rw [hl] at h
    exact ⟨[], rfl, by simp [lineEnd_eq_none_cut h hl]⟩

theorem openTag_cut {cs : List Char} {cut : List Char × List Char} (h : openTag cs = some cut) (hb : b <+: cut.2) :
    openTag (cut.1 ++ b) = some (cut.1, b) := by
  unfold openTag at h
  repeat' split at h
  all_goals simp only [Option.some.injEq, reduceCtorEq] at h
  all_goals subst h
  · rfl
  · rename_i hs _
    obtain rfl := List.prefix_nil.1 hb
    simp [openTag, hs]
  · rename_i hs _ more
    simp [openTag, hs]
  · rename_i p h q _ _ hs _ c more hcr hblank
    have hnl : ∀ rest, c = '\r' → b ≠ '\n' :: rest := by
      rintro rest hc rfl
      obtain ⟨z, rfl⟩ := hb
      exact hcr _ hc rfl
    simp only [List.cons_append, List.nil_append]
    rw [openTag, if_pos hs]
    case x_2 => exact fun more hc => hnl more hc
    all_goals simp_all

/-! ### Literals -/

/-- The beginning of a text may stand in its place, with the interpolation in it that ends the stretch. -/
theorem inPlace_cut {closed : Bool} (h : b <+: a) (ho : closed = false → (opener b).isSome = true) :
    InPlace closed a b where
  opens hc _ := ho hc
  plain c u := opener_cut (front_cut (u := c :: u) rfl h)
  word := headIs_cut h
  mark := fun {u x more} hu _ ha => by
    obtain ⟨z, rfl⟩ := h
    cases hub : u ++ b with
    | nil =>
      obtain ⟨rfl, rfl⟩ := List.append_eq_nil_iff.1 hub
      cases ho (hu rfl)
    | cons c rest =>
      rw [← List.append_assoc, hub, List.cons_append, List.cons.injEq] at ha
      exact ⟨rest, by rw [ha.1]⟩

/-- A stretch that an interpolation ends needs the interpolation behind it. -/
theorem quotedStretch_cut {quote : Char} {cs : List Char} {s : Stretch} (hq : isQuote quote = true)
    (h : quotedStretch quote cs = some s) (hb : b <+: s.rest) (ho : s.closed = false → (opener b).isSome = true) :
    quotedStretch quote (s.text ++ b) = some {s with rest := b} :=
  quotedStretch_inPlace hq h (inPlace_cut hb ho)

theorem heredocStretch_cut {label : List Char} {verbatim fresh : Bool} {cs : List Char} {s : Stretch}
    (hl : IsLabel label) (h : heredocStretch label verbatim fresh cs = some s) (hb : b <+: s.rest)
    (ho : s.closed = false → (opener b).isSome = true) :
    heredocStretch label verbatim fresh (s.text ++ b) = some {s with rest := b} :=
  heredocStretch_inPlace hl h (inPlace_cut hb ho)

/-! ### Marks and words -/

theorem readMark_cut {c : Char} {rest rest' : List Char} (hb : b <+: (readMark c rest).rest)
    (hrest : c :: rest' = (readMark c rest).token.text ++ b) : readMark c rest' = {readMark c rest with rest := b} := by
  have hshorter : c :: rest' <+: c :: rest := hrest ▸ front_cut (readMark_append _ _) hb
  have hnew : ∀ op : List Char, ¬ op.isPrefixOf (c :: rest) = true → ¬ op.isPrefixOf (c :: rest') = true := by
    intro op hno hyes
    exact hno (List.isPrefixOf_iff_prefix.2 ((List.isPrefixOf_iff_prefix.1 hyes).trans hshorter))
  unfold readMark at hrest ⊢
  cases hf : operators.find? (·.isPrefixOf (c :: rest)) with
  | none =>
    rw [hf] at hrest
    have hnone : operators.find? (·.isPrefixOf (c :: rest')) = none := by
      rw [List.find?_eq_none] at hf ⊢
      exact fun op hop => hnew op (hf op hop)
    obtain rfl : rest' = b := (List.cons.inj hrest).2
    rw [hnone]
    rfl
  | some op =>
    rw [hf] at hrest
    have hrest : c :: rest' = op ++ b := hrest
    have hsome : operators.find? (·.isPrefixOf (c :: rest')) = some op := by
      rw [List.find?_eq_some_iff_append] at hf ⊢
      obtain ⟨-, front, back, hall, hfront⟩ := hf
      refine ⟨by simp [hrest], front, back, hall, fun o ho => ?_⟩
      rw [Bool.not_eq_true', ← Bool.not_eq_true]
      refine hnew o ?_
      rw [Bool.not_eq_true, ← Bool.not_eq_true']
      exact hfront o ho
    rw [hsome]
    simp only [hrest, List.drop_left]
    rfl

/-- The word `enum` asks for the same behind it, or only blanks are left. -/
def EnumCut (a b : List Char) : Prop := enumDeclares b = enumDeclares a ∨ ∀ c ∈ b, isBlank c = true

theorem enumDeclares_of_blanks (h : ∀ c ∈ b, isBlank c = true) : enumDeclares b = false := by
  have hdrop : b.dropWhile isBlank = [] := List.dropWhile_eq_nil_iff.2 h
  simp [enumDeclares, hdrop, headIs]

theorem wordKind_cut (last : Option Token) (word segments : List Char)
    (h : wordKind last word segments a ∈ [.identifier, .keyword .enumWord] → EnumCut a b) :
    wordKind last word segments b = wordKind last word segments a ∨
      wordKind last word segments a = .keyword .enumWord ∧ wordKind last word segments b = .identifier ∧
        ∀ c ∈ b, isBlank c = true := by
  unfold wordKind
  split
  · exact .inl rfl
  rename_i hsegments
  split
  · exact .inl rfl
  rename_i hmember
  split
  · rename_i henum
    have hcut : EnumCut a b := by
      apply h
      unfold wordKind
      rw [if_neg hsegments, if_neg hmember, if_pos henum]
      split <;> simp
    rcases hcut with heq | hblank
    · rw [heq]
      exact .inl rfl
    · rw [enumDeclares_of_blanks hblank]
      cases enumDeclares a with
      | true => exact .inr ⟨rfl, rfl, hblank⟩
      | false => exact .inl rfl
  · exact .inl rfl

/-- The reading of the same text in front of `b`. -/
def Reading.Cut (b : List Char) (r r' : Reading) : Prop :=
  r' = {r with rest := b} ∨ r.token.kind = .keyword .enumWord ∧ (∀ c ∈ b, isBlank c = true) ∧
    r' = {r with token := ⟨.identifier, r.token.text⟩, rest := b}

theorem readWord_cut {last : Option Token} {cs : List Char} (hb : b <+: (readWord last cs).rest)
    (he : (readWord last cs).token.kind ∈ [.identifier, .keyword .enumWord] → EnumCut (readWord last cs).rest b) :
    Reading.Cut b (readWord last cs) (readWord last ((readWord last cs).token.text ++ b)) := by
  simp only [readWord, Reading.plain] at hb he ⊢
  have hword : ∀ x ∈ cs.takeWhile isNameChar, isNameChar x = true := fun x hx => List.mem_takeWhile_imp hx
  have hstop := headIs_dropWhile isNameChar cs
  generalize cs.takeWhile isNameChar = word at *
  generalize cs.dropWhile isNameChar = after at *
  have hend : headIs isNameChar b = false := headIs_cut hb (headIs_nameSegments_rest hstop)
  have hstop' := headIs_nameSegments_append after hend
  rw [List.append_assoc, takeWhile_append_stop hword hstop', dropWhile_append_stop hword hstop',
    nameSegments_cut hstop hb]
  rcases wordKind_cut last word (nameSegments after).1 he with hk | ⟨hk, hk', hblank⟩
  · exact .inl (by simp only [hk])
  · exact .inr ⟨hk, hblank, by simp only [hk']⟩

/-! ### One token of code -/

/-- What a reading needs of the text behind it, if that is cut down to `b`. -/
structure Reading.Cuttable (r : Reading) (b : List Char) : Prop where
  front : b <+: r.rest
  opens : r.opens ≠ none → (opener b).isSome = true
  comment : r.token.kind = .comment → b ≠ [] → ['?', '>'] <+: r.rest → ['?', '>'] <+: b
  enum : r.token.kind ∈ [.identifier, .keyword .enumWord] → EnumCut r.rest b

theorem headIs_takeWhile_append {p q : Char → Bool} (hpq : ∀ c, p c = true → q c = true) {rest : List Char}
    (h : headIs p rest = true) (b : List Char) : headIs p (rest.takeWhile q ++ b) = true := by
  cases rest with
  | nil => cases h
  | cons c more =>
    have hc : p c = true := h
    simp [hpq c hc, headIs, hc]

theorem headIs_of_nameSegments {rest rest' : List Char} (h : headIs isNameStart rest = true)
    (hrest : '\\' :: rest' = (nameSegments ('\\' :: rest)).1 ++ b) : headIs isNameStart rest' = true := by
  cases rest with
  | nil => cases h
  | cons c more =>
    have hc : isNameStart c = true := h
    rw [nameSegments, if_pos hc] at hrest
    simp only [List.cons_append, List.cons.injEq, true_and] at hrest
    rw [hrest]
    exact hc

theorem headIs_of_number {rest rest' : List Char} (h : headIs Char.isDigit rest = true)
    (hrest : '.' :: rest' = (number ('.' :: rest)).1 ++ b) : headIs Char.isDigit rest' = true := by
  have hnone : numeralRun ('.' :: rest) = ([], '.' :: rest) := rfl
  simp only [number, hnone, fraction, h, if_true, List.nil_append, List.cons_append, List.append_assoc,
    List.cons.injEq, true_and] at hrest
  rw [hrest]
  exact headIs_numeralRun h _

section Reading

variable {last : Option Token} {line : Nat} {c : Char} {rest rest' : List Char} {r : Reading}

theorem IsMarkAt.cut (h : IsMarkAt c rest) (hshorter : rest' <+: rest) : IsMarkAt c rest' where
  quote := h.quote
  sigil hc := headIs_cut hshorter (h.sigil hc)
  name := h.name
  digit := h.digit
  point hc := headIs_cut hshorter (h.point hc)

/-- A token that begins with no opening, in front of less text. -/
theorem PlainReading.cut (h : PlainReading last line c rest r) (hb : r.Cuttable b) (hshorter : rest' <+: rest)
    (hrest : c :: rest' = r.token.text ++ b) :
    ∃ r', PlainReading last line c rest' r' ∧ Reading.Cut b r r' := by
  cases h with
  | @quoted _ _ s hquote hs =>
    obtain rfl : rest' = s.text ++ b := (List.cons.inj hrest).2
    have hcut := quotedStretch_cut (isQuote_iff.2 hquote) hs hb.front fun hc =>
      hb.opens (by simp [Reading.literal, hc])
    exact ⟨_, .quoted hquote hcut, .inl rfl⟩
  | dollar hname =>
    obtain rfl : rest' = rest.takeWhile isNameChar ++ b := (List.cons.inj hrest).2
    have hend : headIs isNameChar b = false := headIs_cut hb.front (headIs_dropWhile isNameChar rest)
    refine ⟨_, .dollar (headIs_takeWhile_append (fun _ => isNameChar_of_isNameStart) hname b), ?_⟩
    rw [takeWhile_swap hend, dropWhile_swap hend]
    exact .inl rfl
  | separator hname =>
    have hrest : '\\' :: rest' = (nameSegments ('\\' :: rest)).1 ++ b := hrest
    have hstart : headIs isNameChar ('\\' :: rest) = false := rfl
    refine ⟨_, .separator (headIs_of_nameSegments hname hrest), ?_⟩
    rw [hrest, nameSegments_cut hstart hb.front]
    exact .inl rfl
  | word hname =>
    refine ⟨_, .word hname, ?_⟩
    rw [hrest]
    exact readWord_cut hb.front hb.enum
  | number hdigit =>
    have hrest : c :: rest' = (Source.number (c :: rest)).1 ++ b := hrest
    have hdigit' : c.isDigit = true ∨ c = '.' ∧ headIs Char.isDigit rest' = true := by
      refine hdigit.imp_right ?_
      rintro ⟨rfl, hpoint⟩
      exact ⟨rfl, headIs_of_number hpoint hrest⟩
    refine ⟨_, .number hdigit', ?_⟩
    rw [hrest, number_cut hb.front]
    exact .inl rfl
  | mark hmark => exact ⟨_, .mark (hmark.cut hshorter), .inl (readMark_cut hb.front hrest)⟩

/-- **The token of code in front of `b` is the one in front of what `b` is the beginning of.** -/
theorem readCode_cut (h : readCode last line c rest = .ok r) (hb : r.Cuttable b)
    (hrest : c :: rest' = r.token.text ++ b) :
    ∃ r', readCode last line c rest' = .ok r' ∧ Reading.Cut b r r' := by
  have hshorter : c :: rest' <+: c :: rest := hrest ▸ front_cut (readCode_append h) hb.front
  simp only [readCode_eq_ok_iff] at h ⊢
  cases h with
  | blanks hblank =>
    obtain rfl : rest' = rest.takeWhile isBlank ++ b := (List.cons.inj hrest).2
    have hend : headIs isBlank b = false := headIs_cut hb.front (headIs_dropWhile isBlank rest)
    refine ⟨_, .blanks hblank, ?_⟩
    rw [takeWhile_swap hend, dropWhile_swap hend]
    exact .inl rfl
  | attributes =>
    obtain rfl : rest' = '[' :: b := (List.cons.inj hrest).2
    exact ⟨_, .attributes, .inl rfl⟩
  | hashComment hattribute =>
    obtain rfl : rest' = (lineComment rest).1 ++ b := (List.cons.inj hrest).2
    refine ⟨_, .hashComment (headIs_cut (List.cons_prefix_cons.1 hshorter).2 hattribute), ?_⟩
    rw [lineComment_cut hb.front (hb.comment rfl)]
    exact .inl rfl
  | @slashComment rest =>
    obtain rfl : rest' = '/' :: ((lineComment rest).1 ++ b) := (List.cons.inj hrest).2
    refine ⟨_, .slashComment, ?_⟩
    rw [lineComment_cut hb.front (hb.comment rfl)]
    exact .inl rfl
  | @blockComment _ cut hcut =>
    obtain rfl : rest' = '*' :: (cut.1 ++ b) := (List.cons.inj hrest).2
    exact ⟨_, .blockComment (throughCommentEnd_swap hcut b), .inl rfl⟩
  | @closeTag rest =>
    obtain ⟨more, hmore, hcut⟩ := closeTag_cut hb.front
    have hrest : '?' :: rest' = (closeTag rest).1 ++ b := hrest
    rw [hmore] at hrest
    obtain rfl : rest' = '>' :: (more ++ b) := (List.cons.inj hrest).2
    refine ⟨_, .closeTag, ?_⟩
    rw [hcut]
    exact .inl rfl
  | @verbatim _ cut hcut =>
    obtain rfl : rest' = cut.1 ++ b := (List.cons.inj hrest).2
    exact ⟨_, .verbatim (throughQuote_swap hcut b), .inl rfl⟩
  | @heredoc _ header s hheader hs =>
    obtain ⟨more, hmore, hswap⟩ := heredocHeader_swap hheader (s.text ++ b)
    have hcut := heredocStretch_cut (heredocHeader_isLabel hheader) hs hb.front fun hc =>
      hb.opens (by simp [Reading.literal, hc])
    have hrest : '<' :: rest' = header.text ++ s.text ++ b := hrest
    rw [hmore, List.append_assoc] at hrest
    obtain rfl : rest' = '<' :: '<' :: (more ++ (s.text ++ b)) := (List.cons.inj hrest).2
    exact ⟨_, .heredoc hswap hcut, .inl rfl⟩
  | plain hblank hopening h =>
    obtain ⟨r', h', hcut⟩ := h.cut hb (List.cons_prefix_cons.1 hshorter).2 hrest
    exact ⟨r', .plain hblank (fun o ho hyes => hopening o ho (hyes.trans hshorter)) h', hcut⟩

end Reading

end PluginShading.Source
