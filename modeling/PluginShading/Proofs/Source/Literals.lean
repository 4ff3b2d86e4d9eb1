import PluginShading.Proofs.Source.Lexemes

/-!
The text of literals in front of a text that looks alike.

A stretch that closes its literal ends at the same place whatever follows; the closing label of a heredoc
asks for the end of a word behind it. A stretch that stops for an interpolation does so again, for the
mark that opens the interpolation is in front of both texts (`quotedStretch_swap`,
`heredocStretch_swap`). What a stretch asks of the text that stands in place of the one behind it is `InPlace`.
-/
namespace PluginShading.Source

variable {strict : Prop} {inWord : Bool}

theorem throughQuote_swap {cs : List Char} {cut : List Char × List Char}
    (h : throughQuote cs = some cut) (b : List Char) :
    throughQuote (cut.1 ++ b) = some (cut.1, b) := by
  fun_induction throughQuote cs generalizing cut with
  | case1 => simp at h
  | case2 rest => simp only [Option.some.injEq] at h; subst h; rfl
  | case3 c rest ih =>
    obtain ⟨cut, hc, rfl⟩ := Option.map_eq_some_iff.1 h
    simp [throughQuote, ih hc]
  | case4 c rest hquote hslash ih =>
    obtain ⟨cut, hc, rfl⟩ := Option.map_eq_some_iff.1 h
    have hne : ∀ d more, c = '\\' → cut.1 ++ b = d :: more → False := by
      intro d more hc' _
      cases rest with
      | nil => simp [throughQuote] at hc
      | cons d more => exact hslash d more hc' rfl
    rw [List.cons_append, throughQuote]
    · simp [ih hc]
    · exact hquote
    · exact hne

/-! ### Interpolations -/

theorem isSome_opener_cons (c : Char) (cs : List Char) :
    (opener (c :: cs)).isSome =
      (c == '{' && headIs (· == '$') cs || c == '$' && headIs (· == '{') cs) := by
  cases cs with
  | nil => simp [opener, headIs]
  | cons d more =>
    unfold opener
    split
    · rename_i h; cases h; rfl
    · rename_i h; cases h; rfl
    · rename_i h1 h2
      have hbrace : c = '{' → d ≠ '$' := fun hc hd => h1 more (by rw [hc, hd])
      have hdollar : c = '$' → d ≠ '{' := fun hc hd => h2 more (by rw [hc, hd])
      simpa [headIs] using And.intro hbrace hdollar

theorem opener_swap {cs b : List Char} {cut : List Char × List Char} (h : opener cs = some cut)
    (hb : Alike strict inWord cut.2 b) : opener (cut.1 ++ b) = some (cut.1, b) := by
  unfold opener at h
  split at h <;> simp only [Option.some.injEq, reduceCtorEq] at h <;> subst h
  · obtain ⟨b', rfl, _⟩ := hb.cons (x := '$') (by decide)
    rfl
  · rfl

/-- An interpolation in front of one is in front of the other. -/
theorem Alike.isSome_opener {a b : List Char} (h : Alike strict inWord a b)
    (ha : (opener a).isSome = true) : (opener b).isSome = true := by
  obtain ⟨cut, hcut⟩ := Option.isSome_iff_exists.1 ha
  have happend := opener_append hcut
  unfold opener at hcut
  split at hcut <;> simp only [Option.some.injEq, reduceCtorEq] at hcut <;> subst hcut
  · obtain ⟨b', rfl, h'⟩ := h.cons (x := '{') (by decide)
    obtain ⟨b'', rfl, _⟩ := h'.cons (x := '$') (by decide)
    rfl
  · obtain ⟨b', rfl, h'⟩ := h.cons (x := '$') (by decide)
    obtain ⟨b'', rfl, _⟩ := h'.cons (x := '{') (by decide)
    rfl

/-- Text that does not open an interpolation in front of `a` opens none in front of `b`. -/
theorem opener_append_eq {a b : List Char} (h : Alike strict inWord a b) (c : Char)
    (u : List Char) (ha : (opener (c :: (u ++ a))).isSome = false) :
    (opener (c :: (u ++ b))).isSome = false := by
  rw [isSome_opener_cons] at ha ⊢
  simp only [Bool.or_eq_false_iff, Bool.and_eq_false_iff] at ha ⊢
  exact ⟨ha.1.imp_right (headIs_swap h (by decide)), ha.2.imp_right (headIs_swap h (by decide))⟩

/-- What opens an interpolation does not close a literal and escapes nothing. -/
theorem ne_of_isSome_opener {c : Char} {cs : List Char} (h : (opener (c :: cs)).isSome = true) :
    c = '{' ∨ c = '$' := by
  rw [isSome_opener_cons] at h
  simp only [Bool.or_eq_true, Bool.and_eq_true, beq_iff_eq] at h
  exact h.imp And.left And.left

/-! ### Stretches -/

/-- A text `b` that may stand behind a stretch in place of `a`: where the stretch ended in front of an interpolation it
opens one, and what was ahead of the stretch further back is the same. -/
structure InPlace (closed : Bool) (a b : List Char) : Prop where
  opens : closed = false → (opener a).isSome = true → (opener b).isSome = true
  plain : ∀ c u, (opener (c :: (u ++ a))).isSome = false → (opener (c :: (u ++ b))).isSome = false
  word : headIs isNameChar a = false → headIs isNameChar b = false
  /-- The same text in front begins both with the same mark, also where nothing of it is left. -/
  mark : ∀ {u x more}, (u = [] → closed = false) → isMark x = true → u ++ a = x :: more → ∃ tail, u ++ b = x :: tail

theorem Alike.inPlace {closed : Bool} {a b : List Char} (h : Alike strict inWord a b) : InPlace closed a b where
  opens _ := h.isSome_opener
  plain := opener_append_eq h
  word := h.headIs_isNameChar.trans
  mark := fun {u x more} _ hx ha => by
    cases u with
    | nil =>
      rw [List.nil_append] at ha
      subst ha
      obtain ⟨b', rfl, _⟩ := h.cons hx
      exact ⟨b', rfl⟩
    | cons c rest =>
      obtain rfl : c = x := (List.cons.inj ha).1
      exact ⟨rest ++ b, rfl⟩

/-! ### Quoted literals -/

/-- The quotes of literals that may hold interpolations. -/
def isQuote (c : Char) : Bool := c == '"' || c == '\u0060'

theorem isQuote_iff {c : Char} : isQuote c = true ↔ c = '"' ∨ c = '\u0060' := by simp [isQuote]

theorem quotedStretch_eq_some_iff {quote : Char} {cs : List Char} {s : Stretch} :
    quotedStretch quote cs = some s ↔ QuotedText quote cs s := by
  refine ⟨.of_quotedStretch, fun h => ?_⟩
  induction h with
  | closing =>
    unfold quotedStretch
    rw [if_pos rfl]
  | escapedBrace hquote _ ih =>
    unfold quotedStretch
    simp [hquote, ih]
  | @escaped c rest s hquote hc _ ih =>
    unfold quotedStretch
    rw [if_neg hquote, if_pos rfl]
    split
    · rename_i heq
      cases heq
    · rename_i heq
      cases heq
      exact absurd rfl hc
    · rename_i heq
      cases heq
      simp [ih]
  | @opening c rest hquote ho =>
    have hslash : c ≠ '\\' := by rcases ne_of_isSome_opener ho with rfl | rfl <;> decide
    unfold quotedStretch
    rw [if_neg hquote, if_neg hslash, if_pos ho]
  | plain hquote hslash ho _ ih =>
    unfold quotedStretch
    rw [if_neg hquote, if_neg hslash, if_neg (by simp [ho]), ih]
    rfl

theorem QuotedText.ne_nil_of_closed {quote : Char} {cs : List Char} {s : Stretch} (h : QuotedText quote cs s)
    (hc : s.closed = true) : s.text ≠ [] := by
  cases h with
  | opening => cases hc
  | _ => simp [Stretch.cons]

/-- Behind a stretch that is not the last of its literal stands the mark of an interpolation. -/
theorem quotedStretch_opens {quote : Char} {cs : List Char} {s : Stretch} (h : quotedStretch quote cs = some s)
    (hc : s.closed = false) : (opener s.rest).isSome = true := by
  rw [quotedStretch_eq_some_iff] at h
  induction h with
  | closing => cases hc
  | opening _ ho => exact ho
  | escapedBrace _ _ ih => exact ih hc
  | escaped _ _ _ ih => exact ih hc
  | plain _ _ _ _ ih => exact ih hc

theorem quotedStretch_inPlace {quote : Char} {cs b : List Char} {s : Stretch} (hq : isQuote quote = true)
    (h : quotedStretch quote cs = some s) (hb : InPlace s.closed s.rest b) :
    quotedStretch quote (s.text ++ b) = some {s with rest := b} := by
  rw [quotedStretch_eq_some_iff] at h ⊢
  induction h with
  | closing => exact .closing
  | @escapedBrace rest s hquote h ih =>
    have hopen : s.text = [] → s.closed = false := fun hnil =>
      Bool.eq_false_iff.2 fun hc => h.ne_nil_of_closed hc hnil
    obtain ⟨tail, htail⟩ := hb.mark hopen (by decide) (quotedStretch_append (quotedStretch_eq_some_iff.2 h))
    have ih := ih hb
    show QuotedText quote ('\\' :: (s.text ++ b)) (.cons '\\' {s with rest := b})
    rw [htail] at ih ⊢
    exact .escapedBrace hquote ih
  | escaped hquote hc _ ih => exact .escaped hquote hc (ih hb)
  | opening hquote ho =>
    have hopen := hb.opens rfl ho
    cases b with
    | nil => cases hopen
    | cons d more =>
      have hd : d ≠ quote := by
        rcases isQuote_iff.1 hq with rfl | rfl <;> rcases ne_of_isSome_opener hopen with rfl | rfl <;> decide
      exact .opening hd hopen
  | @plain c rest s hquote hslash ho h ih =>
    have happend := quotedStretch_append (quotedStretch_eq_some_iff.2 h)
    exact .plain hquote hslash (hb.plain c s.text (happend ▸ ho)) (ih hb)

theorem quotedStretch_swap {quote : Char} {cs b : List Char} {s : Stretch} (hq : isQuote quote = true)
    (h : quotedStretch quote cs = some s) (hb : Alike strict inWord s.rest b) :
    quotedStretch quote (s.text ++ b) = some {s with rest := b} :=
  quotedStretch_inPlace hq h hb.inPlace

/-! ### Heredocs -/

theorem isIndent_of_isNameChar {c : Char} (h : isNameChar c = true) : isIndent c = false := by
  cases hi : isIndent c with
  | false => rfl
  | true =>
    have hb : isBlank c = true := by
      simp only [isIndent, Bool.or_eq_true, beq_iff_eq] at hi
      rcases hi with rfl | rfl <;> rfl
    rw [isNameChar_of_isBlank hb] at h
    cases h

/-- The label of a heredoc is a word. -/
def IsLabel (label : List Char) : Prop := label ≠ [] ∧ ∀ c ∈ label, isNameChar c = true

theorem heredocHeader_isLabel {cs : List Char} {header : HeredocHeader}
    (h : heredocHeader cs = some header) : IsLabel header.label := by
  simp only [heredocHeader] at h
  split at h
  · rename_i hq
    obtain ⟨cut, _, rfl⟩ := Option.map_eq_some_iff.1 h
    refine ⟨?_, fun c hc => List.mem_takeWhile_imp hc⟩
    simp only [Bool.and_eq_true] at hq
    generalize (labelQuote (cs.dropWhile isIndent)).2 = word at hq ⊢
    cases word with
    | nil => simp [headIs] at hq
    | cons c rest =>
      have hc : isNameStart c = true := hq.1
      simp [isNameChar_of_isNameStart hc]
  · simp at h

theorem labelQuote_append_label {quote label : List Char}
    (hquote : quote = [] ∨ quote = ['\''] ∨ quote = ['"']) (hlabel : headIs isNameStart label = true) :
    labelQuote (quote ++ label) = (quote, label) := by
  rcases hquote with rfl | rfl | rfl
  · unfold labelQuote
    split
    · rename_i rest heq
      rw [show label = '\'' :: rest from heq] at hlabel
      cases hlabel
    · rename_i rest heq
      rw [show label = '"' :: rest from heq] at hlabel
      cases hlabel
    · rfl
  · rfl
  · rfl

theorem labelQuote_fst (cs : List Char) :
    (labelQuote cs).1 = [] ∨ (labelQuote cs).1 = ['\''] ∨ (labelQuote cs).1 = ['"'] := by
  unfold labelQuote
  split <;> simp

theorem lineEnd_head {cs : List Char} {cut : List Char × List Char} (h : lineEnd cs = some cut)
    (b : List Char) : headIs isNameChar (cut.1 ++ b) = false := by
  unfold lineEnd at h
  split at h <;> simp only [Option.some.injEq, reduceCtorEq] at h <;> subst h <;> rfl

/-- The first line of a heredoc ends with its line end, whatever the body is. -/
theorem heredocHeader_swap {cs : List Char} {header : HeredocHeader}
    (h : heredocHeader cs = some header) (b : List Char) :
    ∃ more, header.text = '<' :: '<' :: '<' :: more ∧
      heredocHeader (more ++ b) = some {header with rest := b} := by
  simp only [heredocHeader] at h
  split at h
  · rename_i hq
    obtain ⟨cut, hcut, rfl⟩ := Option.map_eq_some_iff.1 h
    simp only [Bool.and_eq_true] at hq
    have hquote := labelQuote_fst (cs.dropWhile isIndent)
    have hindent : ∀ c ∈ cs.takeWhile isIndent, isIndent c = true :=
      fun c hc => List.mem_takeWhile_imp hc
    have hword : ∀ c ∈ (labelQuote (cs.dropWhile isIndent)).2.takeWhile isNameChar,
        isNameChar c = true := fun c hc => List.mem_takeWhile_imp hc
    have hstart : ∀ x, headIs isNameStart
        ((labelQuote (cs.dropWhile isIndent)).2.takeWhile isNameChar ++ x) = true := by
      intro x
      generalize (labelQuote (cs.dropWhile isIndent)).2 = word at hq ⊢
      cases word with
      | nil => simp [headIs] at hq
      | cons c rest =>
        have hc : isNameStart c = true := hq.1
        simp [isNameChar_of_isNameStart hc, headIs, hc]
    generalize (labelQuote (cs.dropWhile isIndent)).1 = quote at *
    generalize (labelQuote (cs.dropWhile isIndent)).2.takeWhile isNameChar = label at *
    generalize cs.takeWhile isIndent = indent at *
    refine ⟨indent ++ (quote ++ (label ++ (quote ++ cut.1))), by simp, ?_⟩
    have hend : headIs isNameChar (quote ++ (cut.1 ++ b)) = false := by
      rcases hquote with rfl | rfl | rfl
      · exact lineEnd_head hcut b
      · rfl
      · rfl
    have hopen : headIs isIndent (quote ++ (label ++ (quote ++ (cut.1 ++ b)))) = false := by
      rcases hquote with rfl | rfl | rfl
      · have hs := hstart ([] ++ (cut.1 ++ b))
        simp only [List.nil_append] at hs ⊢
        cases hl : label ++ (cut.1 ++ b) with
        | nil => rfl
        | cons c rest =>
          rw [hl] at hs
          exact isIndent_of_isNameChar (isNameChar_of_isNameStart hs)
      · rfl
      · rfl
    simp only [heredocHeader, List.append_assoc]
    rw [takeWhile_append_stop hindent hopen, dropWhile_append_stop hindent hopen,
      labelQuote_append_label hquote (hstart _)]
    simp only []
    rw [takeWhile_append_stop hword hend, dropWhile_append_stop hword hend, hstart]
    simp [lineEnd_swap hcut]
  · simp at h

theorem prefix_of_prefix_append {label v y : List Char} {d : Char} (h : label <+: v ++ d :: y)
    (hd : d ∉ label) : label <+: v := by
  rcases List.prefix_or_prefix_of_prefix h (List.prefix_append v (d :: y)) with hp | ⟨r, rfl⟩
  · exact hp
  · cases r with
    | nil => simp
    | cons c rest =>
      rw [List.prefix_append_right_inj, List.cons_prefix_cons] at h
      exact absurd (by simp [h.1]) hd

/-- The closing label is looked for up to the end of a word; what stands behind that does not count. -/
theorem closingLabel_eq_none_swap {label u x : List Char} {d : Char} (hl : IsLabel label)
    (hd : isNameChar d = false) (hi : isIndent d = false)
    (h : closingLabel label (u ++ d :: x) = none) (y : List Char) :
    closingLabel label (u ++ d :: y) = none := by
  have hdrop : ∀ z, (u ++ d :: z).dropWhile isIndent = u.dropWhile isIndent ++ d :: z := by
    intro z
    rw [List.dropWhile_append]
    split
    · rename_i hu
      rw [List.isEmpty_iff.1 hu]
      simp [hi]
    · rfl
  simp only [closingLabel, hdrop] at h ⊢
  generalize u.dropWhile isIndent = v at h ⊢
  split
  · rename_i hy
    simp only [Bool.and_eq_true, List.isPrefixOf_iff_prefix] at hy
    obtain ⟨w, rfl⟩ := prefix_of_prefix_append hy.1 fun hmem => by simp [hl.2 d hmem] at hd
    have hhead : headIs isNameChar (w ++ d :: x) = headIs isNameChar (w ++ d :: y) := by
      cases w <;> rfl
    simp only [List.append_assoc, List.drop_left] at hy h
    simp [hhead, hy.2] at h
  · rfl

theorem closingLabel_swap {label cs b : List Char} {cut : List Char × List Char}
    (hl : IsLabel label) (h : closingLabel label cs = some cut) (hb : headIs isNameChar b = false) :
    closingLabel label (cut.1 ++ b) = some (cut.1, b) := by
  simp only [closingLabel] at h
  split at h
  · simp only [Option.some.injEq] at h
    subst h
    have hindent : ∀ c ∈ cs.takeWhile isIndent, isIndent c = true :=
      fun c hc => List.mem_takeWhile_imp hc
    have hhead : headIs isIndent (label ++ b) = false := by
      obtain ⟨c, rest, rfl⟩ := List.exists_cons_of_ne_nil hl.1
      exact isIndent_of_isNameChar (hl.2 c List.mem_cons_self)
    simp only [closingLabel, List.append_assoc]
    rw [takeWhile_append_stop hindent hhead, dropWhile_append_stop hindent hhead, List.drop_left]
    simp [hb]
  · simp at h

theorem heredocStretch_eq_some_iff {label : List Char} {verbatim fresh : Bool} {cs : List Char}
    {s : Stretch} : heredocStretch label verbatim fresh cs = some s ↔ HeredocText label verbatim fresh cs s := by
  refine ⟨.of_heredocStretch, fun h => ?_⟩
  have hnone : ∀ {fresh : Bool} {cs : List Char}, (fresh = true → closingLabel label cs = none) →
      (if fresh then closingLabel label cs else none) = none := by
    intro fresh cs hlabel
    cases fresh with
    | false => rfl
    | true => exact hlabel rfl
  induction h with
  | closing hcut =>
    unfold heredocStretch
    simp [hcut]
  | newline hlabel _ ih =>
    unfold heredocStretch
    simp only [hnone hlabel, ih]
    rfl
  | @escapedMark fresh c rest s hlabel hverbatim hc _ ih =>
    subst hverbatim
    unfold heredocStretch
    simp [hnone hlabel, hc, ih]
  | @escaped fresh c rest s hlabel hverbatim hc _ ih =>
    subst hverbatim
    unfold heredocStretch
    simp [hnone hlabel, hc, ih]
  | @opening fresh cs hlabel hverbatim ho =>
    subst hverbatim
    cases cs with
    | nil => cases ho
    | cons c rest =>
      have hc : c ≠ '\n' ∧ c ≠ '\\' := by rcases ne_of_isSome_opener ho with rfl | rfl <;> decide
      unfold heredocStretch
      simp [hnone hlabel, hc, ho]
  | @plain fresh c rest s hlabel hline hslash ho _ ih =>
    have hslash : ¬ (!verbatim && c == '\\') = true := by simpa using hslash
    have ho : ¬ (!verbatim && (opener (c :: rest)).isSome) = true := by simpa using ho
    unfold heredocStretch
    simp only [hnone hlabel, if_neg hslash, if_neg ho, ih]
    rfl

/-- A heredoc that does not end where its stretch begins ends on a later line. -/
theorem HeredocText.newline_mem_of_closed {label : List Char} {verbatim fresh : Bool} {cs : List Char}
    {s : Stretch} (h : HeredocText label verbatim fresh cs s) (hc : s.closed = true)
    (hlabel : fresh = true → closingLabel label cs = none) : '\n' ∈ s.text := by
  induction h with
  | closing hcut => cases hcut.symm.trans (hlabel rfl)
  | newline => exact List.mem_cons_self
  | escapedMark _ _ _ _ ih => exact List.mem_cons_of_mem _ (ih hc nofun)
  | escaped _ _ _ _ ih => exact List.mem_cons_of_mem _ (List.mem_cons_of_mem _ (ih hc nofun))
  | opening => cases hc
  | plain _ _ _ _ _ ih => exact List.mem_cons_of_mem _ (ih hc nofun)

theorem closingLabel_rest {label cs : List Char} {cut : List Char × List Char}
    (h : closingLabel label cs = some cut) : headIs isNameChar cut.2 = false := by
  simp only [closingLabel] at h
  split at h
  · rename_i hl
    simp only [Option.some.injEq] at h
    subst h
    simpa using (Bool.and_eq_true_iff.1 hl).2
  · simp at h

/-- Behind a stretch stands the end of a word, or the mark of an interpolation. -/
theorem heredocStretch_ends {label : List Char} {verbatim fresh : Bool} {cs : List Char}
    {s : Stretch} (h : heredocStretch label verbatim fresh cs = some s) :
    if s.closed then headIs isNameChar s.rest = false else (opener s.rest).isSome = true := by
  rw [heredocStretch_eq_some_iff] at h
  induction h with
  | closing hcut => exact closingLabel_rest hcut
  | opening _ _ ho => exact ho
  | newline _ _ ih => exact ih
  | escapedMark _ _ _ _ ih => exact ih
  | escaped _ _ _ _ ih => exact ih
  | plain _ _ _ _ _ ih => exact ih

theorem heredocStretch_opens {label : List Char} {verbatim fresh : Bool} {cs : List Char} {s : Stretch}
    (h : heredocStretch label verbatim fresh cs = some s) (hc : s.closed = false) : (opener s.rest).isSome = true := by
  have hends := heredocStretch_ends h
  rwa [hc, if_neg Bool.false_ne_true] at hends

/-- Where the closing label does not stand, it does not stand in front of another rest either. -/
theorem HeredocText.closingLabel_eq_none {label : List Char} {verbatim fresh : Bool} {cs b : List Char}
    {s : Stretch} (hl : IsLabel label) (h : HeredocText label verbatim fresh cs s)
    (hb : InPlace s.closed s.rest b) (hlabel : fresh = true → closingLabel label cs = none) (hfresh : fresh = true) :
    closingLabel label (s.text ++ b) = none := by
  have hlabel' := hlabel hfresh
  rw [← heredocStretch_append (heredocStretch_eq_some_iff.2 h)] at hlabel'
  cases hc : s.closed with
  | true =>
    obtain ⟨u, v, huv⟩ := List.append_of_mem (h.newline_mem_of_closed hc hlabel)
    rw [huv, List.append_assoc, List.cons_append] at hlabel' ⊢
    exact closingLabel_eq_none_swap hl (by decide) (by decide) hlabel' _
  | false =>
    have hopen := heredocStretch_opens (heredocStretch_eq_some_iff.2 h) hc
    rw [hc] at hb
    generalize s.rest = a at hb hopen hlabel'
    cases a with
    | nil => cases hopen
    | cons d x =>
      rcases ne_of_isSome_opener hopen with rfl | rfl
      all_goals
        obtain ⟨y, rfl⟩ := hb.mark (u := []) (fun _ => rfl) (by decide) rfl
        exact closingLabel_eq_none_swap hl (by decide) (by decide) hlabel' _

theorem heredocStretch_inPlace {label : List Char} {verbatim fresh : Bool} {cs b : List Char} {s : Stretch}
    (hl : IsLabel label) (h : heredocStretch label verbatim fresh cs = some s) (hb : InPlace s.closed s.rest b) :
    heredocStretch label verbatim fresh (s.text ++ b) = some {s with rest := b} := by
  rw [heredocStretch_eq_some_iff] at h ⊢
  induction h with
  | closing hcut => exact .closing (closingLabel_swap hl hcut (hb.word (closingLabel_rest hcut)))
  | newline hlabel h ih => exact .newline ((HeredocText.newline hlabel h).closingLabel_eq_none hl hb hlabel) (ih hb)
  | @escapedMark fresh c rest s hlabel hverbatim hc h ih =>
    have hmark : isMark c = true := by rcases hc with rfl | rfl <;> decide
    have hopen : s.text = [] → s.closed = false := fun hnil => by
      refine Bool.eq_false_iff.2 fun hclosed => ?_
      have hmem := h.newline_mem_of_closed hclosed nofun
      rw [hnil] at hmem
      cases hmem
    obtain ⟨tail, htail⟩ := hb.mark hopen hmark (heredocStretch_append (heredocStretch_eq_some_iff.2 h))
    have hlabel' := (HeredocText.escapedMark hlabel hverbatim hc h).closingLabel_eq_none hl hb hlabel
    have ih := ih hb
    show HeredocText label verbatim fresh ('\\' :: (s.text ++ b)) (.cons '\\' {s with rest := b})
    change fresh = true → closingLabel label ('\\' :: (s.text ++ b)) = none at hlabel'
    rw [htail] at ih hlabel' ⊢
    exact .escapedMark hlabel' hverbatim hc ih
  | escaped hlabel hverbatim hc h ih =>
    exact .escaped ((HeredocText.escaped hlabel hverbatim hc h).closingLabel_eq_none hl hb hlabel) hverbatim hc (ih hb)
  | opening hlabel hverbatim ho =>
    exact .opening ((HeredocText.opening hlabel hverbatim ho).closingLabel_eq_none hl hb hlabel) hverbatim (hb.opens rfl ho)
  | @plain fresh c rest s hlabel hline hslash ho h ih =>
    have happend := heredocStretch_append (heredocStretch_eq_some_iff.2 h)
    exact .plain ((HeredocText.plain hlabel hline hslash ho h).closingLabel_eq_none hl hb hlabel) hline hslash
      (fun hverbatim => hb.plain c s.text (happend ▸ ho hverbatim)) (ih hb)

theorem heredocStretch_swap {label : List Char} {verbatim fresh : Bool} {cs b : List Char}
    {s : Stretch} (hl : IsLabel label) (h : heredocStretch label verbatim fresh cs = some s)
    (hb : Alike strict inWord s.rest b) :
    heredocStretch label verbatim fresh (s.text ++ b) = some {s with rest := b} :=
  heredocStretch_inPlace hl h hb.inPlace

end PluginShading.Source
