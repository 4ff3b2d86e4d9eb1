import PluginShading.Proofs.Source.Literals

/-!
A token of code is read the same in front of a text that looks alike (`readCode_alike`).

The new text is the token and what may stand behind it. Only one thing may then be read differently:
where the names exchanged may begin with a clause of a declaration, `enum` in front of one of them may
open a declaration in one text and not in the other (`SameKind`).
-/
namespace PluginShading.Source

variable {strict : Prop} {inWord : Bool}

/-- The last character of a text is one of a word. -/
def endsInWord (t : List Char) : Bool :=
  match t.getLast? with
  | none => false
  | some c => isNameChar c

theorem endsInWord_append_of_ne_nil (t : List Char) {u : List Char} (hu : u ≠ []) :
    endsInWord (t ++ u) = endsInWord u := by
  simp [endsInWord, List.getLast?_append, List.getLast?_eq_some_getLast hu]

theorem endsInWord_of_all {t : List Char} (ht : t ≠ []) (h : ∀ c ∈ t, isNameChar c = true) :
    endsInWord t = true := by
  simp only [endsInWord, List.getLast?_eq_some_getLast ht]
  exact h _ (List.getLast_mem ht)

/-- A token in front of texts that look alike behind it. -/
theorem Alike.behind {t a b : List Char} (ht : t ≠ []) (h : Alike strict (endsInWord t) a b) :
    Alike strict inWord (t ++ a) (t ++ b) := by
  induction t generalizing inWord with
  | nil => exact absurd rfl ht
  | cons c rest ih =>
    cases rest with
    | nil => exact .same c h
    | cons d more => exact .same c (ih (by simp) h)

/-- The same kind, or the two kinds of `enum` where the clauses of a declaration may be exchanged. -/
def SameKind (strict : Prop) (k l : TokenKind) : Prop :=
  l = k ∨ ¬strict ∧ k ∈ [.identifier, .keyword .enumWord] ∧ l ∈ [.identifier, .keyword .enumWord]

theorem SameKind.refl (k : TokenKind) : SameKind strict k k := .inl rfl

/-- The level without the line on which it was opened. -/
def Level.unlined : Level → Level
  | .quoted quote _ => .quoted quote 0
  | .heredoc label _ => .heredoc label 0
  | .interpolation depth _ => .interpolation depth 0

/-- A token `u` of the same kind and the same effect, in front of `b`. -/
structure Reading.Like (strict : Prop) (u b : List Char) (r r' : Reading) : Prop where
  text : r'.token.text = u
  kind : SameKind strict r.token.kind r'.token.kind
  rest : r'.rest = b
  closes : r'.closesCode = r.closesCode
  opens : r'.opens.map Level.unlined = r.opens.map Level.unlined

theorem Reading.Like.plain (b : List Char) (kind : TokenKind) (cut : List Char × List Char) :
    Reading.Like strict (Reading.plain kind cut).token.text b (.plain kind cut)
      (.plain kind (cut.1, b)) :=
  ⟨rfl, .refl kind, rfl, rfl, rfl⟩

theorem Reading.Like.literal (b mark : List Char) (s : Stretch) {level level' : Level}
    (hlevel : level'.unlined = level.unlined) :
    Reading.Like strict (Reading.literal mark level s).token.text b (.literal mark level s)
      (.literal mark level' {s with rest := b}) where
  text := rfl
  kind := .refl _
  rest := rfl
  closes := rfl
  opens := by cases hs : s.closed <;> simp [Reading.literal, hs, hlevel]

/-! ### Marks and words -/

theorem isMark_of_mem_operators {op : List Char} (h : op ∈ operators) : ∀ c ∈ op, isMark c = true := by
  have hall : operators.all (·.all isMark) = true := by decide
  exact List.all_eq_true.1 (List.all_eq_true.1 hall op h)

theorem readMark_alike {c : Char} {rest rest' b : List Char}
    (hb : Alike strict (endsInWord (readMark c rest).token.text) (readMark c rest).rest b)
    (hrest : c :: rest' = (readMark c rest).token.text ++ b) :
    Reading.Like strict (readMark c rest).token.text b (readMark c rest) (readMark c rest') := by
  have hsame : Alike strict false (c :: rest) (c :: rest') := by
    rw [hrest, ← readMark_append c rest]
    exact hb.behind (readMark_ne_nil c rest)
  have hnew : ∀ op ∈ operators, op.isPrefixOf (c :: rest) = false →
      op.isPrefixOf (c :: rest') = false := by
    intro op hop hno
    cases hyes : op.isPrefixOf (c :: rest') with
    | false => rfl
    | true =>
      have := hsame.isPrefix_of_marks (isMark_of_mem_operators hop) (List.isPrefixOf_iff_prefix.1 hyes)
      rw [List.isPrefixOf_iff_prefix.2 this] at hno
      cases hno
  unfold readMark at hrest ⊢
  cases hf : operators.find? (·.isPrefixOf (c :: rest)) with
  | none =>
    rw [hf] at hrest
    have hnone : operators.find? (·.isPrefixOf (c :: rest')) = none := by
      rw [List.find?_eq_none] at hf ⊢
      intro op hop
      rw [hnew op hop (Bool.eq_false_iff.2 (hf op hop))]
      exact Bool.false_ne_true
    obtain rfl : rest' = b := (List.cons.inj hrest).2
    rw [hnone]
    exact .plain _ .punctuation ([c], rest)
  | some op =>
    rw [hf] at hrest
    have hrest : c :: rest' = op ++ b := hrest
    have hsome : operators.find? (·.isPrefixOf (c :: rest')) = some op := by
      rw [List.find?_eq_some_iff_append] at hf ⊢
      obtain ⟨-, front, back, hall, hfront⟩ := hf
      refine ⟨by simp [hrest], front, back, hall, fun o ho => ?_⟩
      have hmem : o ∈ operators := by simp [hall, ho]
      simp [hnew o hmem (by simpa using hfront o ho)]
    rw [hsome]
    simp only [hrest, List.drop_left]
    exact .plain _ _ _

/-- What a word is depends on what follows it in the case of `enum` only. -/
theorem wordKind_alike {last last' : Option Token} {word segments a b : List Char}
    (hl : namesMember last' = namesMember last) (h : Alike strict true a b) :
    SameKind strict (wordKind last word segments a) (wordKind last' word segments b) := by
  unfold wordKind
  rw [hl]
  split
  · exact .refl _
  · split
    · exact .refl _
    · split
      · by_cases hs : strict
        · rw [h.enumDeclares_eq hs]
          exact .refl _
        · refine .inr ⟨hs, ?_, ?_⟩ <;> split <;> simp
      · exact .refl _

theorem readWord_alike {last last' : Option Token} {c : Char} {rest b : List Char}
    (hc : isNameStart c = true) (hl : namesMember last' = namesMember last)
    (hb : Alike strict (endsInWord (readWord last (c :: rest)).token.text)
      (readWord last (c :: rest)).rest b) :
    Reading.Like strict (readWord last (c :: rest)).token.text b (readWord last (c :: rest))
      (readWord last' ((readWord last (c :: rest)).token.text ++ b)) := by
  simp only [readWord, Reading.plain] at hb ⊢
  have hword : ∀ x ∈ (c :: rest).takeWhile isNameChar, isNameChar x = true :=
    fun x hx => List.mem_takeWhile_imp hx
  have hne : (c :: rest).takeWhile isNameChar ≠ [] := by
    simp [isNameChar_of_isNameStart hc]
  have hstop := headIs_dropWhile isNameChar (c :: rest)
  generalize (c :: rest).takeWhile isNameChar = word at *
  generalize (c :: rest).dropWhile isNameChar = after at *
  have hsegments := nameSegments_swap hstop hb
  have hend : headIs isNameChar b = false :=
    hb.headIs_isNameChar.trans (headIs_nameSegments_rest hstop)
  have hstop' := headIs_nameSegments_append after hend
  rw [List.append_assoc, takeWhile_append_stop hword hstop', dropWhile_append_stop hword hstop',
    hsegments]
  refine ⟨rfl, ?_, rfl, rfl, rfl⟩
  show SameKind strict (wordKind last word (nameSegments after).1 (nameSegments after).2)
    (wordKind last' word (nameSegments after).1 b)
  by_cases hs : (nameSegments after).1 = []
  · rw [hs, List.append_nil, endsInWord_of_all hne hword] at hb
    exact wordKind_alike hl hb
  · have hs : (nameSegments after).1.isEmpty = false := by simpa using hs
    simp only [wordKind, hs, Bool.not_false, if_true]
    exact .refl _

/-! ### The readings of a text -/

theorem readCode_of_blank (last : Option Token) (line : Nat) {c : Char} (hc : isBlank c = true)
    (rest : List Char) : readCode last line c rest =
      .ok (.plain .whitespace (c :: rest.takeWhile isBlank, rest.dropWhile isBlank)) := by
  unfold readCode
  rw [if_pos hc]

theorem readCode_of_hash (last : Option Token) (line : Nat) {rest : List Char}
    (h : headIs (· == '[') rest = false) : readCode last line '#' rest =
      .ok (.plain .comment ('#' :: (lineComment rest).1, (lineComment rest).2)) := by
  cases rest with
  | nil => rfl
  | cons d more =>
    have hd : d ≠ '[' := by simpa [headIs] using h
    unfold readCode
    rw [if_neg (by decide)]
    split <;> simp_all

section Reading

variable {last last' : Option Token} {line line' : Nat} {c : Char} {rest rest' b : List Char} {r : Reading}

theorem PlainReading.readPlain_eq (h : PlainReading last line c rest r) :
    readPlain last line c rest = .ok r := by
  cases h with
  | quoted hquote hs => simp [readPlain, hquote, hs]
  | dollar hname => simp [readPlain, hname]
  | separator hname => simp [readPlain, hname]
  | word hc =>
    have hne : ∀ d : Char, isNameStart d = false → c ≠ d := by
      rintro d hd rfl
      exact absurd hc (by simp [hd])
    simp [readPlain, hc, hne '"' (by decide), hne '\u0060' (by decide), hne '$' (by decide),
      hne '\\' (by decide)]
  | number hc =>
    rcases hc with hc | ⟨rfl, hrest⟩
    · have hne : ∀ d : Char, d.isDigit = false → c ≠ d := by
        rintro d hd rfl
        exact absurd hc (by simp [hd])
      have hname : isNameStart c = false := isNameStart_of_lt (by have := isDigit_toNat hc; omega)
      simp [readPlain, hc, hname, hne '"' (by decide), hne '\u0060' (by decide), hne '$' (by decide),
        hne '\\' (by decide)]
    · have hname : isNameStart '.' = false := rfl
      simp [readPlain, hrest, hname]
  | mark hc =>
    have hdollar : ¬ (c = '$' ∧ headIs isNameStart rest = true) := fun h => by
      rw [hc.sigil (.inl h.1)] at h
      cases h.2
    have hseparator : ¬ (c = '\\' ∧ headIs isNameStart rest = true) := fun h => by
      rw [hc.sigil (.inr h.1)] at h
      cases h.2
    have hpoint : ¬ (c = '.' ∧ headIs Char.isDigit rest = true) := fun h => by
      rw [hc.point h.1] at h
      cases h.2
    simp [readPlain, hc.quote, hdollar, hseparator, hc.name, hc.digit, hpoint]

/-- **The tokens of code are those that the relation lists.** -/
theorem readCode_eq_ok_iff : readCode last line c rest = .ok r ↔ CodeReading last line c rest r := by
  refine ⟨.of_readCode, fun h => ?_⟩
  cases h with
  | blanks hc => exact readCode_of_blank last line hc rest
  | attributes => rfl
  | hashComment hrest => exact readCode_of_hash last line hrest
  | slashComment => rfl
  | blockComment hcut => simp [readCode, isBlank, hcut]
  | closeTag => rfl
  | verbatim hcut => simp [readCode, isBlank, hcut]
  | heredoc hheader hs => simp [readCode, isBlank, readHeredoc, hheader, hs]
  | plain hblank hopening h => exact (readCode_eq_readPlain hblank hopening).trans h.readPlain_eq

/-! ### One token of code -/

/-- An opening that is in front of the new text is in front of the old one. -/
theorem not_opening {a b : List Char} (h : Alike strict inWord a b)
    (ho : ∀ o ∈ openings, ¬ o <+: a) : ∀ o ∈ openings, ¬ o <+: b := by
  have hmarks : openings.all (·.all isMark) = true := by decide
  intro o hmem hb
  have hmark := List.all_eq_true.1 (List.all_eq_true.1 hmarks o hmem)
  exact ho o hmem (h.isPrefix_of_marks hmark hb)

theorem Alike.tail {a b : List Char} (hc : isStop c = false)
    (h : Alike strict true (c :: a) (c :: b)) : Alike strict (isNameChar c) a b := by
  cases h with
  | same _ h => exact h
  | stop _ _ hs => rw [hs] at hc; cases hc

theorem PlainReading.alike (h : PlainReading last line c rest r) (hc : isStop c = false)
    (hl : namesMember last' = namesMember last) (hsame : Alike strict true (c :: rest) (c :: rest'))
    (hb : Alike strict (endsInWord r.token.text) r.rest b) (hrest : c :: rest' = r.token.text ++ b) :
    ∃ r', PlainReading last' line' c rest' r' ∧ Reading.Like strict r.token.text b r r' := by
  have htail := hsame.tail hc
  cases h with
  | @quoted _ _ s hquote hs =>
    obtain rfl : rest' = s.text ++ b := (List.cons.inj hrest).2
    exact ⟨_, .quoted hquote (quotedStretch_swap (isQuote_iff.2 hquote) hs hb), .literal b [c] s rfl⟩
  | dollar hname =>
    obtain rfl : rest' = rest.takeWhile isNameChar ++ b := (List.cons.inj hrest).2
    have hend : headIs isNameChar b = false :=
      hb.headIs_isNameChar.trans (headIs_dropWhile isNameChar rest)
    refine ⟨_, .dollar (htail.headIs_isNameStart.trans hname), ?_⟩
    rw [takeWhile_swap hend, dropWhile_swap hend]
    exact .plain b _ _
  | separator hname =>
    have hrest : '\\' :: rest' = (nameSegments ('\\' :: rest)).1 ++ b := hrest
    have hstart : headIs isNameChar ('\\' :: rest) = false := rfl
    refine ⟨_, .separator (htail.headIs_isNameStart.trans hname), ?_⟩
    rw [hrest, nameSegments_swap hstart hb]
    exact .plain b _ _
  | word hname =>
    refine ⟨_, .word hname, ?_⟩
    rw [hrest]
    exact readWord_alike hname hl hb
  | number hdigit =>
    have hrest : c :: rest' = (Source.number (c :: rest)).1 ++ b := hrest
    refine ⟨_, .number (hdigit.imp_right fun h => ⟨h.1, htail.headIs_isDigit.trans h.2⟩), ?_⟩
    rw [hrest, number_swap hb]
    exact .plain b _ _
  | mark hmark =>
    have hmark' : IsMarkAt c rest' := ⟨hmark.quote, fun h => htail.headIs_isNameStart.trans (hmark.sigil h),
      hmark.name, hmark.digit, fun h => htail.headIs_isDigit.trans (hmark.point h)⟩
    exact ⟨_, .mark hmark', readMark_alike hb hrest⟩

/-- **The token of code in front of `b` is the one in front of what `b` replaces.** -/
theorem readCode_alike (hc : isStop c = false) (hl : namesMember last' = namesMember last)
    (h : readCode last line c rest = .ok r) (hb : Alike strict (endsInWord r.token.text) r.rest b)
    (hrest : c :: rest' = r.token.text ++ b) :
    ∃ r', readCode last' line' c rest' = .ok r' ∧ Reading.Like strict r.token.text b r r' := by
  have hsame : Alike strict true (c :: rest) (c :: rest') := by
    rw [hrest, ← readCode_append h]
    exact hb.behind (readCode_ne_nil h)
  simp only [readCode_eq_ok_iff] at h ⊢
  cases h with
  | blanks hblank =>
    obtain rfl : rest' = rest.takeWhile isBlank ++ b := (List.cons.inj hrest).2
    have hend : headIs isBlank b = false := hb.headIs_isBlank.trans (headIs_dropWhile isBlank rest)
    refine ⟨_, .blanks hblank, ?_⟩
    rw [takeWhile_swap hend, dropWhile_swap hend]
    exact .plain b _ _
  | attributes =>
    obtain rfl : rest' = '[' :: b := (List.cons.inj hrest).2
    exact ⟨_, .attributes, .plain b _ _⟩
  | hashComment hattribute =>
    obtain rfl : rest' = (lineComment rest).1 ++ b := (List.cons.inj hrest).2
    have hattribute' : headIs (· == '[') ((lineComment rest).1 ++ b) = false :=
      headIs_swap hb (by decide) ((congrArg _ (lineComment_append rest)).trans hattribute)
    refine ⟨_, .hashComment hattribute', ?_⟩
    rw [lineComment_swap hb]
    exact .plain b _ _
  | @slashComment rest =>
    obtain rfl : rest' = '/' :: ((lineComment rest).1 ++ b) := (List.cons.inj hrest).2
    refine ⟨_, .slashComment, ?_⟩
    rw [lineComment_swap hb]
    exact .plain b _ _
  | @blockComment _ cut hcut =>
    obtain rfl : rest' = '*' :: (cut.1 ++ b) := (List.cons.inj hrest).2
    exact ⟨_, .blockComment (throughCommentEnd_swap hcut b), .plain b _ _⟩
  | @closeTag rest =>
    obtain ⟨more, hmore, hswap⟩ := closeTag_swap hb
    have hrest : '?' :: rest' = (closeTag rest).1 ++ b := hrest
    rw [hmore] at hrest
    obtain rfl : rest' = '>' :: (more ++ b) := (List.cons.inj hrest).2
    refine ⟨_, .closeTag, ?_⟩
    rw [hswap]
    exact ⟨rfl, .refl _, rfl, rfl, rfl⟩
  | @verbatim _ cut hcut =>
    obtain rfl : rest' = cut.1 ++ b := (List.cons.inj hrest).2
    exact ⟨_, .verbatim (throughQuote_swap hcut b), .plain b _ _⟩
  | @heredoc _ header s hheader hs =>
    obtain ⟨more, hmore, hswap⟩ := heredocHeader_swap hheader (s.text ++ b)
    have hstretch := heredocStretch_swap (heredocHeader_isLabel hheader) hs hb
    have hrest : '<' :: rest' = header.text ++ s.text ++ b := hrest
    rw [hmore, List.append_assoc] at hrest
    obtain rfl : rest' = '<' :: '<' :: (more ++ (s.text ++ b)) := (List.cons.inj hrest).2
    exact ⟨_, .heredoc hswap hstretch, .literal b header.text s rfl⟩
  | plain hblank hopening h =>
    obtain ⟨r', h', hlike⟩ := h.alike hc hl hsame hb hrest
    exact ⟨r', .plain hblank (not_opening hsame hopening) h', hlike⟩

end Reading

/-- A stop is a token of its own. -/
theorem readCode_of_stop (last : Option Token) (line : Nat) {c : Char} (hc : isStop c = true)
    (rest : List Char) : readCode last line c rest = .ok (.plain .punctuation ([c], rest)) := by
  rcases isStop_iff.1 hc with rfl | rfl <;> rfl

/-! ### What is read -/

theorem readMark_cases (c : Char) (rest : List Char) :
    (readMark c rest).token.kind = .other ∨ (readMark c rest).token = ⟨.punctuation, [c]⟩ := by
  unfold readMark
  split
  · exact .inl rfl
  · exact .inr rfl

theorem commentKind_cases (comment : List Char) :
    commentKind comment = .comment ∨ commentKind comment = .docComment := by
  unfold commentKind
  split
  · exact .inr rfl
  · exact .inl rfl

/-- A token of code is a word, a name behind a separator, a mark, or of no interest for names. -/
theorem readCode_cases {last : Option Token} {line : Nat} {c : Char} {rest : List Char}
    {r : Reading} (h : readCode last line c rest = .ok r) :
    (isNameStart c = true ∧ r = readWord last (c :: rest)) ∨
    (c = '\\' ∧ headIs isNameStart rest = true ∧
      r = .plain .fullyQualifiedName (nameSegments ('\\' :: rest))) ∨
    r.token = ⟨.punctuation, [c]⟩ ∨
    r.token.kind ∈ [.other, .whitespace, .comment, .docComment] := by
  cases CodeReading.of_readCode h with
  | plain _ _ h =>
    cases h with
    | word hname => exact .inl ⟨hname, rfl⟩
    | separator hname => exact .inr (.inl ⟨rfl, hname, rfl⟩)
    | mark =>
      rcases readMark_cases c rest with hk | ht
      · exact .inr (.inr (.inr (by simp [hk])))
      · exact .inr (.inr (.inl ht))
    | _ => exact .inr (.inr (.inr (by simp [Reading.plain, Reading.literal])))
  | @blockComment _ cut =>
    refine .inr (.inr (.inr ?_))
    rcases commentKind_cases ('/' :: '*' :: cut.1) with hk | hk <;> simp [Reading.plain, hk]
  | _ => exact .inr (.inr (.inr (by simp [Reading.plain, Reading.literal])))

/-- A token of code that leaves something open begins a quoted literal or a heredoc. -/
theorem readCode_opens_cases {last : Option Token} {line : Nat} {c : Char} {rest : List Char} {r : Reading}
    {level : Level} (h : readCode last line c rest = .ok r) (ho : r.opens = some level) :
    (∃ s, (c = '"' ∨ c = '\u0060') ∧ quotedStretch c rest = some s ∧ s.closed = false ∧
      level = .quoted c line ∧ r = .literal [c] level s) ∨
    ∃ more header s, c :: rest = '<' :: '<' :: '<' :: more ∧ heredocHeader more = some header ∧
      heredocStretch header.label header.verbatim true header.rest = some s ∧ s.closed = false ∧
      level = .heredoc header.label line ∧ r = .literal header.text level s := by
  cases CodeReading.of_readCode h with
  | heredoc hheader hs =>
    obtain ⟨hc, rfl⟩ := Reading.literal_opens_eq_some.1 ho
    exact .inr ⟨_, _, _, rfl, hheader, hs, hc, rfl, rfl⟩
  | plain _ _ h =>
    cases h with
    | quoted hquote hs =>
      obtain ⟨hc, rfl⟩ := Reading.literal_opens_eq_some.1 ho
      exact .inl ⟨_, hquote, hs, hc, rfl, rfl⟩
    | _ => simp at ho
  | _ => simp at ho

/-- Code ends with a closing tag only. -/
theorem eq_of_closesCode {last : Option Token} {line : Nat} {c : Char} {rest : List Char} {r : Reading}
    (h : readCode last line c rest = .ok r) (hr : r.closesCode = true) :
    c = '?' ∧ ∃ more, rest = '>' :: more ∧ r.token.kind = .other ∧ r.rest = (closeTag more).2 := by
  cases CodeReading.of_readCode h with
  | closeTag => exact ⟨rfl, _, rfl, rfl, rfl⟩
  | plain _ _ h => cases h <;> simp at hr
  | _ => simp at hr

/-- White space and comments neither end code nor open anything. -/
theorem readCode_insignificant {last : Option Token} {line : Nat} {c : Char} {rest : List Char} {r : Reading}
    (h : readCode last line c rest = .ok r) (hs : r.token.significant = false) :
    r.closesCode = false ∧ r.opens = none := by
  have hother : r.token.kind ≠ .other := fun hk => by simp [Token.significant, hk] at hs
  constructor
  · refine Bool.eq_false_iff.2 fun hc => ?_
    obtain ⟨-, -, -, hk, -⟩ := eq_of_closesCode h hc
    exact hother hk
  · refine Option.eq_none_iff_forall_not_mem.2 fun level ho => ?_
    rcases readCode_opens_cases h ho with ⟨s, -, -, -, -, rfl⟩ | ⟨more, header, s, -, -, -, -, -, rfl⟩
    · exact hother rfl
    · exact hother rfl

/-! ### What follows a word -/

theorem headIs_isNumeral_of_stop {cs : List Char} (h : headIs isNameChar cs = false) :
    headIs isNumeral cs = false := by
  cases cs with
  | nil => rfl
  | cons c rest =>
    have hc : isNameChar c = false := h
    cases hn : isNumeral c with
    | false => exact hn
    | true =>
      simp only [isNumeral, Char.isAlphanum, Bool.or_eq_true, beq_iff_eq] at hn
      simp only [isNameChar, isNameStart, Bool.or_eq_false_iff] at hc
      rcases hn with (hn | hn) | rfl <;> simp_all

theorem endsInWord_of_none {t : List Char} (h : ∀ c ∈ t, isNameChar c = false) :
    endsInWord t = false := by
  unfold endsInWord
  split
  · rfl
  · rename_i c hc
    exact h c (List.mem_of_getLast? hc)

theorem endsInWord_cons (c : Char) {t : List Char} (h : t ≠ []) :
    endsInWord (c :: t) = endsInWord t := endsInWord_append_of_ne_nil [c] h

theorem lineComment_rest (cs : List Char) : headIs isNameChar (lineComment cs).2 = false := by
  fun_induction lineComment cs with
  | case1 => rfl
  | case2 => rfl
  | case3 => rfl
  | case4 c rest _ _ ih => exact ih

theorem endsInWord_throughCommentEnd {cs : List Char} {cut : List Char × List Char}
    (h : throughCommentEnd cs = some cut) : endsInWord cut.1 = false := by
  fun_induction throughCommentEnd cs generalizing cut with
  | case1 => simp at h
  | case2 rest => cases h; rfl
  | case3 c rest _ ih =>
    obtain ⟨cut, hc, rfl⟩ := Option.map_eq_some_iff.1 h
    rw [endsInWord_cons c (throughCommentEnd_ne_nil hc)]
    exact ih hc

theorem throughQuote_ends {cs : List Char} {cut : List Char × List Char}
    (h : throughQuote cs = some cut) : cut.1 ≠ [] ∧ endsInWord cut.1 = false := by
  fun_induction throughQuote cs generalizing cut with
  | case1 => simp at h
  | case2 rest => cases h; exact ⟨by simp, rfl⟩
  | case3 c rest ih =>
    obtain ⟨cut, hc, rfl⟩ := Option.map_eq_some_iff.1 h
    have ih := ih hc
    exact ⟨by simp, by rw [endsInWord_cons _ (by simp), endsInWord_cons _ ih.1, ih.2]⟩
  | case4 c rest _ _ ih =>
    obtain ⟨cut, hc, rfl⟩ := Option.map_eq_some_iff.1 h
    have ih := ih hc
    exact ⟨by simp, by rw [endsInWord_cons _ ih.1, ih.2]⟩

theorem endsInWord_closeTag (rest : List Char) : endsInWord (closeTag rest).1 = false := by
  unfold closeTag
  split
  · rename_i cut h
    unfold lineEnd at h
    split at h <;> cases h <;> rfl
  · rfl

theorem headIs_of_isSome_opener {cs : List Char} (h : (opener cs).isSome = true) :
    headIs isNameChar cs = false := by
  cases cs with
  | nil => rfl
  | cons c rest => rcases ne_of_isSome_opener h with rfl | rfl <;> rfl

/-- Behind a stretch that ends in a word, no word goes on. -/
theorem quotedStretch_rest {quote : Char} {cs : List Char} {s : Stretch} (hq : isQuote quote = true)
    (h : quotedStretch quote cs = some s) :
    headIs isNameChar s.rest = false ∨ (s.text ≠ [] ∧ endsInWord s.text = false) := by
  have hcons : ∀ {s : Stretch} (c : Char),
      headIs isNameChar s.rest = false ∨ (s.text ≠ [] ∧ endsInWord s.text = false) →
        headIs isNameChar (s.cons c).rest = false ∨ ((s.cons c).text ≠ [] ∧ endsInWord (s.cons c).text = false) :=
    fun c hs => hs.imp_right fun hs => ⟨List.cons_ne_nil _ _, (endsInWord_cons c hs.1).trans hs.2⟩
  rw [quotedStretch_eq_some_iff] at h
  induction h with
  | closing =>
    refine .inr ⟨List.cons_ne_nil _ _, ?_⟩
    rcases isQuote_iff.1 hq with rfl | rfl <;> rfl
  | opening _ ho => exact .inl (headIs_of_isSome_opener ho)
  | escapedBrace _ _ ih => exact hcons _ ih
  | escaped _ _ _ ih => exact hcons _ (hcons _ ih)
  | plain _ _ _ _ ih => exact hcons _ ih

theorem heredocStretch_rest {label : List Char} {verbatim fresh : Bool} {cs : List Char}
    {s : Stretch} (h : heredocStretch label verbatim fresh cs = some s) :
    headIs isNameChar s.rest = false := by
  have hends := heredocStretch_ends h
  split at hends
  · exact hends
  · exact headIs_of_isSome_opener hends

theorem endsInWord_readMark {c : Char} (rest : List Char) (hs : isNameStart c = false)
    (hd : c.isDigit = false) : endsInWord (readMark c rest).token.text = false := by
  have hall : operators.all (·.all fun x => !isNameChar x) = true := by decide
  apply endsInWord_of_none
  unfold readMark
  split
  · rename_i op hop
    intro x hx
    have := List.all_eq_true.1 (List.all_eq_true.1 hall op (List.mem_of_find?_eq_some hop)) x hx
    simpa using this
  · intro x hx
    obtain rfl : x = c := by simpa [Reading.plain] using hx
    simp [isNameChar, hs, hd]

/-- Where a token of code ends in a word, no number goes on behind it. -/
theorem readCode_rest {last : Option Token} {line : Nat} {c : Char} {rest : List Char}
    {r : Reading} (h : readCode last line c rest = .ok r) (he : endsInWord r.token.text = true) :
    headIs isNumeral r.rest = false := by
  have hnot : ∀ {p : Prop}, endsInWord r.token.text = false → p := fun hends =>
    absurd (he.symm.trans hends) (by simp)
  cases CodeReading.of_readCode h with
  | blanks hblank =>
    refine hnot (endsInWord_of_none fun x hx => ?_)
    rcases List.mem_cons.1 hx with rfl | hx
    · exact isNameChar_of_isBlank hblank
    · exact isNameChar_of_isBlank (List.mem_takeWhile_imp hx)
  | attributes => exact hnot rfl
  | hashComment => exact headIs_isNumeral_of_stop (lineComment_rest _)
  | slashComment => exact headIs_isNumeral_of_stop (lineComment_rest _)
  | @blockComment _ cut hcut =>
    refine hnot ?_
    show endsInWord ('/' :: '*' :: cut.1) = false
    rw [endsInWord_cons _ (by simp), endsInWord_cons _ (throughCommentEnd_ne_nil hcut)]
    exact endsInWord_throughCommentEnd hcut
  | closeTag => exact hnot (endsInWord_closeTag _)
  | verbatim hcut =>
    have hends := throughQuote_ends hcut
    exact hnot ((endsInWord_cons _ hends.1).trans hends.2)
  | heredoc _ hs => exact headIs_isNumeral_of_stop (heredocStretch_rest hs)
  | plain _ _ h =>
    cases h with
    | quoted hquote hs =>
      rcases quotedStretch_rest (isQuote_iff.2 hquote) hs with hrest | hends
      · exact headIs_isNumeral_of_stop hrest
      · exact hnot ((endsInWord_cons c hends.1).trans hends.2)
    | dollar => exact headIs_isNumeral_of_stop (headIs_dropWhile isNameChar rest)
    | separator =>
      have hstop : headIs isNameChar ('\\' :: rest) = false := rfl
      exact headIs_isNumeral_of_stop (headIs_nameSegments_rest hstop)
    | word =>
      exact headIs_isNumeral_of_stop (headIs_nameSegments_rest (headIs_dropWhile isNameChar (c :: rest)))
    | number => exact headIs_number_rest (c :: rest)
    | mark hmark => exact hnot (endsInWord_readMark rest hmark.name hmark.digit)

end PluginShading.Source
