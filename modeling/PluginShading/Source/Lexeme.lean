import PluginShading.Source.Alphabet

/-!
Lexemes: how far a comment, a number, a name or a stretch of literal text reaches.

Every recogniser here divides its input: it returns a text and what follows, and the two together are
the input again (the `_append` lemmas). Recognisers of closed literals return `none` where the closing
mark is missing. Stretches of text that may be interrupted by `{$` or `${` say in `closed` whether the
literal ended or an interpolation is next.
-/
namespace PluginShading.Source

/-! ### Names and numbers -/

/-- `\a\b…`: the further segments of a name. -/
def nameSegments : List Char → List Char × List Char
  | '\\' :: c :: rest =>
    if isNameStart c then
      let tail := nameSegments (rest.dropWhile isNameChar)
      ('\\' :: c :: rest.takeWhile isNameChar ++ tail.1, tail.2)
    else ([], '\\' :: c :: rest)
  | cs => ([], cs)
termination_by cs => cs.length
decreasing_by
  have := (List.dropWhile_sublist isNameChar (l := rest)).length_le
  simp; omega

theorem nameSegments_append (cs : List Char) : (nameSegments cs).1 ++ (nameSegments cs).2 = cs := by
  fun_induction nameSegments cs with
  | case1 c rest h tail ih => simp [tail, ih]
  | case2 => rfl
  | case3 => rfl

/-- The digits of a number up to a point, or after it. -/
def numeralRun (cs : List Char) : List Char × List Char :=
  (cs.takeWhile isNumeral, cs.dropWhile isNumeral)

theorem numeralRun_append (cs : List Char) : (numeralRun cs).1 ++ (numeralRun cs).2 = cs :=
  List.takeWhile_append_dropWhile

/-- A fraction, where a point and a digit follow. -/
def fraction : List Char → List Char × List Char
  | '.' :: rest =>
    if headIs Char.isDigit rest then ('.' :: (numeralRun rest).1, (numeralRun rest).2)
    else ([], '.' :: rest)
  | cs => ([], cs)

theorem fraction_append (cs : List Char) : (fraction cs).1 ++ (fraction cs).2 = cs := by
  unfold fraction
  split
  · split <;> simp [numeralRun_append]
  · rfl

/-- A signed exponent, where the number so far ends in `e`. -/
def exponent (mantissa : List Char) : List Char → List Char × List Char
  | sign :: rest =>
    if (mantissa.getLast? == some 'e' || mantissa.getLast? == some 'E') &&
        (sign == '+' || sign == '-') && headIs Char.isDigit rest then
      (sign :: (numeralRun rest).1, (numeralRun rest).2)
    else ([], sign :: rest)
  | [] => ([], [])

theorem exponent_append (mantissa cs : List Char) :
    (exponent mantissa cs).1 ++ (exponent mantissa cs).2 = cs := by
  unfold exponent
  split
  · split <;> simp [numeralRun_append]
  · rfl

/-- A number: digits, a fraction, an exponent, each of the three possibly missing. -/
def number (cs : List Char) : List Char × List Char :=
  let whole := numeralRun cs
  let part := fraction whole.2
  let power := exponent (whole.1 ++ part.1) part.2
  (whole.1 ++ part.1 ++ power.1, power.2)

theorem number_append (cs : List Char) : (number cs).1 ++ (number cs).2 = cs := by
  simp [number, exponent_append, fraction_append, numeralRun_append]

/-! ### Comments -/

/-- A comment that runs to the end of its line, or to a closing tag on it. -/
def lineComment : List Char → List Char × List Char
  | [] => ([], [])
  | '\n' :: rest => ([], '\n' :: rest)
  | '?' :: '>' :: rest => ([], '?' :: '>' :: rest)
  | c :: rest => (c :: (lineComment rest).1, (lineComment rest).2)

theorem lineComment_append (cs : List Char) : (lineComment cs).1 ++ (lineComment cs).2 = cs := by
  fun_induction lineComment cs with
  | case4 c rest _ _ ih => simp [ih]
  | _ => rfl

/-- Through the first `*/`. -/
def throughCommentEnd : List Char → Option (List Char × List Char)
  | [] => none
  | '*' :: '/' :: rest => some (['*', '/'], rest)
  | c :: rest => (throughCommentEnd rest).map fun cut => (c :: cut.1, cut.2)

theorem throughCommentEnd_append {cs : List Char} {cut : List Char × List Char}
    (h : throughCommentEnd cs = some cut) : cut.1 ++ cut.2 = cs := by
  fun_induction throughCommentEnd cs generalizing cut with
  | case1 => simp at h
  | case2 rest => simp at h; simp [← h]
  | case3 c rest _ ih =>
    obtain ⟨cut, hc, rfl⟩ := Option.map_eq_some_iff.1 h
    simp [ih hc]

/-- A block comment that documents what follows opens with two stars and a blank. -/
def documents : List Char → Bool
  | '/' :: '*' :: '*' :: c :: _ => isBlank c
  | _ => false

/-! ### Literals -/

/-- The rest of a literal without interpolation, through its closing quote. A backslash takes the
character after it along. -/
def throughQuote : List Char → Option (List Char × List Char)
  | [] => none
  | '\'' :: rest => some (['\''], rest)
  | '\\' :: c :: rest => (throughQuote rest).map fun cut => ('\\' :: c :: cut.1, cut.2)
  | c :: rest => (throughQuote rest).map fun cut => (c :: cut.1, cut.2)

theorem throughQuote_append {cs : List Char} {cut : List Char × List Char}
    (h : throughQuote cs = some cut) : cut.1 ++ cut.2 = cs := by
  fun_induction throughQuote cs generalizing cut with
  | case1 => simp at h
  | case2 rest => simp at h; simp [← h]
  | case3 c rest ih =>
    obtain ⟨cut, hc, rfl⟩ := Option.map_eq_some_iff.1 h
    simp [ih hc]
  | case4 c rest _ _ ih =>
    obtain ⟨cut, hc, rfl⟩ := Option.map_eq_some_iff.1 h
    simp [ih hc]

/-- The mark that opens an interpolation, if the text begins with one. -/
def opener : List Char → Option (List Char × List Char)
  | '{' :: '$' :: rest => some (['{'], '$' :: rest)
  | '$' :: '{' :: rest => some (['$', '{'], rest)
  | _ => none

theorem opener_append {cs : List Char} {cut : List Char × List Char} (h : opener cs = some cut) :
    cut.1 ++ cut.2 = cs := by
  unfold opener at h
  split at h <;> simp at h <;> simp [← h]

/-- A stretch of the text of a literal. -/
structure Stretch where
  text : List Char
  rest : List Char
  /-- The literal ends with this stretch; if not, an interpolation follows. -/
  closed : Bool
  deriving Repr

def Stretch.cons (c : Char) (s : Stretch) : Stretch := {s with text := c :: s.text}

/-- Text inside a quoted literal up to an interpolation, or through the closing quote. A backslash
takes the next character along unless that is an opening brace. -/
def quotedStretch (quote : Char) : List Char → Option Stretch
  | [] => none
  | c :: rest =>
    if c = quote then some ⟨[c], rest, true⟩
    else if c = '\\' then
      match rest with
      | [] => none
      | '{' :: more => (quotedStretch quote ('{' :: more)).map (.cons c)
      | escaped :: more => (quotedStretch quote more).map fun s => .cons c (.cons escaped s)
    else if (opener (c :: rest)).isSome then some ⟨[], c :: rest, false⟩
    else (quotedStretch quote rest).map (.cons c)
termination_by cs => cs.length

/-- What `quotedStretch` reads, one case for each thing that may stand in front. -/
inductive QuotedText (quote : Char) : List Char → Stretch → Prop
  | closing {rest : List Char} : QuotedText quote (quote :: rest) ⟨[quote], rest, true⟩
  | escapedBrace {rest : List Char} {s : Stretch} (hquote : '\\' ≠ quote)
      (h : QuotedText quote ('{' :: rest) s) : QuotedText quote ('\\' :: '{' :: rest) (s.cons '\\')
  | escaped {c : Char} {rest : List Char} {s : Stretch} (hquote : '\\' ≠ quote) (hc : c ≠ '{')
      (h : QuotedText quote rest s) : QuotedText quote ('\\' :: c :: rest) ((s.cons c).cons '\\')
  | opening {c : Char} {rest : List Char} (hquote : c ≠ quote)
      (ho : (opener (c :: rest)).isSome = true) : QuotedText quote (c :: rest) ⟨[], c :: rest, false⟩
  | plain {c : Char} {rest : List Char} {s : Stretch} (hquote : c ≠ quote) (hslash : c ≠ '\\')
      (ho : (opener (c :: rest)).isSome = false) (h : QuotedText quote rest s) :
      QuotedText quote (c :: rest) (s.cons c)

theorem QuotedText.of_quotedStretch {quote : Char} {cs : List Char} {s : Stretch}
    (h : quotedStretch quote cs = some s) : QuotedText quote cs s := by
  fun_induction quotedStretch quote cs generalizing s with
  | case1 => cases h
  | case2 rest =>
    cases h
    exact .closing
  | case3 => cases h
  | case4 more hquote ih =>
    obtain ⟨s, hs, rfl⟩ := Option.map_eq_some_iff.1 h
    exact .escapedBrace hquote (ih hs)
  | case5 c more hc hquote ih =>
    obtain ⟨s, hs, rfl⟩ := Option.map_eq_some_iff.1 h
    exact .escaped hquote (fun h => hc h) (ih hs)
  | case6 c rest hquote _ ho =>
    cases h
    exact .opening hquote ho
  | case7 c rest hquote hslash ho ih =>
    obtain ⟨s, hs, rfl⟩ := Option.map_eq_some_iff.1 h
    exact .plain hquote hslash (Bool.eq_false_iff.2 ho) (ih hs)

theorem quotedStretch_append {quote : Char} {cs : List Char} {s : Stretch}
    (h : quotedStretch quote cs = some s) : s.text ++ s.rest = cs := by
  replace h := QuotedText.of_quotedStretch h
  induction h with
  | closing => rfl
  | opening => rfl
  | escapedBrace _ _ ih => simpa [Stretch.cons] using ih
  | escaped _ _ _ ih => simpa [Stretch.cons] using ih
  | plain _ _ _ _ ih => simpa [Stretch.cons] using ih

/-! ### Heredocs -/

def isIndent (c : Char) : Bool := c == ' ' || c == '\t'

/-- The first line of a heredoc. -/
structure HeredocHeader where
  text : List Char
  rest : List Char
  label : List Char
  /-- The label stands in single quotes, so the body is taken as it is. -/
  verbatim : Bool
  deriving Repr

/-- A line end, `\n` or `\r\n`. -/
def lineEnd : List Char → Option (List Char × List Char)
  | '\r' :: '\n' :: rest => some (['\r', '\n'], rest)
  | '\n' :: rest => some (['\n'], rest)
  | _ => none

theorem lineEnd_append {cs : List Char} {cut : List Char × List Char} (h : lineEnd cs = some cut) :
    cut.1 ++ cut.2 = cs := by
  unfold lineEnd at h
  split at h <;> simp at h <;> simp [← h]

/-- The quote around a heredoc's label, if any. -/
def labelQuote : List Char → List Char × List Char
  | '\'' :: rest => (['\''], rest)
  | '"' :: rest => (['"'], rest)
  | cs => ([], cs)

theorem labelQuote_append (cs : List Char) : (labelQuote cs).1 ++ (labelQuote cs).2 = cs := by
  unfold labelQuote
  split <;> rfl

/-- What follows `<<<`: blanks, a label with or without quotes, and the end of the line. -/
def heredocHeader (cs : List Char) : Option HeredocHeader :=
  let indent := cs.takeWhile isIndent
  let quote := labelQuote (cs.dropWhile isIndent)
  let label := quote.2.takeWhile isNameChar
  let after := quote.2.dropWhile isNameChar
  if headIs isNameStart quote.2 && quote.1.isPrefixOf after then
    (lineEnd (after.drop quote.1.length)).map fun cut =>
      ⟨'<' :: '<' :: '<' :: indent ++ quote.1 ++ label ++ quote.1 ++ cut.1, cut.2, label,
        quote.1 == ['\'']⟩
  else none

theorem heredocHeader_append {cs : List Char} {header : HeredocHeader}
    (h : heredocHeader cs = some header) :
    header.text ++ header.rest = '<' :: '<' :: '<' :: cs := by
  simp only [heredocHeader] at h
  split at h
  · rename_i hq
    obtain ⟨cut, hcut, rfl⟩ := Option.map_eq_some_iff.1 h
    simp only [Bool.and_eq_true, List.isPrefixOf_iff_prefix] at hq
    obtain ⟨after, hafter⟩ := hq.2
    have hend := lineEnd_append hcut
    rw [← hafter, List.drop_left] at hend
    have hquote := labelQuote_append (cs.dropWhile isIndent)
    simp only [List.append_assoc, List.cons_append, hend, hafter, List.takeWhile_append_dropWhile,
      hquote]
  · simp at h

/-- The closing label of a heredoc at the start of a line: blanks, then the label as a whole word. -/
def closingLabel (label cs : List Char) : Option (List Char × List Char) :=
  let after := cs.dropWhile isIndent
  if label.isPrefixOf after && !headIs isNameChar (after.drop label.length) then
    some (cs.takeWhile isIndent ++ label, after.drop label.length)
  else none

theorem closingLabel_append {label cs : List Char} {cut : List Char × List Char}
    (h : closingLabel label cs = some cut) : cut.1 ++ cut.2 = cs := by
  simp only [closingLabel] at h
  split at h
  · rename_i hl
    simp only [Bool.and_eq_true, List.isPrefixOf_iff_prefix] at hl
    obtain ⟨after, hafter⟩ := hl.1
    simp only [Option.some.injEq] at h
    rw [← h, List.append_assoc, ← hafter, List.drop_left, hafter, List.takeWhile_append_dropWhile]
  · simp at h

/-- Text of a heredoc's body up to an interpolation, or through the closing label. `fresh` says that
a line begins here; only there may the closing label stand. -/
def heredocStretch (label : List Char) (verbatim : Bool) (fresh : Bool) (cs : List Char) :
    Option Stretch :=
  match if fresh then closingLabel label cs else none with
  | some cut => some ⟨cut.1, cut.2, true⟩
  | none =>
    match cs with
    | [] => none
    | '\n' :: rest => (heredocStretch label verbatim true rest).map (.cons '\n')
    | c :: rest =>
      if !verbatim && c == '\\' then
        match rest with
        | [] => none
        | escaped :: more =>
          if escaped == '{' || escaped == '\n' then
            (heredocStretch label verbatim false (escaped :: more)).map (.cons c)
          else
            (heredocStretch label verbatim false more).map fun s => .cons c (.cons escaped s)
      else if !verbatim && (opener (c :: rest)).isSome then some ⟨[], c :: rest, false⟩
      else (heredocStretch label verbatim false rest).map (.cons c)
termination_by cs.length

/-- What `heredocStretch` reads, one case for each thing that may stand in front where the closing
label does not. -/
inductive HeredocText (label : List Char) (verbatim : Bool) : Bool → List Char → Stretch → Prop
  | closing {cs : List Char} {cut : List Char × List Char} (h : closingLabel label cs = some cut) :
      HeredocText label verbatim true cs ⟨cut.1, cut.2, true⟩
  | newline {fresh : Bool} {rest : List Char} {s : Stretch}
      (hlabel : fresh = true → closingLabel label ('\n' :: rest) = none)
      (h : HeredocText label verbatim true rest s) :
      HeredocText label verbatim fresh ('\n' :: rest) (s.cons '\n')
  | escapedMark {fresh : Bool} {c : Char} {rest : List Char} {s : Stretch}
      (hlabel : fresh = true → closingLabel label ('\\' :: c :: rest) = none)
      (hverbatim : verbatim = false) (hc : c = '{' ∨ c = '\n')
      (h : HeredocText label verbatim false (c :: rest) s) :
      HeredocText label verbatim fresh ('\\' :: c :: rest) (s.cons '\\')
  | escaped {fresh : Bool} {c : Char} {rest : List Char} {s : Stretch}
      (hlabel : fresh = true → closingLabel label ('\\' :: c :: rest) = none)
      (hverbatim : verbatim = false) (hc : ¬ (c = '{' ∨ c = '\n'))
      (h : HeredocText label verbatim false rest s) :
      HeredocText label verbatim fresh ('\\' :: c :: rest) ((s.cons c).cons '\\')
  | opening {fresh : Bool} {cs : List Char} (hlabel : fresh = true → closingLabel label cs = none)
      (hverbatim : verbatim = false) (ho : (opener cs).isSome = true) :
      HeredocText label verbatim fresh cs ⟨[], cs, false⟩
  | plain {fresh : Bool} {c : Char} {rest : List Char} {s : Stretch}
      (hlabel : fresh = true → closingLabel label (c :: rest) = none) (hline : c ≠ '\n')
      (hslash : verbatim = false → c ≠ '\\')
      (ho : verbatim = false → (opener (c :: rest)).isSome = false)
      (h : HeredocText label verbatim false rest s) :
      HeredocText label verbatim fresh (c :: rest) (s.cons c)

theorem HeredocText.of_heredocStretch {label : List Char} {verbatim fresh : Bool} {cs : List Char}
    {s : Stretch} (h : heredocStretch label verbatim fresh cs = some s) :
    HeredocText label verbatim fresh cs s := by
  fun_induction heredocStretch label verbatim fresh cs generalizing s with
  | case1 fresh cs cut hcut =>
    cases h
    cases fresh with
    | false => cases hcut
    | true => exact .closing hcut
  | case2 => cases h
  | case3 fresh rest hlabel ih =>
    obtain ⟨s, hs, rfl⟩ := Option.map_eq_some_iff.1 h
    exact .newline (by rintro rfl; exact hlabel) (ih hs)
  | case4 => cases h
  | case5 fresh c hline hslash escaped more hescaped hlabel ih =>
    obtain ⟨s, hs, rfl⟩ := Option.map_eq_some_iff.1 h
    obtain ⟨hverbatim, rfl⟩ : verbatim = false ∧ c = '\\' := by simpa using hslash
    exact .escapedMark (by rintro rfl; exact hlabel) hverbatim (by simpa using hescaped) (ih hs)
  | case6 fresh c hline hslash escaped more hescaped hlabel ih =>
    obtain ⟨s, hs, rfl⟩ := Option.map_eq_some_iff.1 h
    obtain ⟨hverbatim, rfl⟩ : verbatim = false ∧ c = '\\' := by simpa using hslash
    exact .escaped (by rintro rfl; exact hlabel) hverbatim (by simpa using hescaped) (ih hs)
  | case7 fresh c rest hline hslash ho hlabel =>
    cases h
    obtain ⟨hverbatim, ho⟩ : verbatim = false ∧ (opener (c :: rest)).isSome = true := by simpa using ho
    exact .opening (by rintro rfl; exact hlabel) hverbatim ho
  | case8 fresh c rest hline hslash ho hlabel ih =>
    obtain ⟨s, hs, rfl⟩ := Option.map_eq_some_iff.1 h
    exact .plain (by rintro rfl; exact hlabel) hline (by simpa using hslash) (by simpa using ho) (ih hs)

theorem heredocStretch_append {label : List Char} {verbatim fresh : Bool} {cs : List Char}
    {s : Stretch} (h : heredocStretch label verbatim fresh cs = some s) :
    s.text ++ s.rest = cs := by
  replace h := HeredocText.of_heredocStretch h
  induction h with
  | closing hcut => exact closingLabel_append hcut
  | opening => rfl
  | newline _ _ ih => simpa [Stretch.cons] using ih
  | escapedMark _ _ _ _ ih => simpa [Stretch.cons] using ih
  | escaped _ _ _ _ ih => simpa [Stretch.cons] using ih
  | plain _ _ _ _ _ ih => simpa [Stretch.cons] using ih

/-! ### Text outside code -/

/-- The tag that opens code, with the one blank or line end that belongs to it. -/
def openTag : List Char → Option (List Char × List Char)
  | '<' :: '?' :: '=' :: rest => some (['<', '?', '='], rest)
  | '<' :: '?' :: p :: h :: q :: rest =>
    if spells "php" [p, h, q] then
      match rest with
      | [] => some (['<', '?', p, h, q], [])
      | '\r' :: '\n' :: more => some (['<', '?', p, h, q, '\r', '\n'], more)
      | c :: more => if isBlank c then some (['<', '?', p, h, q, c], more) else none
    else none
  | _ => none

theorem openTag_append {cs : List Char} {cut : List Char × List Char} (h : openTag cs = some cut) :
    cut.1 ++ cut.2 = cs := by
  unfold openTag at h
  repeat' split at h
  all_goals simp at h
  all_goals simp [← h]

/-- Text up to an open tag, or all of it. -/
def inlineText : List Char → List Char × List Char
  | [] => ([], [])
  | c :: rest =>
    if (openTag (c :: rest)).isSome then ([], c :: rest)
    else (c :: (inlineText rest).1, (inlineText rest).2)

theorem inlineText_append (cs : List Char) : (inlineText cs).1 ++ (inlineText cs).2 = cs := by
  fun_induction inlineText cs with
  | case3 c rest _ ih => simp [ih]
  | _ => rfl

/-- The tag that closes code, with a line end right after it. -/
def closeTag (rest : List Char) : List Char × List Char :=
  match lineEnd rest with
  | some cut => ('?' :: '>' :: cut.1, cut.2)
  | none => (['?', '>'], rest)

theorem closeTag_append (rest : List Char) :
    (closeTag rest).1 ++ (closeTag rest).2 = '?' :: '>' :: rest := by
  unfold closeTag
  split
  · rename_i cut h; simp [lineEnd_append h]
  · rfl

end PluginShading.Source
