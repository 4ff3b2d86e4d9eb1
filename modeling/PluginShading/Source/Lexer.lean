import PluginShading.Source.Token
import PluginShading.Source.Lexeme

/-!
The lexer, as a machine with a stack.

Literals may hold interpolated code, and that code may hold literals again. What is open is a stack of
`Level`s: the stretches of text of a quoted literal or a heredoc alternate with the code of an
interpolation. `Machine.next` reads one token, which decides the next machine; `next_reads` says that
the token and the rest are the text before, so a run divides its input and ends.

An interpolation ends at a closing brace that matches no brace opened in it. The count is kept by
tokens: every `{` and `}` read while an interpolation is open counts for it, also those that open and
close an interpolation further in, except that `${` counts for nothing.
-/
namespace PluginShading.Source

/-- Why a text cannot be divided into tokens. Each cause has the line on which the construct that is
left open begins; the first line is 1. -/
inductive LexError
  | unterminatedString (line : Nat)
  | unterminatedComment (line : Nat)
  | unterminatedHeredoc (line : Nat) (label : List Char)
  | invalidHeredoc (line : Nat)
  | unterminatedInterpolation (line : Nat)
  deriving DecidableEq, Repr

namespace LexError

def line : LexError → Nat
  | unterminatedString line | unterminatedComment line | unterminatedHeredoc line _
  | invalidHeredoc line | unterminatedInterpolation line => line

def message : LexError → String
  | unterminatedString line => "unterminated string literal starting on line " ++ toString line
  | unterminatedComment line => "unterminated comment starting on line " ++ toString line
  | unterminatedHeredoc line label =>
    "unterminated heredoc `" ++ String.ofList label ++ "` starting on line " ++ toString line
  | invalidHeredoc line => "invalid heredoc header on line " ++ toString line
  | unterminatedInterpolation line =>
    "unterminated string interpolation starting on line " ++ toString line

/-- The name under which diagnostics list the error. -/
def code : LexError → String
  | unterminatedString _ => "shadepack::lex::unterminated_string"
  | unterminatedComment _ => "shadepack::lex::unterminated_comment"
  | unterminatedHeredoc _ _ => "shadepack::lex::unterminated_heredoc"
  | invalidHeredoc _ => "shadepack::lex::invalid_heredoc"
  | unterminatedInterpolation _ => "shadepack::lex::unterminated_interpolation"

end LexError

/-! ### One token of code -/

/-- Operators of more than one character; the first that fits is read. -/
def operators : List (List Char) :=
  ["<=>", "===", "!==", "**=", "...", "<<=", ">>=", "??=", "?->", "->", "=>", "::", "==", "!=", "<>",
   "<=", ">=", "&&", "||", "??", "++", "--", "+=", "-=", "*=", "/=", ".=", "%=", "&=", "|=", "^=",
   "<<", ">>", "**"].map String.toList

/-- `enum` opens a declaration where blanks and a name follow that is no clause of one. -/
def enumDeclares (rest : List Char) : Bool :=
  let after := rest.dropWhile isBlank
  let word := after.takeWhile isNameChar
  headIs isBlank rest && headIs isNameStart after && !spells "extends" word &&
    !spells "implements" word

/-- After an arrow, a double colon or `function` any word is the name of a member. -/
def namesMember : Option Token → Bool
  | none => false
  | some t =>
    t.text == ['-', '>'] || t.text == ['?', '-', '>'] || t.text == [':', ':'] ||
      t.isKeyword .functionWord

/-- The kind of a word: `segments` are its further segments, `rest` is the text after it. -/
def wordKind (last : Option Token) (word segments rest : List Char) : TokenKind :=
  if !segments.isEmpty then
    if spells "namespace" word then .other else .qualifiedName
  else if namesMember last then .identifier
  else if spells "enum" word then
    if enumDeclares rest then .keyword .enumWord else .identifier
  else match Keyword.ofWord? word with
    | some keyword => .keyword keyword
    | none => .identifier

/-- What a literal leaves open behind its first stretch of text. -/
inductive Level
  /-- Inside a literal with this quote, opened on this line. -/
  | quoted (quote : Char) (line : Nat)
  /-- Inside a heredoc with this label, opened on this line. -/
  | heredoc (label : List Char) (line : Nat)
  /-- Inside interpolated code with this many braces open, opened on this line. -/
  | interpolation (depth line : Nat)
  deriving DecidableEq, Repr

/-- One token read: the token, the text after it, and what it changes. -/
structure Reading where
  token : Token
  rest : List Char
  /-- Code ends with this token. -/
  closesCode : Bool := false
  /-- A literal begins with this token and does not end with it. -/
  opens : Option Level := none
  deriving Repr

def Reading.plain (kind : TokenKind) (cut : List Char × List Char) : Reading := ⟨⟨kind, cut.1⟩, cut.2, false, none⟩

/-- The first stretch of a literal after its opening mark. -/
def Reading.literal (mark : List Char) (level : Level) (s : Stretch) : Reading :=
  ⟨⟨.other, mark ++ s.text⟩, s.rest, false, if s.closed then none else some level⟩

@[simp] theorem Reading.plain_closesCode (kind : TokenKind) (cut : List Char × List Char) :
    (Reading.plain kind cut).closesCode = false := rfl

@[simp] theorem Reading.plain_opens (kind : TokenKind) (cut : List Char × List Char) :
    (Reading.plain kind cut).opens = none := rfl

@[simp] theorem Reading.literal_closesCode (mark : List Char) (level : Level) (s : Stretch) :
    (Reading.literal mark level s).closesCode = false := rfl

/-- A literal stays open where its first stretch does not end it. -/
@[simp] theorem Reading.literal_opens_eq_some {mark : List Char} {level top : Level} {s : Stretch} :
    (Reading.literal mark level s).opens = some top ↔ s.closed = false ∧ top = level := by
  cases hs : s.closed <;> simp [Reading.literal, hs, eq_comm]

def commentKind (comment : List Char) : TokenKind :=
  if documents comment then .docComment else .comment

/-- An operator, or a single character. -/
def readMark (c : Char) (rest : List Char) : Reading :=
  match operators.find? (·.isPrefixOf (c :: rest)) with
  | some op => .plain .other (op, (c :: rest).drop op.length)
  | none => .plain .punctuation ([c], rest)

@[simp] theorem readMark_closesCode (c : Char) (rest : List Char) : (readMark c rest).closesCode = false := by
  unfold readMark
  split <;> rfl

@[simp] theorem readMark_opens (c : Char) (rest : List Char) : (readMark c rest).opens = none := by
  unfold readMark
  split <;> rfl

/-- A word with the segments after it. -/
def readWord (last : Option Token) (cs : List Char) : Reading :=
  let word := cs.takeWhile isNameChar
  let segments := nameSegments (cs.dropWhile isNameChar)
  .plain (wordKind last word segments.1 segments.2) (word ++ segments.1, segments.2)

@[simp] theorem readWord_closesCode (last : Option Token) (cs : List Char) :
    (readWord last cs).closesCode = false := rfl

@[simp] theorem readWord_opens (last : Option Token) (cs : List Char) : (readWord last cs).opens = none := rfl

def readHeredoc (line : Nat) (rest : List Char) : Except LexError Reading :=
  match heredocHeader rest with
  | none => .error (.invalidHeredoc line)
  | some header =>
    match heredocStretch header.label header.verbatim true header.rest with
    | none => .error (.unterminatedHeredoc line header.label)
    | some stretch => .ok (.literal header.text (.heredoc header.label line) stretch)

/-- One token of code, which begins with `c` on `line`; `last` is the last significant token. -/
def readCode (last : Option Token) (line : Nat) (c : Char) (rest : List Char) :
    Except LexError Reading :=
  if isBlank c then
    .ok (.plain .whitespace (c :: rest.takeWhile isBlank, rest.dropWhile isBlank))
  else match c, rest with
  | '#', '[' :: more => .ok (.plain .other (['#', '['], more))
  | '#', rest => .ok (.plain .comment ('#' :: (lineComment rest).1, (lineComment rest).2))
  | '/', '/' :: more =>
    .ok (.plain .comment ('/' :: '/' :: (lineComment more).1, (lineComment more).2))
  | '/', '*' :: more =>
    match throughCommentEnd more with
    | none => .error (.unterminatedComment line)
    | some cut =>
      .ok (.plain (commentKind ('/' :: '*' :: cut.1)) ('/' :: '*' :: cut.1, cut.2))
  | '?', '>' :: more => .ok {Reading.plain .other (closeTag more) with closesCode := true}
  | '\'', rest =>
    match throughQuote rest with
    | none => .error (.unterminatedString line)
    | some cut => .ok (.plain .other ('\'' :: cut.1, cut.2))
  | '<', '<' :: '<' :: more => readHeredoc line more
  | c, rest =>
    if c == '"' || c == '\u0060' then
      match quotedStretch c rest with
      | none => .error (.unterminatedString line)
      | some stretch => .ok (.literal [c] (.quoted c line) stretch)
    else if c == '$' && headIs isNameStart rest then
      .ok (.plain .other ('$' :: rest.takeWhile isNameChar, rest.dropWhile isNameChar))
    else if c == '\\' && headIs isNameStart rest then
      .ok (.plain .fullyQualifiedName (nameSegments (c :: rest)))
    else if isNameStart c then .ok (readWord last (c :: rest))
    else if c.isDigit || (c == '.' && headIs Char.isDigit rest) then
      .ok (.plain .other (number (c :: rest)))
    else .ok (readMark c rest)

/-! ### What a token of code is -/

/-- The marks with which a comment, a literal or a tag begins, and no other token of code. -/
def openings : List (List Char) := ["#", "//", "/*", "?>", "'", "<<<"].map String.toList

/-- A token that begins with none of the openings. -/
def readPlain (last : Option Token) (line : Nat) (c : Char) (rest : List Char) :
    Except LexError Reading :=
  if c == '"' || c == '\u0060' then
    match quotedStretch c rest with
    | none => .error (.unterminatedString line)
    | some stretch => .ok (.literal [c] (.quoted c line) stretch)
  else if c == '$' && headIs isNameStart rest then
    .ok (.plain .other ('$' :: rest.takeWhile isNameChar, rest.dropWhile isNameChar))
  else if c == '\\' && headIs isNameStart rest then
    .ok (.plain .fullyQualifiedName (nameSegments (c :: rest)))
  else if isNameStart c then .ok (readWord last (c :: rest))
  else if c.isDigit || (c == '.' && headIs Char.isDigit rest) then
    .ok (.plain .other (number (c :: rest)))
  else .ok (readMark c rest)

theorem readCode_eq_readPlain {last : Option Token} {line : Nat} {c : Char} {rest : List Char}
    (hblank : isBlank c = false) (ho : ∀ o ∈ openings, ¬ o <+: c :: rest) :
    readCode last line c rest = readPlain last line c rest := by
  have hno : ∀ o x, o ∈ openings → c :: rest ≠ o ++ x := fun o x hmem h => ho o hmem ⟨x, h.symm⟩
  unfold readCode
  rw [hblank]
  simp only [Bool.false_eq_true, if_false]
  split
  · exact absurd rfl (hno ['#'] _ (by decide))
  · exact absurd rfl (hno ['#'] _ (by decide))
  · exact absurd rfl (hno ['/', '/'] _ (by decide))
  · exact absurd rfl (hno ['/', '*'] _ (by decide))
  · exact absurd rfl (hno ['?', '>'] _ (by decide))
  · exact absurd rfl (hno ['\''] _ (by decide))
  · exact absurd rfl (hno ['<', '<', '<'] _ (by decide))
  · rfl

/-- No literal, name or number begins at `c`. -/
structure IsMarkAt (c : Char) (rest : List Char) : Prop where
  quote : ¬ (c = '"' ∨ c = '\u0060')
  sigil : c = '$' ∨ c = '\\' → headIs isNameStart rest = false
  name : isNameStart c = false
  digit : c.isDigit = false
  point : c = '.' → headIs Char.isDigit rest = false

/-- What `readPlain` reads, one case for each kind of token. -/
inductive PlainReading (last : Option Token) (line : Nat) : Char → List Char → Reading → Prop
  | quoted {c : Char} {rest : List Char} {s : Stretch} (hquote : c = '"' ∨ c = '\u0060')
      (hs : quotedStretch c rest = some s) :
      PlainReading last line c rest (.literal [c] (.quoted c line) s)
  | dollar {rest : List Char} (hname : headIs isNameStart rest = true) :
      PlainReading last line '$' rest
        (.plain .other ('$' :: rest.takeWhile isNameChar, rest.dropWhile isNameChar))
  | separator {rest : List Char} (hname : headIs isNameStart rest = true) :
      PlainReading last line '\\' rest (.plain .fullyQualifiedName (nameSegments ('\\' :: rest)))
  | word {c : Char} {rest : List Char} (hc : isNameStart c = true) :
      PlainReading last line c rest (readWord last (c :: rest))
  | number {c : Char} {rest : List Char}
      (hc : c.isDigit = true ∨ c = '.' ∧ headIs Char.isDigit rest = true) :
      PlainReading last line c rest (.plain .other (number (c :: rest)))
  | mark {c : Char} {rest : List Char} (hc : IsMarkAt c rest) :
      PlainReading last line c rest (readMark c rest)

/-- What `readCode` reads, one case for each opening. -/
inductive CodeReading (last : Option Token) (line : Nat) : Char → List Char → Reading → Prop
  | blanks {c : Char} {rest : List Char} (hc : isBlank c = true) :
      CodeReading last line c rest
        (.plain .whitespace (c :: rest.takeWhile isBlank, rest.dropWhile isBlank))
  | attributes {rest : List Char} :
      CodeReading last line '#' ('[' :: rest) (.plain .other (['#', '['], rest))
  | hashComment {rest : List Char} (hrest : headIs (· == '[') rest = false) :
      CodeReading last line '#' rest
        (.plain .comment ('#' :: (lineComment rest).1, (lineComment rest).2))
  | slashComment {rest : List Char} :
      CodeReading last line '/' ('/' :: rest)
        (.plain .comment ('/' :: '/' :: (lineComment rest).1, (lineComment rest).2))
  | blockComment {rest : List Char} {cut : List Char × List Char}
      (hcut : throughCommentEnd rest = some cut) :
      CodeReading last line '/' ('*' :: rest)
        (.plain (commentKind ('/' :: '*' :: cut.1)) ('/' :: '*' :: cut.1, cut.2))
  | closeTag {rest : List Char} :
      CodeReading last line '?' ('>' :: rest)
        {Reading.plain .other (closeTag rest) with closesCode := true}
  | verbatim {rest : List Char} {cut : List Char × List Char} (hcut : throughQuote rest = some cut) :
      CodeReading last line '\'' rest (.plain .other ('\'' :: cut.1, cut.2))
  | heredoc {rest : List Char} {header : HeredocHeader} {s : Stretch}
      (hheader : heredocHeader rest = some header)
      (hs : heredocStretch header.label header.verbatim true header.rest = some s) :
      CodeReading last line '<' ('<' :: '<' :: rest)
        (.literal header.text (.heredoc header.label line) s)
  | plain {c : Char} {rest : List Char} {r : Reading} (hblank : isBlank c = false)
      (hopening : ∀ o ∈ openings, ¬ o <+: c :: rest) (h : PlainReading last line c rest r) :
      CodeReading last line c rest r

theorem exists_of_headIs_eq {d : Char} {cs : List Char} (h : headIs (· == d) cs = true) :
    ∃ rest, cs = d :: rest := by
  cases cs with
  | nil => cases h
  | cons c rest => exact ⟨rest, by rw [show c = d by simpa [headIs] using h]⟩

theorem PlainReading.of_readPlain {last : Option Token} {line : Nat} {c : Char} {rest : List Char}
    {r : Reading} (h : readPlain last line c rest = .ok r) : PlainReading last line c rest r := by
  unfold readPlain at h
  split at h
  · rename_i hquote
    split at h
    · cases h
    · rename_i s hs
      cases h
      exact .quoted (by simpa using hquote) hs
  rename_i hquote
  split at h
  · rename_i hdollar
    cases h
    obtain ⟨rfl, hname⟩ : c = '$' ∧ headIs isNameStart rest = true := by simpa using hdollar
    exact .dollar hname
  rename_i hdollar
  split at h
  · rename_i hseparator
    cases h
    obtain ⟨rfl, hname⟩ : c = '\\' ∧ headIs isNameStart rest = true := by simpa using hseparator
    exact .separator hname
  rename_i hseparator
  split at h
  · rename_i hname
    cases h
    exact .word hname
  rename_i hname
  split at h
  · rename_i hnumber
    cases h
    exact .number (by simpa using hnumber)
  · rename_i hnumber
    cases h
    simp only [Bool.and_eq_true, Bool.or_eq_true, beq_iff_eq, not_and, not_or, Bool.not_eq_true] at *
    exact .mark ⟨not_or.2 hquote, fun hc => hc.elim hdollar hseparator, hname, hnumber.1, hnumber.2⟩

theorem CodeReading.of_readCode {last : Option Token} {line : Nat} {c : Char} {rest : List Char}
    {r : Reading} (h : readCode last line c rest = .ok r) : CodeReading last line c rest r := by
  unfold readCode at h
  split at h
  · rename_i hblank
    cases h
    exact .blanks hblank
  rename_i hblank
  split at h
  · cases h
    exact .attributes
  · rename_i hattribute
    cases h
    refine .hashComment (Bool.eq_false_iff.2 fun hhead => ?_)
    obtain ⟨more, hmore⟩ := exists_of_headIs_eq hhead
    exact hattribute more hmore
  · cases h
    exact .slashComment
  · split at h
    · cases h
    · cases h
      exact .blockComment ‹_›
  · cases h
    exact .closeTag
  · split at h
    · cases h
    · cases h
      exact .verbatim ‹_›
  · unfold readHeredoc at h
    split at h
    · cases h
    · split at h
      · cases h
      · cases h
        exact .heredoc ‹_› ‹_›
  · rename_i hhash hquote _ hslash hblock htag hheredoc
    refine .plain (Bool.eq_false_iff.2 hblank) ?_ (.of_readPlain h)
    rintro o ho ⟨x, hx⟩
    simp only [openings, List.map_cons, List.map_nil, List.mem_cons, List.not_mem_nil, or_false] at ho
    rcases ho with rfl | rfl | rfl | rfl | rfl | rfl <;> cases hx
    · exact hhash rfl
    · exact hslash _ rfl rfl
    · exact hblock _ rfl rfl
    · exact htag _ rfl rfl
    · exact hquote rfl
    · exact hheredoc _ rfl rfl

/-! ### The machine -/

/-- A lexer at work. -/
structure Machine where
  rest : List Char
  /-- The line on which `rest` begins; the first is 1. -/
  line : Nat
  /-- What follows is text outside code. It takes effect once nothing is open. -/
  outside : Bool
  stack : List Level
  /-- The last significant token. -/
  last : Option Token
  deriving Repr

/-- A source begins as text outside code. -/
def Machine.start (source : List Char) : Machine := ⟨source, 1, true, [], none⟩

/-- A brace counts for every interpolation that is open when it is read. -/
def Level.count (t : Token) : Level → Level
  | .interpolation depth line =>
    if t.isPunctuation ['{'] then .interpolation (depth + 1) line
    else if t.isPunctuation ['}'] then .interpolation (depth - 1) line
    else .interpolation depth line
  | level => level

namespace Machine

/-- The machine behind a token, with this much of the stack left and `opened` on top of it. -/
def pass (m : Machine) (t : Token) (rest : List Char) (left : List Level) (opened : Option Level) :
    Machine :=
  { m with
    rest := rest
    line := m.line + t.newlines
    stack := opened.toList ++ left.map (Level.count t)
    last := if t.significant then some t else m.last }

def readCode (m : Machine) (c : Char) (rest : List Char) : Except LexError (Option (Token × Machine)) :=
  match Source.readCode m.last m.line c rest with
  | .error e => .error e
  | .ok r =>
    .ok (some (r.token,
      {m.pass r.token r.rest m.stack r.opens with outside := m.outside || r.closesCode}))

/-- Text outside code, or the tag that ends it. -/
def readOutside (m : Machine) : Token × Machine :=
  match openTag m.rest with
  | some cut =>
    let t : Token := ⟨.openTag, cut.1⟩
    (t, {m.pass t cut.2 m.stack none with outside := false})
  | none =>
    let t : Token := ⟨.other, (inlineText m.rest).1⟩
    (t, m.pass t (inlineText m.rest).2 m.stack none)

/-- The text of the literal on top of `below`. -/
def readText (m : Machine) (level : Level) (below : List Level) (stretch : Option Stretch)
    (unterminated : LexError) : Except LexError (Option (Token × Machine)) :=
  match opener m.rest with
  | some cut =>
    let t : Token := ⟨.punctuation, cut.1⟩
    .ok (some (t, m.pass t cut.2 (level :: below) (some (.interpolation 0 m.line))))
  | none =>
    match stretch with
    | none => .error unterminated
    | some s =>
      let t : Token := ⟨.other, s.text⟩
      .ok (some (t, m.pass t s.rest (if s.closed then below else level :: below) none))

/-- Reads one token; `none` at the end of a text in which nothing is left open. -/
def next (m : Machine) : Except LexError (Option (Token × Machine)) :=
  match m.stack, m.rest with
  | [], [] => .ok none
  | [], c :: rest => if m.outside then .ok (some m.readOutside) else m.readCode c rest
  | .interpolation _ line :: _, [] => .error (.unterminatedInterpolation line)
  | .interpolation depth _ :: below, c :: rest =>
    if depth = 0 ∧ c = '}' then
      let t : Token := ⟨.punctuation, [c]⟩
      .ok (some (t, m.pass t rest below none))
    else m.readCode c rest
  | .quoted quote line :: below, rest =>
    m.readText (.quoted quote line) below (quotedStretch quote rest) (.unterminatedString line)
  | .heredoc label line :: below, rest =>
    m.readText (.heredoc label line) below (heredocStretch label false false rest)
      (.unterminatedHeredoc line label)

end Machine

/-! ### A token is the beginning of the rest -/

theorem ne_nil_of_opener {cs : List Char} {cut : List Char × List Char}
    (h : opener cs = some cut) : cut.1 ≠ [] := by
  unfold opener at h
  split at h <;> simp at h <;> simp [← h]

theorem ne_nil_of_openTag {cs : List Char} {cut : List Char × List Char}
    (h : openTag cs = some cut) : cut.1 ≠ [] := by
  unfold openTag at h
  repeat' split at h
  all_goals simp at h
  all_goals simp [← h]

theorem inlineText_ne_nil {c : Char} {rest : List Char} (h : openTag (c :: rest) = none) :
    (inlineText (c :: rest)).1 ≠ [] := by
  simp [inlineText, h]

/-- A stretch is empty only in front of an interpolation. -/
theorem quotedStretch_ne_nil {quote : Char} {cs : List Char} {s : Stretch}
    (h : quotedStretch quote cs = some s) (ho : opener cs = none) : s.text ≠ [] := by
  cases QuotedText.of_quotedStretch h with
  | opening _ hopen => simp [ho] at hopen
  | _ => simp [Stretch.cons]

theorem heredocStretch_ne_nil {label : List Char} {verbatim : Bool} {cs : List Char} {s : Stretch}
    (h : heredocStretch label verbatim false cs = some s) (ho : opener cs = none) : s.text ≠ [] := by
  cases HeredocText.of_heredocStretch h with
  | opening _ _ hopen => simp [ho] at hopen
  | _ => simp [Stretch.cons]

theorem readMark_append (c : Char) (rest : List Char) :
    (readMark c rest).token.text ++ (readMark c rest).rest = c :: rest := by
  unfold readMark
  split
  · rename_i op h
    have hop : op.isPrefixOf (c :: rest) = true := by simpa using List.find?_some h
    obtain ⟨tail, ht⟩ := List.isPrefixOf_iff_prefix.1 hop
    simp [Reading.plain, ← ht]
  · rfl

theorem operators_ne_nil {op : List Char} (h : op ∈ operators) : op ≠ [] := by
  rintro rfl
  revert h
  decide

theorem readMark_ne_nil (c : Char) (rest : List Char) : (readMark c rest).token.text ≠ [] := by
  unfold readMark
  split
  · rename_i op h
    exact operators_ne_nil (List.mem_of_find?_eq_some h)
  · simp [Reading.plain]

theorem readWord_append (last : Option Token) (cs : List Char) :
    (readWord last cs).token.text ++ (readWord last cs).rest = cs := by
  simp [readWord, Reading.plain, nameSegments_append]

section Reading

variable {last : Option Token} {line : Nat} {c : Char} {rest : List Char} {r : Reading}

theorem PlainReading.append (h : PlainReading last line c rest r) : r.token.text ++ r.rest = c :: rest := by
  cases h with
  | quoted _ hs => simp [Reading.literal, quotedStretch_append hs]
  | dollar => simp [Reading.plain]
  | separator => exact nameSegments_append _
  | word => exact readWord_append last _
  | number => exact number_append _
  | mark => exact readMark_append c rest

theorem readCode_append (h : readCode last line c rest = .ok r) : r.token.text ++ r.rest = c :: rest := by
  cases CodeReading.of_readCode h with
  | blanks => simp [Reading.plain]
  | attributes => rfl
  | hashComment => simp [Reading.plain, lineComment_append]
  | slashComment => simp [Reading.plain, lineComment_append]
  | blockComment hcut => simp [Reading.plain, throughCommentEnd_append hcut]
  | closeTag => exact closeTag_append _
  | verbatim hcut => simp [Reading.plain, throughQuote_append hcut]
  | heredoc hheader hs =>
    simp [Reading.literal, heredocStretch_append hs, heredocHeader_append hheader]
  | plain _ _ h => exact h.append

theorem closeTag_ne_nil (rest : List Char) : (closeTag rest).1 ≠ [] := by
  unfold closeTag
  split <;> simp

theorem nameSegments_ne_nil {rest : List Char} (h : headIs isNameStart rest = true) :
    (nameSegments ('\\' :: rest)).1 ≠ [] := by
  cases rest with
  | nil => simp [headIs] at h
  | cons c rest =>
    have hc : isNameStart c = true := h
    simp [nameSegments, hc]

theorem readWord_ne_nil (last : Option Token) {c : Char} (rest : List Char)
    (h : isNameStart c = true) : (readWord last (c :: rest)).token.text ≠ [] := by
  have hc : isNameChar c = true := by simp [isNameChar, h]
  simp [readWord, Reading.plain, hc]

theorem number_ne_nil {c : Char} {rest : List Char}
    (h : c.isDigit = true ∨ c = '.' ∧ headIs Char.isDigit rest = true) :
    (number (c :: rest)).1 ≠ [] := by
  rcases h with h | ⟨rfl, h⟩
  · have hc : isNumeral c = true := by simp [isNumeral, Char.isAlphanum, h]
    simp [number, numeralRun, hc]
  · have hp : isNumeral '.' = false := by decide
    simp [number, numeralRun, hp, fraction, h]

theorem heredocHeader_ne_nil {cs : List Char} {header : HeredocHeader} (h : heredocHeader cs = some header) :
    header.text ≠ [] := by
  simp only [heredocHeader] at h
  split at h
  · obtain ⟨cut, _, rfl⟩ := Option.map_eq_some_iff.1 h
    simp
  · simp at h

theorem PlainReading.ne_nil (h : PlainReading last line c rest r) : r.token.text ≠ [] := by
  cases h with
  | quoted => simp [Reading.literal]
  | dollar => simp [Reading.plain]
  | separator hname => exact nameSegments_ne_nil hname
  | word hc => exact readWord_ne_nil last rest hc
  | number hc => exact number_ne_nil hc
  | mark => exact readMark_ne_nil c rest

theorem readCode_ne_nil (h : readCode last line c rest = .ok r) : r.token.text ≠ [] := by
  cases CodeReading.of_readCode h with
  | closeTag => exact closeTag_ne_nil _
  | heredoc hheader => simp [Reading.literal, heredocHeader_ne_nil hheader]
  | plain _ _ h => exact h.ne_nil
  | _ => simp [Reading.plain]

end Reading

namespace Machine

/-- The token is the beginning of the rest, and what is left is the rest after it. -/
structure Reads (m : Machine) (t : Token) (after : Machine) : Prop where
  text : t.text ++ after.rest = m.rest
  ne_nil : t.text ≠ []
  line : after.line = m.line + t.newlines

theorem readCode_reads {m : Machine} {c : Char} {rest : List Char} {t : Token} {after : Machine}
    (hm : m.rest = c :: rest) (h : m.readCode c rest = .ok (some (t, after))) :
    m.Reads t after := by
  unfold readCode at h
  split at h
  · simp at h
  · rename_i r hr
    simp only [Except.ok.injEq, Option.some.injEq, Prod.mk.injEq] at h
    obtain ⟨rfl, rfl⟩ := h
    exact ⟨by simpa [pass, hm] using readCode_append hr, readCode_ne_nil hr, rfl⟩

theorem readOutside_reads {m : Machine} {c : Char} {rest : List Char} (hm : m.rest = c :: rest) :
    m.Reads m.readOutside.1 m.readOutside.2 := by
  unfold readOutside
  split
  · rename_i cut h
    exact ⟨openTag_append h, ne_nil_of_openTag h, rfl⟩
  · rename_i h
    exact ⟨inlineText_append m.rest, by rw [hm] at h ⊢; exact inlineText_ne_nil h, rfl⟩

theorem readText_reads {m : Machine} {level : Level} {below : List Level} {stretch : Option Stretch}
    {e : LexError} {t : Token} {after : Machine}
    (hs : ∀ s, stretch = some s → s.text ++ s.rest = m.rest ∧ (opener m.rest = none → s.text ≠ []))
    (h : m.readText level below stretch e = .ok (some (t, after))) : m.Reads t after := by
  unfold readText at h
  split at h
  · rename_i cut ho
    simp only [Except.ok.injEq, Option.some.injEq, Prod.mk.injEq] at h
    obtain ⟨rfl, rfl⟩ := h
    exact ⟨opener_append ho, ne_nil_of_opener ho, rfl⟩
  · rename_i ho
    split at h
    · simp at h
    · rename_i s
      simp only [Except.ok.injEq, Option.some.injEq, Prod.mk.injEq] at h
      obtain ⟨rfl, rfl⟩ := h
      exact ⟨(hs s rfl).1, (hs s rfl).2 ho, rfl⟩

theorem next_reads {m : Machine} {t : Token} {after : Machine}
    (h : m.next = .ok (some (t, after))) : m.Reads t after := by
  unfold next at h
  split at h
  · simp at h
  · rename_i c rest _ hm
    split at h
    · simp only [Except.ok.injEq, Option.some.injEq] at h
      have := readOutside_reads hm
      rwa [h] at this
    · exact readCode_reads hm h
  · simp at h
  · rename_i c rest _ hm
    split at h
    · simp only [Except.ok.injEq, Option.some.injEq, Prod.mk.injEq] at h
      obtain ⟨rfl, rfl⟩ := h
      exact ⟨by simp [pass, hm], by simp, rfl⟩
    · exact readCode_reads hm h
  · exact readText_reads (fun s hs => ⟨quotedStretch_append hs, quotedStretch_ne_nil hs⟩) h
  · exact readText_reads (fun s hs => ⟨heredocStretch_append hs, heredocStretch_ne_nil hs⟩) h

theorem rest_eq_nil_of_next {m : Machine} (h : m.next = .ok none) : m.rest = [] := by
  unfold next at h
  split at h
  · assumption
  · split at h
    · simp at h
    · unfold readCode at h; split at h <;> simp at h
  · simp at h
  · split at h
    · simp at h
    · unfold readCode at h; split at h <;> simp at h
  all_goals
    unfold readText at h
    repeat' split at h
    all_goals simp at h

theorem Reads.length_lt {m : Machine} {t : Token} {after : Machine} (h : m.Reads t after) :
    after.rest.length < m.rest.length := by
  rw [← h.text, List.length_append]
  have := List.length_pos_iff.2 h.ne_nil
  omega

/-! ### Runs -/

/-- The tokens read, and the error that ended the run if one did. -/
def run (m : Machine) : List Token × Option LexError :=
  match h : m.next with
  | .error e => ([], some e)
  | .ok none => ([], none)
  | .ok (some (t, after)) =>
    have : after.rest.length < m.rest.length := (next_reads h).length_lt
    let tail := after.run
    (t :: tail.1, tail.2)
termination_by m.rest.length

end Machine

/-- Divides a source into tokens. -/
def tokenize (source : List Char) : Except LexError (List Token) :=
  match (Machine.start source).run with
  | (ts, none) => .ok ts
  | (_, some e) => .error e

end PluginShading.Source
