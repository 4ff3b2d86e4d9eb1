import PluginShading.Source.File
import PluginShading.Source.Lexer

/-!
Splitting a source into its header and its declarations, on tokens.

The header runs through the namespace statement and the imports that follow it with nothing but white
space and plain comments between them. What follows is cut into declarations: each begins at the
first significant token after the one before, so modifiers, attributes and doc comments stay with it,
and ends at the brace that closes its body.
-/
namespace PluginShading.Source

/-- Why a source cannot be split. `found` quotes the token met, `none` being the end of the file. -/
inductive SplitError
  | lex (cause : LexError)
  | noNamespace
  | multipleNamespaces
  | bracedNamespace
  | expectedNamespaceName (found : Option Token)
  | expectedSemicolon (found : Option Token)
  | expectedIdentifier (word : Keyword) (found : Option Token)
  | noOpeningBrace (name : List Char)
  | unclosedBrace (name : List Char)
  | trailingContent (found : Token)
  deriving DecidableEq, Repr

namespace SplitError

def quoted (found : Option Token) : String := (found.map Token.describe).getD "end of file"

/-- The text of the error for the file at `path`. -/
def message (path : Path) : SplitError → String
  | lex cause =>
    "syntax error in " ++ path.text ++ ":" ++ toString cause.line ++ ": " ++ cause.message
  | noNamespace => "could not detect a namespace statement in " ++ path.text
  | multipleNamespaces => "multiple namespace statements in " ++ path.text ++ ", only one is allowed"
  | bracedNamespace => "braced namespace blocks are not supported in " ++ path.text
  | expectedNamespaceName found =>
    "expected a name after `namespace` in " ++ path.text ++ ", got " ++ quoted found
  | expectedSemicolon found =>
    "expected `;` after the namespace statement in " ++ path.text ++ ", got " ++ quoted found
  | expectedIdentifier word found =>
    "expected an identifier after `" ++ word.text ++ "` in " ++ path.text ++ ", got " ++
      quoted found
  | noOpeningBrace name =>
    "cannot find the opening brace of `" ++ String.ofList name ++ "` in " ++ path.text
  | unclosedBrace name =>
    "unexpected end of file with unclosed brace in `" ++ String.ofList name ++ "` in " ++ path.text
  | trailingContent found =>
    "trailing content after the last declaration in " ++ path.text ++ ": " ++ found.describe

/-- The name under which diagnostics list the error. -/
def code : SplitError → String
  | lex _ => "shadepack::parse::lex"
  | noNamespace => "shadepack::parse::no_namespace"
  | multipleNamespaces => "shadepack::parse::multiple_namespace"
  | bracedNamespace => "shadepack::parse::braced_namespace"
  | expectedNamespaceName _ => "shadepack::parse::expected_namespace_name"
  | expectedSemicolon _ => "shadepack::parse::expected_semicolon"
  | expectedIdentifier _ _ => "shadepack::parse::expected_identifier"
  | noOpeningBrace _ => "shadepack::parse::no_opening_brace"
  | unclosedBrace _ => "shadepack::parse::unclosed_brace"
  | trailingContent _ => "shadepack::parse::trailing_content"

def help : SplitError → Option String
  | noNamespace => some "every packaged file must declare exactly one `namespace X;`"
  | bracedNamespace => some "use `namespace X;` instead of `namespace X \x7b ... \x7d`"
  | trailingContent _ =>
    some "only class, interface, trait and enum declarations may follow the imports"
  | _ => none

end SplitError

/-! ### Looking ahead -/

def skipInsignificant (ts : List Token) : List Token := ts.dropWhile (!·.significant)

/-- Through the first token that satisfies `p`. -/
def cutThrough (p : Token → Bool) : List Token → Option (List Token × List Token)
  | [] => none
  | t :: rest =>
    if p t then some ([t], rest)
    else (cutThrough p rest).map fun cut => (t :: cut.1, cut.2)

theorem cutThrough_append {p : Token → Bool} {ts : List Token} {cut : List Token × List Token}
    (h : cutThrough p ts = some cut) : cut.1 ++ cut.2 = ts := by
  induction ts generalizing cut with
  | nil => simp [cutThrough] at h
  | cons t rest ih =>
    simp only [cutThrough] at h
    split at h
    · simp at h; simp [← h]
    · obtain ⟨cut, hc, rfl⟩ := Option.map_eq_some_iff.1 h
      simp [ih hc]

theorem cutThrough_ne_nil {p : Token → Bool} {ts : List Token} {cut : List Token × List Token}
    (h : cutThrough p ts = some cut) : cut.1 ≠ [] := by
  cases ts with
  | nil => simp [cutThrough] at h
  | cons t rest =>
    simp only [cutThrough] at h
    split at h
    · simp at h; simp [← h]
    · obtain ⟨cut, _, rfl⟩ := Option.map_eq_some_iff.1 h
      simp

def isSemicolon (t : Token) : Bool := t.isPunctuation [';']

def isOpeningBrace (t : Token) : Bool := t.isPunctuation ['{']

/-! ### The namespace statement -/

/-- The name in a namespace statement, given what follows the word `namespace`. -/
def namespaceName (after : List Token) : Except SplitError (List Char) :=
  match skipInsignificant after with
  | [] => .error (.expectedNamespaceName none)
  | t :: rest =>
    if t.kind = .qualifiedName ∨ t.kind = .identifier then
      match skipInsignificant rest with
      | [] => .error (.expectedSemicolon none)
      | mark :: _ =>
        if isSemicolon mark then .ok t.text
        else if isOpeningBrace mark then .error .bracedNamespace
        else .error (.expectedSemicolon (some mark))
    else if isOpeningBrace t then .error .bracedNamespace
    else .error (.expectedNamespaceName (some t))

/-- A source divided at its only namespace statement: what stands before it, and the statement with
what follows. -/
structure Located where
  before : List Token
  space : List Char
  statement : List Token
  deriving Repr

/-- Finds the namespace statement. The statements are checked in order, and a second one is an error
before it is looked into. -/
def locate : List Token → Except SplitError Located
  | [] => .error .noNamespace
  | t :: rest =>
    if t.isKeyword .namespaceWord then
      match namespaceName rest with
      | .error e => .error e
      | .ok name =>
        if rest.any (·.isKeyword .namespaceWord) then .error .multipleNamespaces
        else .ok ⟨[], name, t :: rest⟩
    else match locate rest with
      | .error e => .error e
      | .ok found => .ok {found with before := t :: found.before}

/-! ### Imports -/

/-- What follows `use` and, for functions and constants, the word that says so. -/
def importedName (rest : List Token) : List Token :=
  match skipInsignificant rest with
  | t :: more =>
    if t.isKeyword .functionWord || t.isKeyword .constWord then skipInsignificant more
    else t :: more
  | [] => []

/-- An import at the beginning of `ts`: `use`, perhaps `function` or `const`, a name, and all that
follows through a semicolon, braces of a group included. -/
def importCut (ts : List Token) : Option (List Token × List Token) :=
  match ts with
  | [] => none
  | use :: rest =>
    if use.isKeyword .useWord then
      match importedName rest with
      | t :: _ =>
        if t.kind = .qualifiedName ∨ t.kind = .fullyQualifiedName ∨ t.kind = .identifier then
          cutThrough isSemicolon ts
        else none
      | [] => none
    else none

theorem importCut_append {ts : List Token} {cut : List Token × List Token}
    (h : importCut ts = some cut) : cut.1 ++ cut.2 = ts ∧ cut.1 ≠ [] := by
  unfold importCut at h
  repeat' split at h
  all_goals first
    | exact ⟨cutThrough_append h, cutThrough_ne_nil h⟩
    | simp at h

theorem takeWhile_append_skip (ts : List Token) :
    ts.takeWhile (!·.significant) ++ skipInsignificant ts = ts :=
  List.takeWhile_append_dropWhile

theorem length_skip_le (ts : List Token) : (skipInsignificant ts).length ≤ ts.length :=
  (List.dropWhile_sublist _).length_le

theorem importCut_length_lt {ts : List Token} {cut : List Token × List Token}
    (h : importCut (skipInsignificant ts) = some cut) : cut.2.length < ts.length := by
  have hcut := importCut_append h
  have hskip := length_skip_le ts
  have := List.length_pos_iff.2 hcut.2
  rw [← hcut.1, List.length_append] at hskip
  omega

/-- The contiguous imports at the beginning of `ts`, with what separates them. -/
def imports (ts : List Token) : List Token × List Token :=
  match h : importCut (skipInsignificant ts) with
  | none => ([], ts)
  | some cut =>
    have : cut.2.length < ts.length := importCut_length_lt h
    let more := imports cut.2
    (ts.takeWhile (!·.significant) ++ cut.1 ++ more.1, more.2)
termination_by ts.length

theorem imports_append (ts : List Token) : (imports ts).1 ++ (imports ts).2 = ts := by
  fun_induction imports ts with
  | case1 => rfl
  | case2 ts cut h _ more ih =>
    have hcut := (importCut_append h).1
    calc (ts.takeWhile (!·.significant) ++ cut.1 ++ more.1) ++ more.2
        = ts.takeWhile (!·.significant) ++ (cut.1 ++ (more.1 ++ more.2)) := by simp
      _ = ts := by rw [ih, hcut, takeWhile_append_skip]

/-! ### Declarations -/

/-- Through the brace that closes `depth` open ones. -/
def closeBraces (depth : Int) : List Token → Option (List Token × List Token)
  | [] => none
  | t :: rest =>
    if depth + t.braceDelta = 0 then some ([t], rest)
    else (closeBraces (depth + t.braceDelta) rest).map fun cut => (t :: cut.1, cut.2)

theorem closeBraces_append {depth : Int} {ts : List Token} {cut : List Token × List Token}
    (h : closeBraces depth ts = some cut) : cut.1 ++ cut.2 = ts := by
  induction ts generalizing depth cut with
  | nil => simp [closeBraces] at h
  | cons t rest ih =>
    simp only [closeBraces] at h
    split at h
    · simp at h; simp [← h]
    · obtain ⟨cut, hc, rfl⟩ := Option.map_eq_some_iff.1 h
      simp [ih hc]

/-- The first token that opens a declaration: what stands before it, its word, what follows. -/
def findDeclaration : List Token → Option (List Token × Keyword × List Token)
  | [] => none
  | t :: rest =>
    match t.kind with
    | .keyword word =>
      if word.declares then some ([], word, t :: rest)
      else (findDeclaration rest).map fun found => (t :: found.1, found.2)
    | _ => (findDeclaration rest).map fun found => (t :: found.1, found.2)

theorem findDeclaration_append {ts : List Token} {found : List Token × Keyword × List Token}
    (h : findDeclaration ts = some found) : found.1 ++ found.2.2 = ts := by
  induction ts generalizing found with
  | nil => simp [findDeclaration] at h
  | cons t rest ih =>
    simp only [findDeclaration] at h
    repeat' split at h
    · simp at h; simp [← h]
    all_goals
      obtain ⟨found, hf, rfl⟩ := Option.map_eq_some_iff.1 h
      simp [ih hf]

/-- The name that a declaration gives after its word. -/
def declaredName (word : Keyword) (after : List Token) : Except SplitError (List Char) :=
  match skipInsignificant after with
  | [] => .error (.expectedIdentifier word none)
  | t :: _ =>
    if t.kind = .identifier then .ok (Text.trim t.text)
    else .error (.expectedIdentifier word (some t))

/-- One declaration as tokens, with its name and what follows it. -/
structure Piece where
  name : List Char
  tokens : List Token
  rest : List Token
  deriving Repr

/-- The declaration that begins with `first`, a significant token. -/
def nextPiece (first : Token) (rest : List Token) : Except SplitError Piece :=
  match findDeclaration (first :: rest) with
  | none => .error (.trailingContent first)
  | some (lead, word, after) =>
    match declaredName word after.tail with
    | .error e => .error e
    | .ok name =>
      match cutThrough isOpeningBrace after with
      | none => .error (.noOpeningBrace name)
      | some head =>
        match closeBraces 1 head.2 with
        | none => .error (.unclosedBrace name)
        | some body => .ok ⟨name, lead ++ head.1 ++ body.1, body.2⟩

/-- The parts of a declaration, each where the one before it ends. -/
theorem nextPiece_eq_ok_iff {first : Token} {rest : List Token} {piece : Piece} :
    nextPiece first rest = .ok piece ↔ ∃ lead word after name head body,
      findDeclaration (first :: rest) = some (lead, word, after) ∧ declaredName word after.tail = .ok name ∧
      cutThrough isOpeningBrace after = some head ∧ closeBraces 1 head.2 = some body ∧
      piece = ⟨name, lead ++ head.1 ++ body.1, body.2⟩ := by
  constructor
  · intro h
    unfold nextPiece at h
    repeat' split at h
    all_goals cases h
    rename_i lead word after hfound _ name hname _ head hhead _ body hbody
    exact ⟨lead, word, after, name, head, body, hfound, hname, hhead, hbody, rfl⟩
  · rintro ⟨lead, word, after, name, head, body, hfound, hname, hhead, hbody, rfl⟩
    simp only [nextPiece, hfound, hname, hhead, hbody]

theorem nextPiece_append {first : Token} {rest : List Token} {piece : Piece}
    (h : nextPiece first rest = .ok piece) :
    piece.tokens ++ piece.rest = first :: rest ∧ piece.tokens ≠ [] := by
  obtain ⟨lead, word, after, name, head, body, hf, -, hh, hb, rfl⟩ := nextPiece_eq_ok_iff.1 h
  have h1 := findDeclaration_append hf
  have h2 := cutThrough_append hh
  have h3 := closeBraces_append hb
  refine ⟨?_, by simp [cutThrough_ne_nil hh]⟩
  simp only [List.append_assoc]
  rw [h3, h2]
  exact h1

/-- The declarations in `ts`, which begins on `line`; the first line is 0. -/
def declarations (line : Nat) (ts : List Token) : Except SplitError (List Declaration) :=
  match hs : skipInsignificant ts with
  | [] => .ok []
  | first :: rest =>
    match h : nextPiece first rest with
    | .error e => .error e
    | .ok piece =>
      have : piece.rest.length < ts.length := by
        have hp := nextPiece_append h
        have hskip := length_skip_le ts
        have := List.length_pos_iff.2 hp.2
        rw [hs, ← hp.1, List.length_append] at hskip
        omega
      let start := line + Text.newlines (text (ts.takeWhile (!·.significant)))
      let code := text piece.tokens
      match declarations (start + Text.newlines code) piece.rest with
      | .error e => .error e
      | .ok more => .ok (⟨start, piece.name, code⟩ :: more)
termination_by ts.length

/-! ### Files -/

/-- Splits the tokens of a source. -/
def splitTokens (path : Path) (ts : List Token) : Except SplitError File :=
  match locate ts with
  | .error e => .error e
  | .ok found =>
    match cutThrough isSemicolon found.statement with
    | none => .error (.expectedSemicolon none)
    | some statement =>
      let used := imports statement.2
      let header := text (found.before ++ statement.1 ++ used.1)
      match declarations (Text.newlines header) used.2 with
      | .error e => .error e
      | .ok ds => .ok ⟨path, header, found.space, ds⟩

/-- Splits the source of the file at `path`. -/
def split (path : Path) (source : List Char) : Except SplitError File :=
  match tokenize source with
  | .error e => .error (.lex e)
  | .ok ts => splitTokens path ts

end PluginShading.Source
