import PluginShading.Yaml.Scalar

/-!
The tokens of a YAML text. Indentation becomes tokens too: a collection begins where a token stands to
the right of the innermost one and ends where one stands to its left. A mapping key need not be marked;
only the colon behind it shows what it is, so wherever a key may begin its place in the tokens is
remembered (`Candidate`), and the colon inserts the missing token there. A key must lie on one line and
be short.
-/
namespace PluginShading.Yaml

open Text (hexNumber?)

inductive Token
  | version (major minor : Nat)
  /-- What a tag handle stands for. -/
  | handle (name expansion : List Char)
  | documentStart
  | documentEnd
  | sequenceIndent
  | mappingIndent
  | dedent
  | openBracket
  | closeBracket
  | openBrace
  | closeBrace
  | entry
  | comma
  | key
  | value
  | alias (name : List Char)
  | anchor (name : List Char)
  | tag (handle suffix : List Char)
  | scalar (text : List Char) (plain : Bool)
  deriving DecidableEq, Repr

/-! ### Places -/

structure Cursor where
  left : List Char
  index : Nat := 0
  line : Nat := 0
  column : Nat := 0
  deriving DecidableEq, Repr

def Cursor.skip : Nat → Cursor → Cursor
  | 0, c => c
  | n + 1, ⟨[], index, line, column⟩ => skip n ⟨[], index, line, column⟩
  | n + 1, ⟨ch :: rest, index, line, column⟩ =>
    skip n (if isBreak ch then ⟨rest, index + 1, line + 1, 0⟩ else ⟨rest, index + 1, line, column + 1⟩)

/-- Moves to a later place, given by what is left there. -/
def Cursor.upTo (c : Cursor) (rest : List Char) : Cursor := c.skip (c.left.length - rest.length)

/-- A place where a mapping key may have begun. -/
structure Candidate where
  /-- Here nothing but a key would be in place. -/
  required : Bool
  /-- The number of tokens before it. -/
  number : Nat
  index : Nat
  line : Nat
  column : Nat
  deriving DecidableEq, Repr

structure Lexer where
  cursor : Cursor
  /-- The tokens so far, the last first. -/
  tokens : List Token := []
  count : Nat := 0
  /-- The column of the innermost collection plus one, and of those around it. -/
  indent : Nat := 0
  indents : List Nat := []
  /-- How many brackets are open. -/
  flow : Nat := 0
  keyAllowed : Bool := true
  /-- The candidate at each level of brackets, the innermost first. -/
  candidate : Option Candidate := none
  outer : List (Option Candidate) := []
  deriving DecidableEq, Repr

namespace Lexer

/-! ### Steps of the lexer -/

def emit (t : Token) (l : Lexer) : Lexer := {l with tokens := t :: l.tokens, count := l.count + 1}

/-- Puts a token in front of those that came after the first `number`. -/
def emitAt (number : Nat) (t : Token) (l : Lexer) : Lexer :=
  {l with tokens := l.tokens.insertIdx (l.count - number) t, count := l.count + 1}

def upTo (rest : List Char) (l : Lexer) : Lexer := {l with cursor := l.cursor.upTo rest}

def skip (n : Nat) (l : Lexer) : Lexer := {l with cursor := l.cursor.skip n}

/-- Begins a collection, outside of brackets and to the right of the innermost one. -/
def openIndent (column number : Nat) (t : Token) (l : Lexer) : Lexer :=
  if l.flow = 0 ∧ l.indent < column + 1 then
    emitAt number t {l with indents := l.indent :: l.indents, indent := column + 1}
  else l

/-- Ends the collections to the right of a column, given as that column plus one. -/
def closeIndents (indent : Nat) (l : Lexer) : Lexer :=
  if l.flow = 0 then go l.indents l else l
where
  go : List Nat → Lexer → Lexer
    | [], l => l
    | outer :: rest, l =>
      if indent < l.indent then go rest (emit .dedent {l with indent := outer, indents := rest}) else l

/-- The innermost candidate is no key. -/
def dropCandidate (l : Lexer) : Option Lexer :=
  match l.candidate with
  | some c => if c.required then none else some {l with candidate := none}
  | none => some l

/-- The next token may begin a key. -/
def markCandidate (l : Lexer) : Option Lexer :=
  if l.keyAllowed then
    (dropCandidate l).map fun dropped =>
      {dropped with candidate := some {
        required := l.flow = 0 ∧ l.indent = l.cursor.column + 1
        number := l.count
        index := l.cursor.index
        line := l.cursor.line
        column := l.cursor.column}}
  else some l

def keyLimit : Nat := 1024

/-- Too far back for its colon to come now. -/
def isPast (l : Lexer) (c : Candidate) : Bool :=
  c.line < l.cursor.line || c.index + keyLimit < l.cursor.index

/-- Forgets the candidates that can be no keys any more; fails where one had to be. -/
def dropPast (l : Lexer) : Option Lexer :=
  let gone (c : Option Candidate) : Bool := c.any (l.isPast ·)
  if (l.candidate :: l.outer).any fun c => gone c && c.any (·.required) then none
  else
    let keep (c : Option Candidate) : Option Candidate := if gone c then none else c
    some {l with candidate := keep l.candidate, outer := l.outer.map keep}

/-! ### Between tokens -/

/-- Passes blanks, breaks and comments. Outside of brackets a tab may not stand where a key may, and a
new line may begin with a key. A byte order mark may begin a line. -/
def blanks (flow allowed fresh comment : Bool) : List Char → List Char × Bool
  | [] => ([], allowed)
  | c :: rest =>
    if isBreak c then blanks flow (allowed || !flow) true false rest
    else if comment then blanks flow allowed false true rest
    else if c = '\ufeff' ∧ fresh then blanks flow allowed false false rest
    else if c = ' ' ∨ (c = '\t' ∧ (flow ∨ allowed = false)) then blanks flow allowed false false rest
    else if c = '#' then blanks flow allowed false true rest
    else (c :: rest, allowed)

def passBlanks (l : Lexer) : Lexer :=
  let (rest, allowed) := blanks (l.flow != 0) l.keyAllowed (l.cursor.column == 0) false l.cursor.left
  {upTo rest l with keyAllowed := allowed}

/-! ### Names -/

/-- The name of an anchor or alias, which a gap or one of a few marks must follow. -/
def nameOf (cs : List Char) : Option (List Char × List Char) :=
  let name := cs.takeWhile isWordChar
  let rest := cs.drop name.length
  let ends : Bool := match rest with
    | [] => true
    | c :: _ => atGap rest || c ∈ ['?', ':', ',', ']', '\x7d', '%', '@', '\u0060']
  if name ≠ [] ∧ ends then some (name, rest) else none

def isTagChar (c : Char) : Bool :=
  isWordChar c || c ∈ [';', '/', '?', ':', '@', '&', '=', '+', '$', '.', '!', '~', '*', '\'', '(', ')']

/-- How many octets a character has in UTF-8, judged by the first. -/
def octetsOf (first : Nat) : Option Nat :=
  if first < 0x80 then some 1
  else if 0xC0 ≤ first ∧ first < 0xE0 then some 2
  else if 0xE0 ≤ first ∧ first < 0xF0 then some 3
  else if 0xF0 ≤ first ∧ first < 0xF8 then some 4
  else none

/-- Reads the characters of a tag. `pending` octets of a character written with `%` are still to come;
each octet is kept as the character of its number. -/
def tagChars (wide : Bool) (pending : Nat) : List Char → Option (List Char × List Char)
  | [] => if pending = 0 then some ([], []) else none
  | '%' :: a :: b :: rest =>
    match hexNumber? [a, b] with
    | none => none
    | some octet =>
      let left := if pending = 0 then (octetsOf octet).map (· - 1)
        else if 0x80 ≤ octet ∧ octet < 0xC0 then some (pending - 1) else none
      match left with
      | none => none
      | some left => (tagChars wide left rest).map fun r => (Char.ofNat octet :: r.1, r.2)
  | c :: rest =>
    if pending ≠ 0 ∨ c = '%' then none
    else if isTagChar c || (wide && c ∈ [',', '[', ']']) then
      (tagChars wide 0 rest).map fun r => (c :: r.1, r.2)
    else some ([], c :: rest)

/-- `!`, `!!` or `!name!`; the latter two end in a mark, the first may begin a longer tag. -/
def handleOf : List Char → Option (List Char × List Char)
  | '!' :: rest =>
    let name := rest.takeWhile isWordChar
    match rest.drop name.length with
    | '!' :: rest => some ('!' :: name ++ ['!'], rest)
    | rest => some ('!' :: name, rest)
  | _ => none

/-- A tag, as its handle and the rest of it. -/
def tagOf (flow : Bool) (cs : List Char) : Option (Token × List Char) := do
  let (t, rest) ← match cs with
    | '!' :: '<' :: rest => do
      let (name, rest) ← tagChars true 0 rest
      match rest with
      | '>' :: rest => if name = [] then none else some (Token.tag [] name, rest)
      | _ => none
    | cs => do
      let (handle, rest) ← handleOf cs
      if handle.length ≠ 1 ∧ handle.getLast? = some '!' then
        let (suffix, rest) ← tagChars false 0 rest
        if suffix = [] then none else some (Token.tag handle suffix, rest)
      else
        let (more, rest) ← tagChars false 0 rest
        let suffix := handle.drop 1 ++ more
        some (if suffix = [] then Token.tag [] ['!'] else Token.tag ['!'] suffix, rest)
  if atGap rest || (flow && rest.head? == some ',') then some (t, rest) else none

/-! ### Directives -/

def versionNumber (cs : List Char) : Option (Nat × List Char) :=
  let digits := cs.takeWhile Char.isDigit
  if digits = [] ∨ 9 < digits.length then none
  else some (digits.foldl (fun n d => 10 * n + (d.toNat - 48)) 0, cs.drop digits.length)

/-- A directive, behind its `%`. -/
def directiveOf (cs : List Char) : Option (Token × List Char) := do
  let name := cs.takeWhile isWordChar
  let rest := cs.drop name.length
  if atGap rest = false then none
  let rest := rest.dropWhile isBlank
  let (t, rest) ← (
    if name = ['Y', 'A', 'M', 'L'] then do
      let (major, rest) ← versionNumber rest
      match rest with
      | '.' :: rest => do
        let (minor, rest) ← versionNumber rest
        some (Token.version major minor, rest)
      | _ => none
    else if name = ['T', 'A', 'G'] then do
      let (handle, rest) ← handleOf rest
      if handle ≠ ['!'] ∧ handle.getLast? ≠ some '!' then none
      if (rest.head?.any isBlank) = false then none
      let (expansion, rest) ← tagChars true 0 (rest.dropWhile isBlank)
      if expansion = [] ∨ atGap rest = false then none
      some (Token.handle handle expansion, rest)
    else none)
  some (t, ← restOfLine rest)

/-! ### Tokens -/

/-- A token on its own line, which ends everything that is open outside of brackets. -/
def marker (t : Token) (rest : List Char) (l : Lexer) : Option Lexer :=
  (dropCandidate (closeIndents 0 l)).map fun l => emit t (upTo rest {l with keyAllowed := false})

def openFlow (t : Token) (l : Lexer) : Option Lexer :=
  (markCandidate l).map fun l =>
    emit t (skip 1 {l with
      outer := l.candidate :: l.outer, candidate := none, flow := l.flow + 1, keyAllowed := true})

def closeFlow (t : Token) (l : Lexer) : Option Lexer :=
  (dropCandidate l).map fun l =>
    let l := match l.outer with
      | candidate :: outer => {l with candidate := candidate, outer := outer, flow := l.flow - 1}
      | [] => l
    emit t (skip 1 {l with keyAllowed := false})

def comma (l : Lexer) : Option Lexer :=
  (dropCandidate l).map fun l => emit .comma (skip 1 {l with keyAllowed := true})

/-- A `-`, which begins a sequence where none is open. -/
def entry (l : Lexer) : Option Lexer :=
  if l.flow = 0 ∧ l.keyAllowed = false then none
  else (dropCandidate (openIndent l.cursor.column l.count .sequenceIndent l)).map fun l =>
    emit .entry (skip 1 {l with keyAllowed := true})

/-- A `?`, which begins a mapping where none is open. -/
def key (l : Lexer) : Option Lexer :=
  if l.flow = 0 ∧ l.keyAllowed = false then none
  else (dropCandidate (openIndent l.cursor.column l.count .mappingIndent l)).map fun l =>
    emit .key (skip 1 {l with keyAllowed := l.flow = 0})

/-- A `:`, which makes the candidate a key; without one the key is empty. -/
def value (l : Lexer) : Option Lexer :=
  match l.candidate with
  | some c =>
    let l := openIndent c.column c.number .mappingIndent (emitAt c.number .key l)
    some (emit .value (skip 1 {l with candidate := none, keyAllowed := false}))
  | none =>
    if l.flow = 0 ∧ l.keyAllowed = false then none
    else
      let l := openIndent l.cursor.column l.count .mappingIndent l
      some (emit .value (skip 1 {l with keyAllowed := l.flow = 0}))

/-- A token that may begin a key; `allowed` says whether another may follow it directly. -/
def content (t : Token) (rest : List Char) (allowed : Bool) (l : Lexer) : Option Lexer :=
  (markCandidate l).map fun l => emit t (upTo rest {l with keyAllowed := allowed})

def blockScalar (folded : Bool) (rest : List Char) (l : Lexer) : Option Lexer := do
  let l ← dropCandidate l
  let (text, rest) ← block folded l.indent rest
  some (emit (.scalar text false) (upTo rest {l with keyAllowed := true}))

def quotedScalar (double : Bool) (rest : List Char) (l : Lexer) : Option Lexer := do
  let (text, rest) ← quoted double false .none 0 rest
  content (.scalar text false) rest false l

def plainScalar (l : Lexer) : Option Lexer := do
  let p ← plain (l.flow != 0) l.indent l.cursor.column .none l.cursor.left
  content (.scalar p.text true) p.rest p.broken l

/-- The characters that a plain scalar may not begin with, whatever follows. -/
def isIndicator (c : Char) : Bool :=
  c ∈ ['-', '?', ':', ',', '[', ']', '\x7b', '\x7d', '#', '&', '*', '!', '|', '>', '\'', '"', '%', '@',
    '\u0060']

def beginsPlain (flow : Bool) (c : Char) (rest : List Char) : Bool :=
  !(isBlank c || isBreak c || isIndicator c) ||
    (c == '-' && !(rest.head?.any isBlank)) ||
    (!flow && (c == '?' || c == ':') && !atGap rest)

/-- The token that begins with `c`. -/
def next (c : Char) (rest : List Char) (l : Lexer) : Option Lexer :=
  let flow := l.flow != 0
  let first := l.cursor.column == 0
  if first && c == '%' then
    (directiveOf rest).bind fun (t, rest) => marker t rest l
  else if first && atStartMark (c :: rest) then marker .documentStart (rest.drop 2) l
  else if first && atEndMark (c :: rest) then marker .documentEnd (rest.drop 2) l
  else if c == '[' then openFlow .openBracket l
  else if c == '\x7b' then openFlow .openBrace l
  else if c == ']' then closeFlow .closeBracket l
  else if c == '\x7d' then closeFlow .closeBrace l
  else if c == ',' then comma l
  else if c == '-' && atGap rest then entry l
  else if c == '?' && (flow || atGap rest) then key l
  else if c == ':' && (flow || atGap rest) then value l
  else if c == '*' then (nameOf rest).bind fun (name, rest) => content (.alias name) rest false l
  else if c == '&' then (nameOf rest).bind fun (name, rest) => content (.anchor name) rest false l
  else if c == '!' then (tagOf flow (c :: rest)).bind fun (t, rest) => content t rest false l
  else if c == '|' && !flow then blockScalar false rest l
  else if c == '>' && !flow then blockScalar true rest l
  else if c == '\'' then quotedScalar false rest l
  else if c == '"' then quotedScalar true rest l
  else if beginsPlain flow c rest then plainScalar l
  else none

/-- Reads tokens to the end of the text. Every token but the last dedents takes at least one character,
so `fuel` need not exceed the length of the text by more than one. -/
def run (fuel : Nat) (l : Lexer) : Option Lexer :=
  match fuel with
  | 0 => none
  | fuel + 1 =>
    match dropPast (passBlanks l) with
    | none => none
    | some l =>
      let l := closeIndents (l.cursor.column + 1) l
      match l.cursor.left with
      | [] => dropCandidate (closeIndents 0 l)
      | c :: rest =>
        match next c rest l with
        | none => none
        | some l => run fuel l

end Lexer

/-- The tokens of a text; nothing where it has none. -/
def tokens (text : List Char) : Option (List Token) :=
  if text.all isPrintable then
    let text := unifyBreaks text
    ((Lexer.mk ⟨text, 0, 0, 0⟩ [] 0 0 [] 0 true none []).run (text.length + 1)).map (·.tokens.reverse)
  else none

end PluginShading.Yaml
