import PluginShading.Text.Hex

/-!
The texts of YAML scalars. What stands between two words of a scalar is a `Gap`: blanks on one line stay
as they are, while line breaks are folded, a single one into a space and several into all but the first.
Each reader here takes the characters from the beginning of a scalar and gives its text with what
follows it; nothing where the scalar is malformed.

Line breaks are unified beforehand (`unifyBreaks`), so three characters are left that break a line.
-/
namespace PluginShading.Yaml

open Text (hexNumber?)

/-! ### Characters -/

/-- The characters that a YAML text may hold. -/
def isPrintable (c : Char) : Bool :=
  let n := c.toNat
  n == 0x09 || n == 0x0A || n == 0x0D || (0x20 ≤ n && n ≤ 0x7E) || n == 0x85 ||
    (0xA0 ≤ n && n ≤ 0xD7FF) || (0xE000 ≤ n && n ≤ 0xFFFD) || 0x10000 ≤ n

/-- Carriage returns, also those in front of a line feed, and U+0085 become line feeds. -/
def unifyBreaks : List Char → List Char
  | [] => []
  | '\r' :: '\n' :: rest => '\n' :: unifyBreaks rest
  | c :: rest => (if c = '\r' ∨ c = '\x85' then '\n' else c) :: unifyBreaks rest

def isBlank (c : Char) : Bool := c == ' ' || c == '\t'

def isBreak (c : Char) : Bool := c == '\n' || c == '\u2028' || c == '\u2029'

/-- Nothing, or a blank or break first. -/
def atGap : List Char → Bool
  | [] => true
  | c :: _ => isBlank c || isBreak c

/-- A line that is `---` or begins with it and a blank. -/
def atStartMark (cs : List Char) : Bool := cs.take 3 == ['-', '-', '-'] && atGap (cs.drop 3)

/-- The same for `...`. -/
def atEndMark (cs : List Char) : Bool := cs.take 3 == ['.', '.', '.'] && atGap (cs.drop 3)

/-- Letters, digits, `_` and `-`, all of them ASCII. -/
def isWordChar (c : Char) : Bool := c.isAlphanum || c == '_' || c == '-'

/-! ### Folding -/

/-- What stands between two words. -/
inductive Gap
  | blanks (cs : List Char)
  /-- A break, or nothing where the break was escaped, and the breaks after it. -/
  | lines (first more : List Char)
  deriving DecidableEq, Repr

namespace Gap

def none : Gap := blanks []

def isLines : Gap → Bool
  | lines _ _ => true
  | _ => false

/-- Blanks at the beginning and at the end of a line mean nothing. -/
def addBlank (c : Char) : Gap → Gap
  | blanks cs => blanks (cs ++ [c])
  | gap => gap

def addBreak (c : Char) : Gap → Gap
  | blanks _ => lines [c] []
  | lines first more => lines first (more ++ [c])

/-- A line feed folds; the other two breaks are kept. -/
def text : Gap → List Char
  | blanks cs => cs
  | lines first more => if first = ['\n'] then (if more = [] then [' '] else more) else first ++ more

end Gap

/-! ### Plain scalars -/

def isBracket (c : Char) : Bool := c == '[' || c == ']' || c == '\x7b' || c == '\x7d'

/-- A scalar ends in front of a colon that a gap follows and, inside brackets, of a bracket or comma. -/
def endsPlain (flow : Bool) (c : Char) (rest : List Char) : Bool :=
  (c == ':' && atGap rest) || (flow && (c == ',' || isBracket c))

/-- Inside brackets a colon that one of these follows is refused. -/
def refusesColon (flow : Bool) (c : Char) (rest : List Char) : Bool :=
  flow && c == ':' &&
    match rest with
    | d :: _ => d == ',' || d == '?' || isBracket d
    | [] => false

structure Plain where
  text : List Char
  rest : List Char
  /-- A line break was passed behind the last word. -/
  broken : Bool
  deriving DecidableEq, Repr

/-- Reads a plain scalar. A word that comes after a gap belongs to it unless it is a comment, a document
mark, or outside of brackets to the left of `indent`. -/
def plain (flow : Bool) (indent column : Nat) (gap : Gap) : List Char → Option Plain
  | [] => some ⟨[], [], gap.isLines⟩
  | c :: rest =>
    if isBlank c then
      if c = '\t' ∧ gap.isLines ∧ column < indent then Option.none
      else plain flow indent (column + 1) (gap.addBlank c) rest
    else if isBreak c then plain flow indent 0 (gap.addBreak c) rest
    else if gap ≠ .none ∧ (c = '#' ∨ (flow = false ∧ column < indent) ∨
        (column = 0 ∧ (atStartMark (c :: rest) ∨ atEndMark (c :: rest)))) then
      some ⟨[], c :: rest, gap.isLines⟩
    else if refusesColon flow c rest then Option.none
    else if endsPlain flow c rest then some ⟨[], c :: rest, gap.isLines⟩
    else (plain flow indent (column + 1) .none rest).map fun p =>
      {p with text := gap.text ++ c :: p.text}

/-! ### Quoted scalars -/

/-- The character that so many hexadecimal digits name, and how many characters that took. -/
def namedChar (digits : Nat) (cs : List Char) : Option (Char × Nat) :=
  if cs.length < digits then none
  else match hexNumber? (cs.take digits) with
    | none => none
    | some n =>
      if (0xD800 ≤ n ∧ n ≤ 0xDFFF) ∨ 0x10FFFF < n then none
      else some (Char.ofNat n, digits + 1)

/-- What the characters behind a backslash stand for, and how many of them. -/
def escape : List Char → Option (Char × Nat)
  | [] => none
  | c :: rest =>
    match c with
    | '0' => some ('\x00', 1)
    | 'a' => some ('\x07', 1)
    | 'b' => some ('\x08', 1)
    | 't' | '\t' => some ('\t', 1)
    | 'n' => some ('\n', 1)
    | 'v' => some ('\x0b', 1)
    | 'f' => some ('\x0c', 1)
    | 'r' => some ('\r', 1)
    | 'e' => some ('\x1b', 1)
    | ' ' => some (' ', 1)
    | '"' => some ('"', 1)
    | '/' => some ('/', 1)
    | '\\' => some ('\\', 1)
    | 'N' => some ('\x85', 1)
    | '_' => some ('\xa0', 1)
    | 'L' => some ('\u2028', 1)
    | 'P' => some ('\u2029', 1)
    | 'x' => namedChar 2 rest
    | 'u' => namedChar 4 rest
    | 'U' => namedChar 8 rest
    | _ => none

/-- Reads a quoted scalar behind its opening quote. `fresh` says that a line begins here, where a
document mark may not stand; `skip` characters are accounted for already. -/
def quoted (double fresh : Bool) (gap : Gap) (skip : Nat) : List Char → Option (List Char × List Char)
  | [] => none
  | c :: rest =>
    match skip with
    | skip + 1 => quoted double fresh gap skip rest
    | 0 =>
      if isBlank c then quoted double false (gap.addBlank c) 0 rest
      else if isBreak c then quoted double true (gap.addBreak c) 0 rest
      else if fresh && (atStartMark (c :: rest) || atEndMark (c :: rest)) then none
      else if double && c == '\\' then
        match rest with
        | [] => none
        | d :: _ =>
          if isBreak d then
            (quoted double true (.lines [] []) 1 rest).map fun r => (gap.text ++ r.1, r.2)
          else match escape rest with
            | none => none
            | some (named, length) =>
              (quoted double false .none length rest).map fun r => (gap.text ++ named :: r.1, r.2)
      else if c == (if double then '"' else '\'') then
        if double == false && rest.head? == some '\'' then
          (quoted double false .none 1 rest).map fun r => (gap.text ++ '\'' :: r.1, r.2)
        else some (gap.text, rest)
      else (quoted double false .none 0 rest).map fun r => (gap.text ++ c :: r.1, r.2)

/-! ### Block scalars -/

/-- Which line breaks at the end of a block stay. -/
inductive Chomping
  | strip
  | clip
  | keep
  deriving DecidableEq, Repr

structure BlockHeader where
  chomping : Chomping := .clip
  /-- How far the block is indented, where its header says so. -/
  indent : Option Nat := none
  deriving DecidableEq, Repr

def chompingOf? : Char → Option Chomping
  | '-' => some .strip
  | '+' => some .keep
  | _ => none

def indentOf? (c : Char) : Option Nat := if c.isDigit then some (c.toNat - 48) else none

/-- The indicators behind `|` or `>`, in either order. An indent of zero is refused. -/
def blockHeader (cs : List Char) : Option (BlockHeader × List Char) :=
  let (header, rest) : BlockHeader × List Char :=
    match cs with
    | [] => ({}, [])
    | c :: rest =>
      match chompingOf? c, indentOf? c with
      | some chomping, _ =>
        match rest.head?.bind indentOf? with
        | some n => (⟨chomping, some n⟩, rest.drop 1)
        | none => (⟨chomping, none⟩, rest)
      | _, some n =>
        match rest.head?.bind chompingOf? with
        | some chomping => (⟨chomping, some n⟩, rest.drop 1)
        | none => (⟨.clip, some n⟩, rest)
      | none, none => ({}, cs)
  if header.indent = some 0 then none else some (header, rest)

/-- Blanks and a comment through the end of the line, where nothing else may stand. -/
def restOfLine (cs : List Char) : Option (List Char) :=
  let cs := cs.dropWhile isBlank
  let cs := if cs.head? = some '#' then cs.dropWhile fun c => !isBreak c else cs
  match cs with
  | [] => some []
  | c :: rest => if isBreak c then some rest else none

/-- The empty lines at the beginning of a block whose header gives no indent, and the width of the
widest margin among them and the line after them. -/
structure Margin where
  breaks : List Char
  widest : Nat
  column : Nat
  rest : List Char
  deriving DecidableEq, Repr

def margin (column widest : Nat) : List Char → Option Margin
  | [] => some ⟨[], max widest column, column, []⟩
  | c :: rest =>
    if c = ' ' then margin (column + 1) widest rest
    else if c = '\t' then none
    else if isBreak c then
      (margin 0 (max widest column) rest).map fun m => {m with breaks := c :: m.breaks}
    else some ⟨[], max widest column, column, c :: rest⟩

/-- How far the lines of a block were read. -/
structure BlockLines where
  /-- The break at the end of the last line. -/
  last : List Char := []
  /-- The empty lines after it. -/
  more : List Char := []
  /-- The last line began with a blank. -/
  blank : Bool := false
  deriving DecidableEq, Repr

/-- The breaks in front of a line, folded between two lines that do not begin with a blank. -/
def BlockLines.joint (b : BlockLines) (folded : Bool) (c : Char) : List Char :=
  if folded && b.last == ['\n'] && !b.blank && !isBlank c then
    (if b.more = [] then [' '] else []) ++ b.more
  else b.last ++ b.more

def BlockLines.ending (b : BlockLines) : Chomping → List Char
  | .strip => []
  | .clip => b.last
  | .keep => b.last ++ b.more

/-- Reads the lines of a block through the first that is indented less. -/
def blockLines (folded : Bool) (chomping : Chomping) (indent : Nat) (b : BlockLines) (inside : Bool)
    (column : Nat) : List Char → Option (List Char × List Char)
  | [] => some (b.ending chomping, [])
  | c :: rest =>
    if inside then
      if isBreak c then
        blockLines folded chomping indent {b with last := [c], more := []} false 0 rest
      else (blockLines folded chomping indent b true (column + 1) rest).map fun r => (c :: r.1, r.2)
    else if c = ' ' ∧ column < indent then
      blockLines folded chomping indent b false (column + 1) rest
    else if c = '\t' ∧ column < indent then none
    else if isBreak c then
      blockLines folded chomping indent {b with more := b.more ++ [c]} false 0 rest
    else if column = indent then
      (blockLines folded chomping indent ⟨[], [], isBlank c⟩ true (column + 1) rest).map fun r =>
        (b.joint folded c ++ c :: r.1, r.2)
    else some (b.ending chomping, c :: rest)

/-- Reads a block scalar behind its `|` or `>`. `parent` is the column of the collection around it plus
one; the block is indented at least that far. -/
def block (folded : Bool) (parent : Nat) (cs : List Char) : Option (List Char × List Char) :=
  match blockHeader cs with
  | none => none
  | some (header, rest) =>
    match restOfLine rest with
    | none => none
    | some rest =>
      match header.indent with
      | some n => blockLines folded header.chomping (parent - 1 + n) {} false 0 rest
      | none =>
        match margin 0 0 rest with
        | none => none
        | some m =>
          blockLines folded header.chomping (max (max m.widest parent) 1) {more := m.breaks} false
            m.column m.rest

end PluginShading.Yaml
