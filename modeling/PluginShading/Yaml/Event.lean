import PluginShading.Yaml.Token

/-!
The structure that a row of tokens has, as a flat row of events in which collections open and close. The
reader keeps what it still expects on a stack and takes the uppermost expectation at each step. A node
that may be left out, such as the value behind a colon, is an empty plain scalar where it is.
-/
namespace PluginShading.Yaml

structure Scalar where
  text : List Char
  plain : Bool
  tag : Option (List Char) := none
  deriving DecidableEq, Repr

inductive Event
  | scalar (s : Scalar) (anchor : Option (List Char))
  | alias (name : List Char)
  | openSequence (anchor : Option (List Char))
  | openMapping (anchor : Option (List Char))
  | close
  | documentEnd
  deriving DecidableEq, Repr

/-- What is expected. -/
inductive Goal
  /-- More documents; the first needs no mark where nothing precedes it. -/
  | documents (first : Bool)
  | documentContent
  | documentEnd
  /-- A node, `block` if collections may be indented, `indentless` if a sequence need not be. -/
  | node (block indentless : Bool)
  | sequence
  | indentlessSequence
  | mapping
  | mappingValue
  | flowSequence (first : Bool)
  /-- A mapping of one pair, which stands in a sequence without braces of its own. -/
  | pairKey
  | pairValue
  | pairEnd
  | flowMapping (first : Bool)
  | flowValue
  | flowNoValue
  deriving DecidableEq, Repr

structure Parser where
  tokens : List Token
  goals : List Goal := [.documents true]
  /-- What the tag handles of the document stand for. -/
  handles : List (List Char × List Char) := []
  /-- The events so far, the last first. -/
  events : List Event := []
  deriving DecidableEq, Repr

namespace Parser

def emit (e : Event) (p : Parser) : Parser := {p with events := e :: p.events}

def expect (goals : List Goal) (p : Parser) : Parser := {p with goals := goals ++ p.goals}

def emptyNode (p : Parser) : Parser := emit (.scalar ⟨[], true, none⟩ none) p

/-- A node, unless one of the tokens that stand in for a missing one comes; then `goals`. -/
def nodeUnless (missing : Token → Bool) (block indentless : Bool) (goals : List Goal) (p : Parser) :
    Option Parser :=
  match p.tokens with
  | [] => none
  | t :: _ =>
    some (if missing t then expect goals (emptyNode p)
      else expect (.node block indentless :: goals) p)

/-! ### Nodes -/

/-- What the handle `!!` stands for. -/
def tagLead : List Char :=
  ['t', 'a', 'g', ':', 'y', 'a', 'm', 'l',
    '.', 'o', 'r', 'g', ',', '2', '0', '0', '2', ':']

def standardHandles : List (List Char × List Char) :=
  [(['!'], ['!']), (['!', '!'], tagLead)]

/-- An anchor and a tag, in either order. -/
def properties : List Token → Option (List Char) × Option (List Char × List Char) × List Token
  | .anchor a :: .tag h s :: rest => (some a, some (h, s), rest)
  | .tag h s :: .anchor a :: rest => (some a, some (h, s), rest)
  | .anchor a :: rest => (some a, none, rest)
  | .tag h s :: rest => (none, some (h, s), rest)
  | rest => (none, none, rest)

/-- The full text of a tag; nothing where its handle stands for nothing. -/
def tagText (handles : List (List Char × List Char)) : Option (List Char × List Char) →
    Option (Option (List Char))
  | none => some none
  | some ([], suffix) => some (some suffix)
  | some (handle, suffix) =>
    ((handles ++ standardHandles).lookup handle).map fun expansion => some (expansion ++ suffix)

def node (block indentless : Bool) (p : Parser) : Option Parser :=
  match p.tokens with
  | .alias name :: rest => some (emit (.alias name) {p with tokens := rest})
  | tokens =>
    let (anchor, tag, tokens) := properties tokens
    match tagText p.handles tag with
    | none => none
    | some tag =>
      match tokens with
      | .scalar text plain :: rest =>
        let tag := if tag = some ['!'] then none else tag
        some (emit (.scalar ⟨text, plain, tag⟩ anchor) {p with tokens := rest})
      | .openBracket :: rest =>
        some (expect [.flowSequence true] (emit (.openSequence anchor) {p with tokens := rest}))
      | .openBrace :: rest =>
        some (expect [.flowMapping true] (emit (.openMapping anchor) {p with tokens := rest}))
      | .entry :: rest =>
        if indentless then
          some (expect [.indentlessSequence]
            (emit (.openSequence anchor) {p with tokens := .entry :: rest}))
        else absent anchor tag tokens p
      | .sequenceIndent :: rest =>
        if block then
          some (expect [.sequence] (emit (.openSequence anchor) {p with tokens := rest}))
        else absent anchor tag tokens p
      | .mappingIndent :: rest =>
        if block then
          some (expect [.mapping] (emit (.openMapping anchor) {p with tokens := rest}))
        else absent anchor tag tokens p
      | _ => absent anchor tag tokens p
where
  /-- A node may be missing behind its properties, but not without any. -/
  absent (anchor : Option (List Char)) (tag : Option (List Char)) (tokens : List Token) (p : Parser) :
      Option Parser :=
    if anchor = none ∧ tag = none then none
    else some (emit (.scalar ⟨[], true, tag⟩ anchor) {p with tokens := tokens})

/-! ### Documents -/

/-- The directives of a document; each may be given once, and the version has to be 1.1 or 1.2. -/
def directives (version : Bool) (handles : List (List Char × List Char)) :
    List Token → Option (List (List Char × List Char) × List Token)
  | .version major minor :: rest =>
    if version = false ∧ major = 1 ∧ (minor = 1 ∨ minor = 2) then directives true handles rest else none
  | .handle name expansion :: rest =>
    if (handles.lookup name).isSome then none
    else directives version ((name, expansion) :: handles) rest
  | tokens => some (handles, tokens)

def isDocumentEnd : Token → Bool
  | .documentEnd => true
  | _ => false

/-- A token that belongs to the frame of documents. -/
def isFrame : Token → Bool
  | .version _ _ | .handle _ _ | .documentStart | .documentEnd => true
  | _ => false

def documents (first : Bool) (p : Parser) : Option Parser :=
  let tokens := if first then p.tokens else p.tokens.dropWhile isDocumentEnd
  match tokens with
  | [] => some {p with tokens := []}
  | t :: _ =>
    if first && (!isFrame t || isDocumentEnd t) then
      some (expect [.node true false, .documentEnd] {p with tokens := tokens, handles := []})
    else
      match directives false [] tokens with
      | some (handles, .documentStart :: rest) =>
        some (expect [.documentContent, .documentEnd] {p with tokens := rest, handles := handles})
      | _ => none

def documentContent (p : Parser) : Option Parser :=
  match p.tokens with
  | [] => some (emptyNode p)
  | t :: _ => some (if isFrame t then emptyNode p else expect [.node true false] p)

def documentEnd (p : Parser) : Option Parser :=
  let tokens := match p.tokens with
    | .documentEnd :: rest => rest
    | tokens => tokens
  some (expect [.documents false] (emit .documentEnd {p with tokens := tokens}))

/-! ### Collections -/

/-- A key, value or end of an indented mapping. -/
def endsPart : Token → Bool
  | .key | .value | .dedent => true
  | _ => false

def endsEntry : Token → Bool
  | .entry | .dedent => true
  | _ => false

def endsIndentless (t : Token) : Bool := endsPart t || endsEntry t

/-- A comma or the end of a sequence in brackets. -/
def endsItem : Token → Bool
  | .comma | .closeBracket => true
  | _ => false

def endsField : Token → Bool
  | .comma | .closeBrace => true
  | _ => false

def isValue : Token → Bool
  | .value => true
  | _ => false

/-- The tokens behind a comma, which has to stand there unless the collection has just begun. -/
def behindComma (first : Bool) (tokens : List Token) : Option (List Token) :=
  if first then some tokens
  else match tokens with
    | .comma :: rest => some rest
    | _ => none

def flowSequence (first : Bool) (p : Parser) : Option Parser :=
  match p.tokens with
  | .closeBracket :: rest => some (emit .close {p with tokens := rest})
  | tokens =>
    match behindComma first tokens with
    | none => none
    | some (.closeBracket :: rest) => some (emit .close {p with tokens := rest})
    | some (.key :: rest) =>
      some (expect [.pairKey, .flowSequence false] (emit (.openMapping none) {p with tokens := rest}))
    | some tokens =>
      some (expect [.node false false, .flowSequence false] {p with tokens := tokens})

/-- The key of a single pair. Where the key is missing, the token in its place is passed over. -/
def pairKey (p : Parser) : Option Parser :=
  match p.tokens with
  | [] => none
  | t :: rest =>
    if isValue t || endsItem t then some (expect [.pairValue] (emptyNode {p with tokens := rest}))
    else some (expect [.node false false, .pairValue] p)

def flowMapping (first : Bool) (p : Parser) : Option Parser :=
  match p.tokens with
  | .closeBrace :: rest => some (emit .close {p with tokens := rest})
  | tokens =>
    match behindComma first tokens with
    | none => none
    | some (.closeBrace :: rest) => some (emit .close {p with tokens := rest})
    | some (.key :: rest) =>
      nodeUnless (fun t => isValue t || endsField t) false false [.flowValue] {p with tokens := rest}
    | some tokens => some (expect [.node false false, .flowNoValue] {p with tokens := tokens})

/-- One step towards the uppermost goal, which is off the stack already. -/
def step (goal : Goal) (p : Parser) : Option Parser :=
  match goal, p.tokens with
  | .documents first, _ => documents first p
  | .documentContent, _ => documentContent p
  | .documentEnd, _ => documentEnd p
  | .node block indentless, _ => node block indentless p
  | .sequence, .entry :: rest => nodeUnless endsEntry true false [.sequence] {p with tokens := rest}
  | .sequence, .dedent :: rest => some (emit .close {p with tokens := rest})
  | .sequence, _ => none
  | .indentlessSequence, .entry :: rest =>
    nodeUnless endsIndentless true false [.indentlessSequence] {p with tokens := rest}
  | .indentlessSequence, _ => some (emit .close p)
  | .mapping, .key :: rest =>
    nodeUnless endsPart true true [.mappingValue] {p with tokens := rest}
  | .mapping, .dedent :: rest => some (emit .close {p with tokens := rest})
  | .mapping, _ => none
  | .mappingValue, .value :: rest =>
    nodeUnless endsPart true true [.mapping] {p with tokens := rest}
  | .mappingValue, _ => some (expect [.mapping] (emptyNode p))
  | .flowSequence first, _ => flowSequence first p
  | .pairKey, _ => pairKey p
  | .pairValue, .value :: rest =>
    nodeUnless endsItem false false [.pairEnd] {p with tokens := rest}
  | .pairValue, _ => some (expect [.pairEnd] (emptyNode p))
  | .pairEnd, _ => some (emit .close p)
  | .flowMapping first, _ => flowMapping first p
  | .flowValue, .value :: rest =>
    nodeUnless endsField false false [.flowMapping false] {p with tokens := rest}
  | .flowValue, _ => some (expect [.flowMapping false] (emptyNode p))
  | .flowNoValue, _ => some (expect [.flowMapping false] (emptyNode p))

def run (fuel : Nat) (p : Parser) : Option Parser :=
  match p.goals with
  | [] => if p.tokens = [] then some p else none
  | goal :: goals =>
    match fuel with
    | 0 => none
    | fuel + 1 =>
      match step goal {p with goals := goals} with
      | none => none
      | some p => run fuel p

end Parser

/-- The events of a row of tokens; nothing where it is not well formed. Each token takes a few steps at
most, which is what the bound rests on. -/
def events (tokens : List Token) : Option (List Event) :=
  (Parser.run (8 * tokens.length + 16) {tokens := tokens}).map (·.events.reverse)

end PluginShading.Yaml
