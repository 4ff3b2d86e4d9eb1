import PluginShading.Text.Pieces

/-!
Paths as texts. A path is printed as it was written; what it means is its list of components, in which
doubled and trailing separators and inner `.` do not count. Two spellings of one list are the same
path (`Path.same`).
-/
namespace PluginShading

structure Path where
  text : String
  deriving DecidableEq, Repr, Inhabited

inductive Component
  | root
  /-- A leading `.`. -/
  | here
  | up
  | name (text : String)
  deriving DecidableEq, Repr

def Component.text : Component → String
  | root => "/"
  | here => "."
  | up => ".."
  | name s => s

namespace Path

def chars (p : Path) : List Char := p.text.toList

def isAbsolute (p : Path) : Bool := p.chars.head? == some '/'

/-- A piece between separators; nothing for an empty piece and for `.`. -/
def component? (piece : List Char) : Option Component :=
  if piece = [] ∨ piece = ['.'] then none
  else if piece = ['.', '.'] then some .up
  else some (.name (String.ofList piece))

/-- The root or the leading `.`, which count as components, and the rest of the text. -/
def lead : List Char → List Component × List Char
  | '/' :: rest => ([.root], rest)
  | ['.'] => ([.here], [])
  | '.' :: '/' :: rest => ([.here], '/' :: rest)
  | cs => ([], cs)

def components (p : Path) : List Component :=
  (lead p.chars).1 ++ (Text.pieces '/' (lead p.chars).2).filterMap component?

/-- Equality by components. -/
def same (p q : Path) : Bool := p.components == q.components

/-- An absolute path stands for itself; any other is put behind `p` and a separator. -/
def join (p q : Path) : Path :=
  if q.isAbsolute then q
  else if p.chars = [] ∨ p.chars.getLast? = some '/' then ⟨p.text ++ q.text⟩
  else ⟨p.text ++ "/" ++ q.text⟩

def ofComponents (cs : List Component) : Path := cs.foldl (fun p c => p.join ⟨c.text⟩) ⟨""⟩

/-- The text in front of the last component; nothing for the root and for the empty path. -/
def parent (p : Path) : Option Path :=
  let blank (piece : List Char) : Bool := (component? piece).isNone
  match p.components.getLast? with
  | none | some .root => none
  | some .here => some ⟨""⟩
  | some _ =>
    let body := (Text.pieces '/' (lead p.chars).2).reverse
    let left := ((body.dropWhile blank).drop 1).dropWhile blank
    let front := p.chars.take (p.chars.length - (lead p.chars).2.length)
    some ⟨String.ofList (front ++ Text.join '/' left.reverse)⟩

/-- The last component, if it is a name. -/
def fileName (p : Path) : Option String :=
  match p.components.getLast? with
  | some (.name s) => some s
  | _ => none

/-- What follows the last dot of the file name, where a name stands before that dot. -/
def extension (p : Path) : Option String :=
  p.fileName.bind fun name =>
    match (Text.pieces '.' name.toList).reverse with
    | last :: before :: more =>
      if Text.join '.' (before :: more).reverse = [] then none else some (String.ofList last)
    | _ => none

/-- `q` is `p` or lies below it, judged by components. -/
def startsWith (q p : Path) : Bool := p.components.isPrefixOf q.components

/-- Walks the two lists of components side by side; `none` where the way up is not known. -/
def relativeComponents : List Component → List Component → List Component → Option (List Component)
  | [], [], found => some found
  | a :: as, [], found => some (found ++ a :: as)
  | [], _ :: bs, found => relativeComponents [] bs (found ++ [.up])
  | a :: as, b :: bs, found =>
    if found = [] ∧ a = b then relativeComponents as bs found
    else if b = .here then relativeComponents as bs (found ++ [a])
    else if b = .up then none
    else some (found ++ .up :: bs.map (fun _ => .up) ++ a :: as)

/-- The path that leads from `base` to `p`, or `p` itself where there is none. -/
def relativeTo (p base : Path) : Path :=
  if p.isAbsolute != base.isAbsolute then p
  else match relativeComponents p.components base.components [] with
    | some cs => ofComponents cs
    | none => p

end Path

end PluginShading
