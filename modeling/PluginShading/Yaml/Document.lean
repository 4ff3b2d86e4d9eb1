import PluginShading.Yaml.Event

/-!
A text as a table of fields. Only the outermost mapping is looked into; what lies within its values is
read but not kept. An alias stands for the node that its anchor was last put on, by way of a number: a
new anchor takes the number of anchors known before it, and the last node of a number is the one meant.
-/
namespace PluginShading.Yaml

inductive Item
  | scalar (s : Scalar)
  | sequence
  | mapping
  /-- Whatever node has the number. -/
  | alias (number : Nat)
  deriving DecidableEq, Repr

/-- A document with its nodes, each with the number of collections around it. -/
structure Document where
  items : List (Nat × Item) := []
  /-- The nodes with anchors, by number. -/
  anchored : List (Nat × Item) := []
  deriving DecidableEq, Repr

namespace Document

/-- The anchors that are known, with their numbers. -/
abbrev Anchors := List (List Char × Nat)

def register (anchor : Option (List Char)) (item : Item) (known : Anchors) :
    Anchors × List (Nat × Item) :=
  match anchor with
  | none => (known, [])
  | some name =>
    ((name, known.length) :: known.filter (fun a => a.1 ≠ name), [(known.length, item)])

/-- Adds a node in front. -/
def add (depth : Nat) (item : Item) (anchored : List (Nat × Item)) (d : Document) : Document :=
  ⟨(depth, item) :: d.items, anchored ++ d.anchored⟩

/-- The nodes of a row of events; nothing where an alias has no anchor or a second document begins. -/
def ofEvents (depth : Nat) (known : Anchors) : List Event → Option Document
  | [] => some {}
  | .documentEnd :: rest => if rest = [] then some {} else none
  | .close :: rest => ofEvents (depth - 1) known rest
  | .alias name :: rest =>
    match known.lookup name with
    | none => none
    | some number => (ofEvents depth known rest).map (add depth (.alias number) [])
  | .scalar s anchor :: rest =>
    let (known, anchored) := register anchor (.scalar s) known
    (ofEvents depth known rest).map (add depth (.scalar s) anchored)
  | .openSequence anchor :: rest =>
    let (known, anchored) := register anchor .sequence known
    (ofEvents (depth + 1) known rest).map (add depth .sequence anchored)
  | .openMapping anchor :: rest =>
    let (known, anchored) := register anchor .mapping known
    (ofEvents (depth + 1) known rest).map (add depth .mapping anchored)

def target (d : Document) : Item → Option Item
  | .alias number => d.anchored.reverse.lookup number
  | item => some item

def pairs (d : Document) : List Item → Option (List (List Char × Item))
  | [] => some []
  | [_] => none
  | k :: v :: rest =>
    match d.target k, d.target v with
    | some (.scalar s), some item => (d.pairs rest).map ((s.text, item) :: ·)
    | _, _ => none

/-- The fields of the outermost mapping. A text without a document, or with an empty one, has none. -/
def fields (d : Document) : Option (List (List Char × Item)) :=
  match d.items with
  | [] => some []
  | [(_, .scalar s)] => if s.plain ∧ s.text = [] then some [] else none
  | (_, .mapping) :: rest => d.pairs ((rest.filter (·.1 = 1)).map (·.2))
  | _ => none

end Document

/-- The fields of the mapping that a text is. Their keys are scalars. -/
def fieldsOf (text : List Char) : Option (List (List Char × Item)) :=
  (tokens text).bind fun ts => (events ts).bind fun es => (Document.ofEvents 0 [] es).bind (·.fields)

/-! ### Texts -/

def isNull (text : List Char) : Bool :=
  text ∈ [['n', 'u', 'l', 'l'], ['N', 'u', 'l', 'l'], ['N', 'U', 'L', 'L'], ['~']]

def nullTag : List Char := Parser.tagLead ++ ['n', 'u', 'l', 'l']

/-- The text of a value that may be null. Any plain scalar is taken as it is written, but for those that
mean null; a collection has no text. -/
def Item.text? : Item → Option (Option (List Char))
  | .scalar s =>
    if s.plain = false then some (some s.text)
    else if s.tag = some nullTag then (if isNull s.text then some none else none)
    else if s.tag = none ∧ (s.text = [] ∨ isNull s.text) then some none
    else some (some s.text)
  | _ => none

end PluginShading.Yaml
