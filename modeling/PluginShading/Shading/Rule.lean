import PluginShading.Shading.Namespace
import PluginShading.Path

/-!
Shading rules: which namespace root is moved under the build's target. A rule also knows which
namespace its library leaves alone on purpose and where the library's sources lie, so that files that
merely sit in the library can be told from files that belong to it.
-/
namespace PluginShading.Shading

def isSegmentChar (c : Char) : Bool := c.isAlphanum || c == '_'

/-- Two or more segments of letters, digits and underscores. -/
def isRoot (space : List Char) : Bool :=
  let segments := Text.pieces separator space
  2 ≤ segments.length && segments.all fun s => !s.isEmpty && s.all isSegmentChar

structure Rule where
  root : List Char
  root_valid : isRoot root = true
  target : Target
  /-- A namespace of the same library that stays where it is. -/
  shared : Option (List Char) := none
  /-- Where the sources of the library lie, where that is known. -/
  sources : Option (List Path) := none
  deriving DecidableEq, Repr

namespace Rule

def ofRoot (root : List Char) (target : Target) : Except ShadingError Rule :=
  if h : isRoot root = true then .ok {root := root, root_valid := h, target := target}
  else .error (.invalidNamespace root)

/-- The namespace is moved by this rule. -/
def shades (r : Rule) (space : List Char) : Bool := under r.root space

/-- The namespace is the library's and stays. -/
def shares (r : Rule) (space : List Char) : Bool :=
  match r.shared with
  | none => false
  | some shared => under shared space

def relocate (r : Rule) (name : List Char) : List Char := r.target.relocate name

end Rule

end PluginShading.Shading
