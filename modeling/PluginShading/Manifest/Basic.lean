import PluginShading.Path

/-!
Package manifests, as far as packaging looks at them: what a package requires, where its sources lie
and which namespace it wants shaded.
-/
namespace PluginShading

/-- The two conventions for mapping a namespace to directories. -/
inductive AutoloadStandard
  | psr0
  | psr4
  deriving DecidableEq, Repr

/-- One declaration of where sources lie. -/
inductive Layout
  | spaceMap (standard : AutoloadStandard) (space : String) (paths : List String)
  /-- Directories or files that are searched for classes. -/
  | classMap (paths : List String)
  /-- Files that are always loaded. -/
  | fileList (paths : List String)
  deriving DecidableEq, Repr

def Layout.paths : Layout → List String
  | spaceMap _ _ paths | classMap paths | fileList paths => paths

/-- What a package says about its shading, not checked yet. -/
structure ShadingBlock where
  /-- The version of the specification. A number is kept as it is printed. -/
  spec : Option String := none
  root : Option String := none
  shared : Option String := none
  deriving DecidableEq, Repr

structure Manifest where
  path : Path
  name : Option String := none
  /-- The packages required, in the order in which they are declared. -/
  require : List String := []
  layouts : List Layout := []
  shading : Option ShadingBlock := none
  deriving DecidableEq, Repr

namespace Manifest

def fileName : String := "composer.json"

/-- The directory that holds the manifest. -/
def directory (m : Manifest) : Path := m.path.parent.getD ⟨"."⟩

def sourceRoots (m : Manifest) : List Path :=
  (m.layouts.flatMap Layout.paths).map fun p => m.directory.join ⟨p⟩

end Manifest

end PluginShading
