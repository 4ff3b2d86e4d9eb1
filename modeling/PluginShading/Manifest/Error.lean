import PluginShading.Files.IoError
import PluginShading.Path
import PluginShading.Shading.Namespace

/-!
What can be wrong with a manifest, by itself or met while dependencies are resolved. Every error names
the manifest's path.
-/
namespace PluginShading

inductive ManifestError
  | read (path : Path) (cause : Files.IoError)
  | malformed (path : Path)
  | invalidShading (path : Path)
  | missingSpec (path : Path)
  | invalidSpecVersion (path : Path) (version : String)
  | specTooNew (path : Path) (version : String)
  | specTooOld (path : Path) (version : String)
  | missingNamespaceRoot (path : Path)
  | invalidDependencyName (name : String) (referencedFrom : Path)
  | invalidNamespace (path : Path) (cause : Shading.ShadingError)
  deriving DecidableEq, Repr

namespace ManifestError

def message : ManifestError → String
  | read path _ => "failed to read manifest: " ++ path.text
  | malformed path => "failed to parse manifest: " ++ path.text
  | invalidShading path => "invalid shading block in " ++ path.text
  | missingSpec path => "shading block in " ++ path.text ++ " does not declare a spec version"
  | invalidSpecVersion path version =>
    "spec version \"" ++ version ++ "\" in " ++ path.text ++ " is not a version number"
  | specTooNew path version =>
    path.text ++ " requires shading spec " ++ version ++ ", which is newer than this tool supports"
  | specTooOld path version =>
    path.text ++ " uses shading spec " ++ version ++ ", which is no longer supported"
  | missingNamespaceRoot path =>
    "shading block in " ++ path.text ++ " does not declare a namespace-root"
  | invalidDependencyName name referencedFrom =>
    "invalid dependency name `" ++ name ++ "` required by " ++ referencedFrom.text
  | invalidNamespace path _ => "invalid namespace-root in " ++ path.text

/-- The name under which diagnostics list the error. -/
def code : ManifestError → String
  | read _ _ => "shadepack::manifest::read"
  | malformed _ => "shadepack::manifest::malformed"
  | invalidShading _ => "shadepack::manifest::invalid_shading"
  | missingSpec _ => "shadepack::manifest::missing_spec"
  | invalidSpecVersion _ _ => "shadepack::manifest::invalid_spec"
  | specTooNew _ _ => "shadepack::manifest::spec_too_new"
  | specTooOld _ _ => "shadepack::manifest::spec_too_old"
  | missingNamespaceRoot _ => "shadepack::manifest::missing_namespace_root"
  | invalidDependencyName _ _ => "shadepack::manifest::invalid_dependency"
  | invalidNamespace _ _ => "shadepack::manifest::invalid_namespace"

def help : ManifestError → Option String
  | read _ _ => some "run `composer install` so every dependency is present under vendor/"
  | specTooNew _ _ => some "upgrade shadepack or pin an older release of the dependency"
  | specTooOld _ _ => some "upgrade the dependency to a release built for spec 3.x"
  | invalidDependencyName _ _ => some "dependency names have the form `vendor/package`"
  | _ => none

end ManifestError

end PluginShading
