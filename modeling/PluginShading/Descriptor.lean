import PluginShading.World
import PluginShading.Yaml.Document

/-!
The plugin descriptor, a YAML file that names the plugin and its main class. The namespace of the main
class is where a build puts its libraries.
-/
namespace PluginShading

structure Descriptor where
  /-- The full name of the main class. -/
  main : Option (List Char) := none
  name : Option (List Char) := none
  deriving DecidableEq, Repr

namespace Descriptor

def fileName : String := "plugin.yml"

/-- The text of a field that may be given once. -/
def fieldText (fields : List (List Char × Yaml.Item)) (key : String) : Option (Option (List Char)) :=
  match fields.filter fun f => f.1 = key.toList with
  | [] => some none
  | [f] => f.2.text?
  | _ => none

/-- Reads a descriptor; other fields may be there and are skipped. -/
def parse (text : List Char) : Option Descriptor := do
  let fields ← Yaml.fieldsOf text
  pure ⟨← fieldText fields "main", ← fieldText fields "name"⟩

def load (path : Path) : Act Descriptor := do
  let text ← Act.ask (.readDescriptor path) (·.readText path)
  match parse text.toList with
  | some d => pure d
  | none => Act.fail ⟨[.parseDescriptor path], some .yaml⟩

/-- The text through its last backslash. -/
def throughSeparator (text : List Char) : Option (List Char) :=
  let space := (text.reverse.dropWhile (· != '\\')).reverse
  if space = [] then none else some space

/-- The namespace of the main class, its last separator included. -/
def mainSpace (d : Descriptor) : Option (List Char) := d.main.bind throughSeparator

end Descriptor

end PluginShading
