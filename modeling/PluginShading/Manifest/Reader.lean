import PluginShading.Files.Disk
import PluginShading.Json.Value
import PluginShading.Manifest.Basic
import PluginShading.Manifest.Error

/-!
Reading a manifest from JSON.

A record may be written as an object or as the list of its fields in order. A field of a record may
occur once only, under one of its names; keys that name no field are skipped, whatever their value. In
tables, such as the packages required, a repeated key takes its last value. Where a table is wanted an
empty list will do, which is how some writers put an empty one.
-/
namespace PluginShading

open Json (Value Fields table)

/-! ### Shapes -/

/-- The value of a field, given the names it goes by: nothing where there is none, failure where there
are several. -/
def fieldOf (fields : Fields) (names : List String) : Option (Option Value) :=
  match fields.filter fun f => names.any fun n => f.1 = some n with
  | [] => some none
  | [f] => some (some f.2)
  | _ => none

/-- The fields of a record, each with the names it goes by. -/
def recordOf (names : List (List String)) : Value → Option (List (Option Value))
  | .object fields => if fields.all (·.1.isSome) then names.mapM (fieldOf fields) else none
  | .array items =>
    if items.length ≤ names.length then
      some (items.map some ++ List.replicate (names.length - items.length) none)
    else none
  | _ => none

def tableOf : Value → Option (List (String × Value))
  | .object fields => some (table fields)
  | .array [] => some []
  | _ => none

/-- A text that may be missing or null. -/
def textOf? : Option Value → Option (Option String)
  | none | some .null => some none
  | some (.string (some s)) => some (some s)
  | _ => none

/-- One path or a list of them. -/
def pathsOf : Value → Option (List String)
  | .string (some s) => some [s]
  | .array items => items.mapM fun
    | .string (some s) => some s
    | _ => none
  | _ => none

/-- A version written as a text or as a number. -/
def specOf : Option Value → Option (Option String)
  | none | some .null => some none
  | some (.string (some s)) => some (some s)
  | some (.number n) => n.value.map fun v => some v.text
  | _ => none

/-! ### Parts -/

def spaceMapsOf (standard : AutoloadStandard) (v : Value) : Option (List Layout) := do
  (← tableOf v).mapM fun (space, paths) => do
    pure (.spaceMap standard space (← pathsOf paths))

/-- The layouts under one key of the autoload table. Keys other than these four add no sources. -/
def layoutsOf (kind : String) (v : Value) : Option (List Layout) :=
  if kind = "psr-0" then spaceMapsOf .psr0 v
  else if kind = "psr-4" then spaceMapsOf .psr4 v
  else if kind = "classmap" then do pure [.classMap (← pathsOf v)]
  else if kind = "files" then do pure [.fileList (← pathsOf v)]
  else some []

/-- The shading block, where it is a record of this shape. Its repeated keys take their last value. -/
def shadingOf (v : Value) : Option ShadingBlock := do
  let once := match v with
    | .object fields => .object ((table fields).map fun f => (some f.1, f.2))
    | other => other
  match ← recordOf [["spec"], ["namespace-root"], ["shared-namespace-root"]] once with
  | [spec, root, shared] => pure ⟨← specOf spec, ← textOf? root, ← textOf? shared⟩
  | _ => none

/-- A table inside `level` containers that may be missing. -/
def usableTable (level : Nat) : Option Value → Option (List (String × Value))
  | none => some []
  | some v => if v.usable level then tableOf v else none

/-- A value under `extra` that may be missing or null. -/
def usableShading : Option Value → Option (Option Value)
  | none | some .null => some none
  | some v => if v.usable 2 then some (some v) else none

/-- What a manifest is made of, the shading block not looked into. -/
structure Outline where
  name : Option String
  require : List String
  layouts : List Layout
  shading : Option Value
  deriving Repr

def outlineOf (v : Value) : Option Outline := do
  match ← recordOf [["name"], ["require"], ["autoload"], ["extra"]] v with
  | [name, require, autoload, extra] =>
    let name ← textOf? name
    let require ← usableTable 1 require
    let autoload ← usableTable 1 autoload
    let shading ← match extra with
      | none => some none
      | some extra => do
        match ← recordOf [["shading", "virion"]] extra with
        | [shading] => usableShading shading
        | _ => none
    let layouts ← autoload.mapM fun (kind, v) => layoutsOf kind v
    pure ⟨name, require.map Prod.fst, layouts.flatten, shading⟩
  | _ => none

/-! ### Manifests -/

namespace Manifest

def ofValue (path : Path) (v : Value) : Except ManifestError Manifest :=
  match outlineOf v with
  | none => .error (.malformed path)
  | some outline =>
    let m : Manifest := {
      path := path, name := outline.name, require := outline.require, layouts := outline.layouts }
    match outline.shading with
    | none => .ok m
    | some v =>
      match shadingOf v with
      | none => .error (.invalidShading path)
      | some block => .ok {m with shading := some block}

/-- Reads the text of the manifest at `path`. -/
def parse (path : Path) (text : List Char) : Except ManifestError Manifest :=
  match Json.parse text with
  | none => .error (.malformed path)
  | some v => ofValue path v

/-- Reads the manifest of the package in a directory. -/
def load (d : Files.Disk) (package : Path) : Except ManifestError Manifest :=
  let path := package.join ⟨fileName⟩
  match d.readText path with
  | .error e => .error (.read path e)
  | .ok text => parse path text.toList

end Manifest

end PluginShading
