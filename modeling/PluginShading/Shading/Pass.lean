import PluginShading.Log
import PluginShading.Shading.Rule
import PluginShading.Source.File
import PluginShading.Source.Lexer

/-!
Shading source files. Each rule is one pass over all files: names under its root move behind the
target, in the tokens that are qualified or fully qualified names and nowhere else; the namespace of a
file moves with them. A file that lies in the sources of a rule's library but declares a namespace
outside of it is dropped.

Where paths lie is a question to the file system, so a pass is given `locate`, which leads every
spelling of a path to one canonical one.
-/
namespace PluginShading.Shading

open Source (Token File Declaration LexError tokenize)

/-! ### Text -/

/-- What a rule makes of the text of one token. -/
def shadeToken (r : Rule) (t : Token) : List Char :=
  match t.kind, t.text with
  | .qualifiedName, name => if under r.root name then r.relocate name else name
  | .fullyQualifiedName, '\\' :: name =>
    if under r.root name then separator :: r.relocate name else '\\' :: name
  | _, other => other

def openLine : List Char := ['<', '?', 'p', 'h', 'p', '\n']

/-- The fragment begins with an open tag, so it can be divided into tokens as it is. -/
def opensCode (code : List Char) : Bool := Source.spells "<?php" (code.take 5)

/-- The tokens of a fragment; one that does not open code itself is read as code all the same. -/
def fragmentTokens (code : List Char) : Except LexError (List Token) :=
  if opensCode code then tokenize code
  else (tokenize (openLine ++ code)).map List.tail

/-- Moves the names in a fragment that are under the rule's root. -/
def shadeCode (r : Rule) (code : List Char) : Except LexError (List Char) :=
  (fragmentTokens code).map fun ts => ts.flatMap (shadeToken r)

/-! ### Files -/

/-- A fragment of the file at `path` that cannot be divided into tokens. -/
structure PassError where
  path : Path
  cause : LexError
  deriving DecidableEq, Repr

def shadeDeclaration (r : Rule) (d : Declaration) : Except LexError Declaration :=
  (shadeCode r d.code).map fun code => {d with code := code}

def shadeDeclarations (r : Rule) : List Declaration → Except LexError (List Declaration)
  | [] => .ok []
  | d :: rest =>
    match shadeDeclaration r d with
    | .error e => .error e
    | .ok d => (shadeDeclarations r rest).map (d :: ·)

def shadeFile (r : Rule) (f : File) : Except PassError File :=
  match shadeCode r f.header with
  | .error e => .error ⟨f.path, e⟩
  | .ok header =>
    match shadeDeclarations r f.declarations with
    | .error e => .error ⟨f.path, e⟩
    | .ok ds =>
      let space := if r.shades f.space then r.relocate f.space else f.space
      .ok {f with header := header, space := space, declarations := ds}

/-- The path lies in the sources of the rule's library. -/
def owns (locate : Path → Path) (r : Rule) (path : Path) : Bool :=
  match r.sources with
  | none => false
  | some roots => roots.any fun root => (locate path).startsWith (locate root)

/-- The file sits in the library without belonging to it. -/
def strays (locate : Path → Path) (r : Rule) (f : File) : Bool :=
  !r.shades f.space && !r.shares f.space && owns locate r f.path

/-- One rule applied to all files. -/
def pass (locate : Path → Path) (r : Rule) : List File → Except PassError (List File)
  | [] => .ok []
  | f :: rest =>
    if strays locate r f then pass locate r rest
    else match shadeFile r f with
      | .error e => .error e
      | .ok shaded => (pass locate r rest).map (shaded :: ·)

/-- The rules in their order, each a pass over what the ones before it left. -/
def applyRules (locate : Path → Path) (rules : List Rule) (files : List File) :
    Except PassError (List File) :=
  match rules with
  | [] => .ok files
  | r :: rest =>
    match pass locate r files with
    | .error e => .error e
    | .ok files => applyRules locate rest files

/-! ### What is reported -/

def dropWarning (r : Rule) (f : File) : Event :=
  ⟨.warning, f.path.text ++ " is in the source roots of " ++ String.ofList r.root ++
    " but declares namespace " ++ String.ofList f.space ++ ", dropping it"⟩

/-- A warning for every file dropped before the pass ends or fails. -/
def passLog (locate : Path → Path) (r : Rule) : List File → Log
  | [] => []
  | f :: rest =>
    if strays locate r f then dropWarning r f :: passLog locate r rest
    else match shadeFile r f with
      | .error _ => []
      | .ok _ => passLog locate r rest

def applyLog (locate : Path → Path) (rules : List Rule) (files : List File) : Log :=
  match rules with
  | [] => []
  | r :: rest =>
    ⟨.debug, "shading " ++ String.ofList r.root ++ " under " ++ String.ofList r.target.text⟩ ::
      passLog locate r files ++
      match pass locate r files with
      | .error _ => []
      | .ok files => applyLog locate rest files

end PluginShading.Shading
