import PluginShading.Build.Basic

/-!
Reading the arguments of a command. A short option may take its value attached, with or without `=`, or
as the next argument; a long one after `=` or as the next argument. Short flags may be written together.
The value of an option is judged once the next option begins or the arguments end.
-/
namespace PluginShading.Command

open Build (Input InputError)

inductive Parameter
  | inputDirectory
  | file
  | sourceRoot
  | sourceRootName
  | output
  | archive
  | shade
  | project
  | installer
  | noInstall
  | verbose
  | help
  | version
  deriving DecidableEq, Repr

namespace Parameter

def all : List Parameter :=
  [inputDirectory, file, sourceRoot, sourceRootName, output, archive, shade, project, installer,
    noInstall, verbose, help, version]

def short? : Parameter → Option Char
  | inputDirectory => some 'i'
  | file => some 'f'
  | sourceRoot => some 's'
  | sourceRootName => some 'r'
  | output => some 'o'
  | archive => some 'p'
  | shade => some 'a'
  | project => some 'c'
  | verbose => some 'v'
  | help => some 'h'
  | version => some 'V'
  | _ => none

def long? : Parameter → Option String
  | installer => some "composer"
  | noInstall => some "no-install"
  | verbose => some "verbose"
  | help => some "help"
  | version => some "version"
  | _ => none

/-- What the value is called in help texts; nothing for a flag. -/
def valueName? : Parameter → Option String
  | inputDirectory | sourceRoot | output | archive | project | installer => some "PATH"
  | file => some "NAME:PATH"
  | sourceRootName => some "NAME"
  | shade => some "NAMESPACE"
  | _ => none

def takesValue (p : Parameter) : Bool := p.valueName?.isSome

/-- May stand without a value. -/
def valueOptional : Parameter → Bool
  | archive | project => true
  | _ => false

def repeatable : Parameter → Bool
  | file | sourceRoot | shade => true
  | _ => false

/-- An empty value is none. -/
def isPath : Parameter → Bool
  | inputDirectory | sourceRoot | output | archive | project | installer => true
  | _ => false

def ofShort? (c : Char) : Option Parameter := all.find? fun p => p.short? = some c

def ofLong? (name : String) : Option Parameter := all.find? fun p => p.long? = some name

end Parameter

inductive ArgumentError
  /-- `shown` is the argument as messages show it, `long` its name where it is a long option. -/
  | unknown (shown : String) (long : Option String) (given : List Parameter)
  | missingValue (p : Parameter)
  | invalidValue (p : Parameter) (value : String) (cause : InputError)
  | repeated (p : Parameter)
  | unwantedValue (p : Parameter) (value : String) (given : List Parameter)
  deriving DecidableEq, Repr

/-- Why reading ends before the arguments do. -/
inductive Stop
  | help
  | version
  | refused (e : ArgumentError)
  deriving DecidableEq, Repr

/-- An option with its value. -/
structure Occurrence where
  parameter : Parameter
  value : Option String := none
  deriving DecidableEq, Repr

structure Reading where
  /-- What was read and judged, in order. -/
  given : List Occurrence := []
  /-- The option that was read last, if its value is not judged yet. -/
  pending : Option Occurrence := none
  /-- Only plain arguments follow. -/
  plainOnly : Bool := false
  deriving DecidableEq, Repr

namespace Reading

/-- The parameters read so far, each once. -/
def parameters (r : Reading) : List Parameter := (r.given.map (·.parameter)).eraseDups

/-- Judges an occurrence and keeps it. -/
def settle (o : Occurrence) (r : Reading) : Except Stop Reading :=
  let p := o.parameter
  if p.takesValue ∧ p.valueOptional = false ∧ o.value = none then .error (.refused (.missingValue p))
  else if p.repeatable = false ∧ p ∈ r.given.map (·.parameter) then .error (.refused (.repeated p))
  else if p.isPath ∧ o.value = some "" then .error (.refused (.missingValue p))
  else
    let kept : Reading := {r with given := r.given ++ [o]}
    match p, o.value with
    | .help, _ => .error .help
    | .version, _ => .error .version
    | .file, some value =>
      match Input.parse value with
      | .error cause => .error (.refused (.invalidValue p value cause))
      | .ok _ => .ok kept
    | _, _ => .ok kept

def settlePending (r : Reading) : Except Stop Reading :=
  match r.pending with
  | none => .ok r
  | some o => settle o {r with pending := none}

/-- Keeps a complete occurrence behind the pending one. -/
def take (o : Occurrence) (r : Reading) : Except Stop Reading := r.settlePending.bind (settle o)

/-- Waits for the value of an option. -/
def await (p : Parameter) (r : Reading) : Except Stop Reading :=
  r.settlePending.map fun r => {r with pending := some ⟨p, none⟩}

/-- What counts as given when an argument is unknown: the pending option too, where it has its value. -/
def seen (r : Reading) : List Parameter :=
  match r.pending with
  | none => r.parameters
  | some o =>
    if o.parameter.takesValue ∧ o.parameter.valueOptional = false ∧ o.value = none then r.parameters
    else (r.given.map (·.parameter) ++ [o.parameter]).eraseDups

/-- The options written together behind one `-`. -/
def shorts (r : Reading) : List Char → Except Stop Reading
  | [] => .ok r
  | c :: rest =>
    match Parameter.ofShort? c with
    | none => .error (.refused (.unknown ("-" ++ String.singleton c) none []))
    | some p =>
      if p.takesValue = false then (r.take ⟨p, none⟩).bind fun r => r.shorts rest
      else match rest with
        | [] => r.await p
        | '=' :: value => r.take ⟨p, some (String.ofList value)⟩
        | value => r.take ⟨p, some (String.ofList value)⟩

/-- A long option, behind its `--`. -/
def long (r : Reading) (text : List Char) : Except Stop Reading :=
  let name := String.ofList (text.takeWhile (· != '='))
  let value := (text.dropWhile (· != '=')).tail?.map String.ofList
  match Parameter.ofLong? name with
  | none => .error (.refused (.unknown ("--" ++ name) (some name) r.seen))
  | some p =>
    match p.takesValue, value with
    | true, some value => r.take ⟨p, some value⟩
    | true, none => r.await p
    | false, some value => .error (.refused (.unwantedValue p value r.parameters))
    | false, none => r.take ⟨p, none⟩

/-- A plain argument, which can only be the value that an option waits for. -/
def plain (r : Reading) (text : String) : Except Stop Reading :=
  match r.plainOnly, r.pending with
  | false, some ⟨p, none⟩ => .ok {r with pending := some ⟨p, some text⟩}
  | _, _ => .error (.refused (.unknown text none []))

def argument (r : Reading) (text : String) : Except Stop Reading :=
  if r.plainOnly then r.plain text
  else match text.toList with
    | ['-', '-'] => .ok {r with plainOnly := true}
    | '-' :: '-' :: long => r.long long
    | '-' :: c :: shorts => r.shorts (c :: shorts)
    | _ => r.plain text

/-- Reads the arguments one after another. -/
def arguments (r : Reading) : List String → Except Stop Reading
  | [] => r.settlePending
  | text :: rest => (r.argument text).bind fun r => r.arguments rest

end Reading

/-- What a command line asks for. -/
structure Invocation where
  inputDirectory : Option Path := none
  files : List Input := []
  sourceRoots : List Path := []
  sourceRootName : String := Build.defaultSourceRoot
  output : Option Path := none
  /-- Asked for, with a path or without. -/
  archive : Option (Option Path) := none
  shade : List String := []
  project : Option (Option Path) := none
  installer : Option Path := none
  noInstall : Bool := false
  verbose : Bool := false
  deriving DecidableEq, Repr

namespace Invocation

def add (i : Invocation) (o : Occurrence) : Invocation :=
  let path := o.value.map Path.mk
  match o.parameter, o.value with
  | .inputDirectory, _ => {i with inputDirectory := path}
  | .file, some value =>
    match Input.parse value with
    | .ok input => {i with files := i.files ++ [input]}
    | .error _ => i
  | .sourceRoot, some value => {i with sourceRoots := i.sourceRoots ++ [⟨value⟩]}
  | .sourceRootName, some value => {i with sourceRootName := value}
  | .output, _ => {i with output := path}
  | .archive, _ => {i with archive := some path}
  | .shade, some value => {i with shade := i.shade ++ [value]}
  | .project, _ => {i with project := some path}
  | .installer, _ => {i with installer := path}
  | .noInstall, _ => {i with noInstall := true}
  | .verbose, _ => {i with verbose := true}
  | _, _ => i

def ofArguments (arguments : List String) : Except Stop Invocation :=
  (Reading.arguments {} arguments).map fun r => r.given.foldl add {}

end Invocation

end PluginShading.Command
