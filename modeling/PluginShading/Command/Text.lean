import PluginShading.Command.Arguments

/-!
What the command line says about itself: its help, its usage line, and its complaints about arguments.
A long option that is not known is compared with those that are, by the share of characters that they
have in common and in order (`likeness`).
-/
namespace PluginShading.Command

def programName : String := "shadepack"

def version : String := "0.1.0"

def versionText : String := programName ++ " " ++ version ++ "\n"

/-! ### Parameters in texts -/

namespace Parameter

def description : Parameter → String
  | inputDirectory =>
    "Plugin directory: copies plugin.yml and resources/, and adds src/ as a source root"
  | file => "Copy a file or directory into the output under NAME"
  | sourceRoot => "Add a source root to split and shade"
  | sourceRootName =>
    "Name of the source root directory in the output [default: " ++ Build.defaultSourceRoot ++ "]"
  | output => "Write the output tree to this directory"
  | archive => "Package the output into an archive (.phar, .tar.gz or .tgz)"
  | shade => "Shade this namespace root (repeatable)"
  | project => "Take source roots and shaded libraries from the composer project here"
  | installer => "Composer executable used to install dependencies [env: SHADEPACK_COMPOSER=]"
  | noInstall => "Use the dependencies already installed under vendor/"
  | verbose => "Enable verbose output"
  | help => "Print help"
  | version => "Print version"

/-- The placeholder of the value, behind a blank. -/
def valueText (p : Parameter) : String :=
  match p.valueName? with
  | none => ""
  | some name => if p.valueOptional then " [<" ++ name ++ ">]" else " <" ++ name ++ ">"

/-- How messages name the parameter. -/
def text (p : Parameter) : String :=
  (match p.long?, p.short? with
    | some name, _ => "--" ++ name
    | none, some c => "-" ++ String.singleton c
    | none, none => "") ++ p.valueText

/-- How the list of options names it, in aligned columns. -/
def listed (p : Parameter) : String :=
  (match p.short?, p.long? with
    | some c, some name => "-" ++ String.singleton c ++ ", --" ++ name
    | some c, none => "-" ++ String.singleton c
    | none, some name => "    --" ++ name
    | none, none => "") ++ p.valueText

end Parameter

def padTo (width : Nat) (s : String) : String := s ++ "".pushn ' ' (width - s.length)

/-- The usage line; the options given, where there are any, in place of the summary. -/
def usage (given : List Parameter) : String :=
  "Usage: " ++ programName ++ " " ++
    if given = [] then "[OPTIONS]" else String.intercalate " " (given.map Parameter.text)

def helpText : String :=
  let width := (Parameter.all.map fun p => p.listed.length).foldl max 0
  "Package a namespaced PHP plugin into a single archive with shaded library dependencies\n\n" ++
    usage [] ++ "\n\nOptions:\n" ++
    String.join (Parameter.all.map fun p => "  " ++ padTo width p.listed ++ "  " ++ p.description ++ "\n")

/-! ### Likeness of words -/

/-- Pairs the characters of `a` with equal ones of `b` that are not paired yet and lie within `range` of
the same position. `taken` says which of `b` are paired; the result also says so of `a`. -/
def pairUp (range : Nat) (b : List Char) : Nat → List Char → List Bool → List Bool × List Bool
  | _, [], taken => ([], taken)
  | i, c :: rest, taken =>
    let spot := (List.range b.length).find? fun j =>
      i - range ≤ j ∧ j ≤ i + range ∧ b[j]? = some c ∧ taken[j]? = some false
    let taken := match spot with
      | some j => taken.set j true
      | none => taken
    let (paired, taken) := pairUp range b (i + 1) rest taken
    (spot.isSome :: paired, taken)

def chosen (s : List Char) (paired : List Bool) : List Char :=
  (s.zip paired).filterMap fun p => if p.2 then some p.1 else none

/-- Three times the likeness of two words, as a numerator and a denominator: the share of characters
paired in each word, and the share of pairs in the same order. -/
def likeness (a b : List Char) : Nat × Nat :=
  let range := max a.length b.length / 2 - 1
  let (inA, inB) := pairUp range b 0 a (b.map fun _ => false)
  let pairs := (chosen a inA).zip (chosen b inB)
  let m := pairs.length
  let swapped := (pairs.filter fun p => p.1 ≠ p.2).length / 2
  if m = 0 then (0, 1)
  else
    (m * m * b.length + m * m * a.length + (m - swapped) * a.length * b.length,
      a.length * b.length * m)

/-- The known long option that is most like a name, if it is like enough. -/
def similar (name : String) : Option Parameter :=
  let scored := Parameter.all.filterMap fun p => p.long?.map fun known =>
    (p, likeness name.toList known.toList)
  let close := scored.filter fun s => 21 * s.2.2 < 10 * s.2.1
  (close.foldl (fun best s =>
    match best with
    | none => some s
    | some (b : Parameter × Nat × Nat) => if s.2.1 * b.2.2 < b.2.1 * s.2.2 then some b else some s)
    none).map (·.1)

/-! ### Complaints -/

def hint : String := "\n\nFor more information, try '--help'.\n"

namespace ArgumentError

/-- What an error is about, in one line. -/
def summary : ArgumentError → String
  | unknown shown _ _ => "unexpected argument '" ++ shown ++ "' found"
  | missingValue p => "a value is required for '" ++ p.text ++ "' but none was supplied"
  | invalidValue p value cause =>
    "invalid value '" ++ value ++ "' for '" ++ p.text ++ "': " ++ cause.message
  | repeated p => "the argument '" ++ p.text ++ "' cannot be used multiple times"
  | unwantedValue p value _ =>
    "unexpected value '" ++ value ++ "' for '" ++ p.text ++ "' found; no more were expected"

/-- Further lines: a similar option and the usage. -/
def details : ArgumentError → String
  | unknown _ (some name) given =>
    match similar name with
    | some p => "\n\n  tip: a similar argument exists: '--" ++ p.long?.getD "" ++ "'\n\n" ++
        usage (given ++ [p]).eraseDups
    | none => "\n\n" ++ usage given
  | unknown _ none _ => "\n\n" ++ usage []
  | repeated _ => "\n\n" ++ usage []
  | unwantedValue _ _ given => "\n\n" ++ usage given
  | _ => ""

def message (e : ArgumentError) : String := "error: " ++ e.summary ++ e.details ++ hint

end ArgumentError

end PluginShading.Command
