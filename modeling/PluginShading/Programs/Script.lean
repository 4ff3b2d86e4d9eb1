/-!
Shell scripts in a small common part of the language: simple commands with quotes, parameters and
redirections, one after another or joined by `&&` and `||`. `Script.parse` gives nothing for anything
else, such as control structures, pipes and substitutions.
-/
namespace PluginShading.Programs

/-- A part of a word. What is quoted is not divided at blanks. -/
inductive Part
  | text (cs : List Char)
  | parameter (quoted : Bool) (name : Char)
  deriving DecidableEq, Repr

abbrev Word := List Part

/-- Where a stream goes. -/
inductive Destination
  | file (append : Bool) (path : Word)
  /-- Where another stream goes. -/
  | stream (number : Nat)
  deriving DecidableEq, Repr

structure Redirection where
  /-- The number of the stream: 1 is for results, 2 for complaints. -/
  stream : Nat
  target : Destination
  deriving DecidableEq, Repr

/-- When a command runs, given whether the one before it succeeded. -/
inductive Joint
  | always
  | onSuccess
  | onFailure
  deriving DecidableEq, Repr

structure Statement where
  joint : Joint
  words : List Word
  redirections : List Redirection := []
  deriving DecidableEq, Repr

abbrev Script := List Statement

/-! ### Symbols -/

inductive Symbol
  | word (w : Word)
  | finish
  | both
  | either
  /-- To the file that the next word names. -/
  | redirect (stream : Nat) (append : Bool)
  | duplicate (stream target : Nat)
  deriving DecidableEq, Repr

/-- The parameters of a script: its name, arguments, their number, the status and the process. -/
def isParameter (c : Char) : Bool := c.isDigit || c ∈ ['@', '*', '#', '?', '$']

/-- Characters that mean something that is not covered here. -/
def isForeign (c : Char) : Bool :=
  c ∈ ['\u0060', '(', ')', '\x7b', '\x7d', '*', '?', '[', ']', '<', '|', '&', '~', '!']

inductive Mode
  | bare
  | single
  | double
  | comment
  deriving DecidableEq, Repr

structure Scan where
  mode : Mode := .bare
  /-- The word begun, the last part first. -/
  word : Option (List Part) := none
  /-- The symbols so far, the last first. -/
  symbols : List Symbol := []
  deriving DecidableEq, Repr

namespace Scan

def add (c : Char) (s : Scan) : Scan :=
  {s with word := some (match s.word with
    | some (.text cs :: parts) => .text (cs ++ [c]) :: parts
    | some parts => .text [c] :: parts
    | none => [.text [c]])}

def addParameter (name : Char) (s : Scan) : Scan :=
  {s with word := some (.parameter (s.mode = .double) name :: s.word.getD [])}

/-- A quote begins a word even if nothing is in it. -/
def enter (m : Mode) (s : Scan) : Scan := {s with mode := m, word := some (s.word.getD [.text []])}

def leave (s : Scan) : Scan := {s with mode := .bare}

def endWord (s : Scan) : Scan :=
  match s.word with
  | none => s
  | some parts => {s with word := none, symbols := .word parts.reverse :: s.symbols}

def emit (t : Symbol) (s : Scan) : Scan := {s.endWord with symbols := t :: s.endWord.symbols}

/-- A redirection, of the stream in front of it, where the word begun is a digit. -/
def redirect (make : Nat → Symbol) (s : Scan) : Scan :=
  match s.word with
  | some [.text ['1']] => {s with word := none, symbols := make 1 :: s.symbols}
  | some [.text ['2']] => {s with word := none, symbols := make 2 :: s.symbols}
  | _ => s.emit (make 1)

def run (s : Scan) : List Char → Option (List Symbol)
  | [] => if s.mode = .single ∨ s.mode = .double then none else some s.endWord.symbols.reverse
  | c :: rest =>
    match s.mode with
    | .comment => if c = '\n' then run (s.leave.emit .finish) rest else run s rest
    | .single => if c = '\'' then run s.leave rest else run (s.add c) rest
    | .double =>
      match c, rest with
      | '"', rest => run s.leave rest
      | '\\', '\n' :: rest => run s rest
      | '\\', d :: rest =>
        if d ∈ ['$', '"', '\\', '\u0060'] then run (s.add d) rest else run ((s.add '\\').add d) rest
      | '$', d :: rest =>
        if isParameter d then run (s.addParameter d) rest
        else if d.isAlpha ∨ d = '_' ∨ d = '(' ∨ d = '\x7b' then none
        else if d = '"' then run (s.add '$').leave rest
        else run ((s.add '$').add d) rest
      | '\u0060', _ => none
      | c, rest => run (s.add c) rest
    | .bare =>
      match c, rest with
      | '\'', rest => run (s.enter .single) rest
      | '"', rest => run (s.enter .double) rest
      | '\\', '\n' :: rest => run s rest
      | '\\', d :: rest => run (s.add d) rest
      | '$', d :: rest => if isParameter d then run (s.addParameter d) rest else none
      | ' ', rest | '\t', rest => run s.endWord rest
      | '\n', rest | ';', rest => run (s.emit .finish) rest
      | '&', '&' :: rest => run (s.emit .both) rest
      | '|', '|' :: rest => run (s.emit .either) rest
      | '>', '>' :: rest => run (s.redirect (.redirect · true)) rest
      | '>', '&' :: '1' :: rest => run (s.redirect (.duplicate · 1)) rest
      | '>', '&' :: '2' :: rest => run (s.redirect (.duplicate · 2)) rest
      | '>', rest => run (s.redirect (.redirect · false)) rest
      | '#', rest =>
        if s.word = none then run {s with mode := .comment} rest else run (s.add '#') rest
      | c, rest => if isForeign c then none else run (s.add c) rest

end Scan

/-! ### Statements -/

/-- Words that begin a control structure. -/
def reserved : List String :=
  ["if", "then", "else", "elif", "fi", "do", "done", "case", "esac", "while", "until", "for"]

/-- Gathers symbols into statements; `current` is the one begun. -/
def statements (joint : Joint) (current : Statement) : List Symbol → Option Script
  | [] =>
    if current.words = [] ∧ current.redirections = [] then (if joint = .always then some [] else none)
    else some [current]
  | .word w :: rest =>
    if current.words = [] ∧ reserved.any (fun r => w = [.text r.toList]) then none
    else statements joint {current with words := current.words ++ [w]} rest
  | .redirect stream append :: .word w :: rest =>
    statements joint
      {current with redirections := current.redirections ++ [⟨stream, .file append w⟩]} rest
  | .redirect _ _ :: _ => none
  | .duplicate stream target :: rest =>
    statements joint
      {current with redirections := current.redirections ++ [⟨stream, .stream target⟩]} rest
  | .finish :: rest =>
    if current.words = [] ∧ current.redirections = [] then statements joint current rest
    else (statements .always ⟨.always, [], []⟩ rest).map (current :: ·)
  | .both :: rest =>
    if current.words = [] then none
    else (statements .onSuccess ⟨.onSuccess, [], []⟩ rest).map (current :: ·)
  | .either :: rest =>
    if current.words = [] then none
    else (statements .onFailure ⟨.onFailure, [], []⟩ rest).map (current :: ·)

def Script.parse (text : List Char) : Option Script :=
  (Scan.run {} text).bind (statements .always ⟨.always, [], []⟩)

end PluginShading.Programs
