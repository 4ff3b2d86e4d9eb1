import PluginShading.Programs.Command
import PluginShading.Programs.Script
import PluginShading.Text.Pieces

/-!
A way to run programs that are shell scripts. What a script prints goes to the files that it is redirected
to, the rest is kept as its output and its complaints. A name without a separator is looked for among the
directories of programs.
-/
namespace PluginShading.Programs

open Files (Bytes Disk IoError)

/-! ### Scripts -/

structure Shell where
  disk : Disk
  name : String
  arguments : List String
  /-- The status of the last command. -/
  last : Nat := 0
  /-- How the script ended, once it has. -/
  ended : Option Status := none
  /-- What was printed and went to no file. -/
  output : List Char := []
  /-- What was complained about and went to no file. -/
  complaints : List Char := []
  deriving DecidableEq, Repr

/-- What `$$` stands for. -/
def processMark : String := "1"

def commandNotFound : Nat := 127

namespace Shell

def values (s : Shell) (name : Char) : List String :=
  match name with
  | '@' | '*' => s.arguments
  | '#' => [toString s.arguments.length]
  | '?' => [toString s.last]
  | '$' => [processMark]
  | '0' => [s.name]
  | c => [s.arguments.getD (c.toNat - 49) ""]

def addTo : Option (List Char) → List Char → Option (List Char)
  | none, cs => some cs
  | some front, cs => some (front ++ cs)

/-- Adds values to the field begun; each but the first begins another. -/
def addFields (done : List (List Char)) (current : Option (List Char)) :
    List (List Char) → List (List Char) × Option (List Char)
  | [] => (done, current)
  | [v] => (done, addTo current v)
  | v :: more => addFields (done ++ (addTo current v).toList) none more

def blankPieces (cs : List Char) : List (List Char) :=
  (Text.pieces ' ' (cs.map fun c => if c = '\t' ∨ c = '\n' then ' ' else c)).filter (· ≠ [])

/-- The fields that a word becomes. -/
def expandFrom (s : Shell) (done : List (List Char)) (current : Option (List Char)) :
    Word → List (List Char)
  | [] => done ++ current.toList
  | .text cs :: rest => s.expandFrom done (addTo current cs) rest
  | .parameter quoted name :: rest =>
    let values := (s.values name).map String.toList
    let fields := if quoted = false then values.flatMap blankPieces
      else if name = '*' then [Text.join ' ' values]
      else values
    let (done, current) := addFields done current fields
    s.expandFrom done current rest

def expand (s : Shell) (w : Word) : List String := (s.expandFrom [] none w).map String.ofList

/-- The escapes that printing knows. -/
def unescape : List Char → List Char
  | [] => []
  | '\\' :: c :: rest =>
    match c with
    | 'n' => '\n' :: unescape rest
    | 't' => '\t' :: unescape rest
    | 'r' => '\r' :: unescape rest
    | '\\' => '\\' :: unescape rest
    | c => '\\' :: c :: unescape rest
  | c :: rest => c :: unescape rest

/-- A format with values put in for `%s`, and the values left over. -/
def formatOnce : List Char → List String → List Char × List String
  | '%' :: 's' :: rest, values =>
    let (text, left) := formatOnce rest (values.drop 1)
    ((values.headD "").toList ++ text, left)
  | '%' :: '%' :: rest, values => let (text, left) := formatOnce rest values; ('%' :: text, left)
  | c :: rest, values => let (text, left) := formatOnce rest values; (c :: text, left)
  | [], values => ([], values)

/-- A format, over and over until its values are used up. -/
def format (cs : List Char) (values : List String) : List Char :=
  match formatOnce cs values with
  | (text, left) =>
    if left ≠ [] ∧ left.length < values.length then text ++ format cs left else text
termination_by values.length

def finish (status : Status) (s : Shell) : Shell := {s with ended := some status}

def result (code : Nat) (s : Shell) : Shell := {s with last := code}

def changeDirectory (s : Shell) (target : String) : Shell :=
  match s.disk.find ⟨target⟩ true with
  | .ok (.found place .directory) => {s with last := 0, disk := {s.disk with here := place}}
  | _ => s.result 2

/-- Does a command and gives what it prints. -/
def perform (s : Shell) : List String → Shell × List Char
  | [] => (s.result 0, [])
  | "echo" :: "-n" :: words => (s.result 0, unescape (String.intercalate " " words).toList)
  | "echo" :: words => (s.result 0, unescape (String.intercalate " " words).toList ++ ['\n'])
  | "printf" :: text :: values => (s.result 0, format (unescape text.toList) values)
  | "pwd" :: _ => (s.result 0, (Disk.pathOf s.disk.here).chars ++ ['\n'])
  | ["cd", target] => (s.changeDirectory target, [])
  | "true" :: _ | ":" :: _ | "set" :: _ | "export" :: _ => (s.result 0, [])
  | "false" :: _ => (s.result 1, [])
  | ["exit"] => (s.finish (.exited s.last), [])
  | "exit" :: code :: _ => (s.finish (.exited ((code.toNat?.getD 2) % 256)), [])
  | "kill" :: words =>
    if words.getLast? = some processMark then (s.finish .killed, []) else (s.result 1, [])
  | _ => (s.result commandNotFound, [])

/-! ### Where a command prints -/

/-- Where a stream leads. -/
inductive Outlet
  | output
  | complaints
  /-- A file, with what stands in it before the command prints. -/
  | file (path : Path) (before : Bytes)
  | nowhere
  deriving DecidableEq, Repr

structure Outlets where
  results : Outlet := .output
  complaints : Outlet := .complaints
  deriving DecidableEq, Repr

/-- What is written here is gone. -/
def sink : Path := ⟨"/dev/null"⟩

/-- Opens what one stream is redirected to. -/
def openOutlet (d : Disk) (s : Shell) (o : Outlets) : Destination → Except IoError (Disk × Outlet)
  | .stream 2 => .ok (d, o.complaints)
  | .stream _ => .ok (d, o.results)
  | .file append word =>
    let path : Path := ⟨String.intercalate " " (s.expand word)⟩
    if path = sink then .ok (d, .nowhere)
    else
      let before := if append then (d.read path).toOption.elim [] (·.bytes) else []
      (d.write path before false).map fun d => (d, .file path before)

/-- Opens everything that a command is redirected to, in order. -/
def openOutlets (d : Disk) (s : Shell) (o : Outlets) :
    List Redirection → Except IoError (Disk × Outlets)
  | [] => .ok (d, o)
  | r :: rest =>
    match openOutlet d s o r.target with
    | .error e => .error e
    | .ok (d, outlet) =>
      let o := if r.stream = 2 then {o with complaints := outlet} else {o with results := outlet}
      openOutlets d s o rest

/-- Puts a text where an outlet leads. -/
def deliver (s : Shell) (text : List Char) : Outlet → Shell
  | .output => {s with output := s.output ++ text}
  | .complaints => {s with complaints := s.complaints ++ text}
  | .nowhere => s
  | .file path before =>
    match s.disk.write path (before ++ Bytes.ofText (String.ofList text)) false with
    | .ok d => {s with disk := d}
    | .error _ => s

/-- Opens what a command is redirected to, does it, and delivers what it prints. Files are found from
where the command began. -/
def step (s : Shell) (c : Statement) : Shell :=
  let runs := match c.joint with
    | .always => true
    | .onSuccess => s.last = 0
    | .onFailure => s.last ≠ 0
  if s.ended.isSome ∨ runs = false then s
  else match openOutlets s.disk s {} c.redirections with
    | .error _ => s.result 2
    | .ok (opened, outlets) =>
      let (after, printed) := perform {s with disk := opened} (c.words.flatMap s.expand)
      let delivered := deliver {after with disk := opened} printed outlets.results
      {delivered with disk := {delivered.disk with here := after.disk.here}}

end Shell

/-- Runs a script, which ends as it says, or as its last command did. -/
def Shell.run (s : Shell) (script : Script) : Trace :=
  let s := script.foldl step s
  ⟨s.ended.getD (.exited s.last), s.disk, s.output, s.complaints⟩

/-! ### Programs -/

/-- The program that a `#!` line names. -/
def interpreter? (bytes : Bytes) : Option String :=
  if [0x23, 0x21].isPrefixOf bytes then
    let line := (bytes.drop 2).takeWhile (· ≠ 10)
    (Bytes.text? line).bind fun text =>
      ((Shell.blankPieces text.toList).head?).map String.ofList
  else none

def isShell (p : Path) : Bool := p.fileName.any fun n => n ∈ ["sh", "bash", "dash"]

/-- Runs the file at a path; what interprets it has to exist. -/
def runFile (d : Disk) (program : Path) (arguments : List String) : Except IoError Trace :=
  match runnable d program with
  | .error e => .error e
  | .ok bytes =>
    match interpreter? bytes with
    | none => .error .notExecutable
    | some name =>
      match runnable d ⟨name⟩ with
      | .error e => .error e
      | .ok _ =>
        if isShell ⟨name⟩ = false then .ok ⟨.exited commandNotFound, d, [], []⟩
        else match (Bytes.text? bytes).bind fun text => Script.parse text.toList with
          | none => .ok ⟨.exited 2, d, [], []⟩
          | some script => .ok (Shell.run {disk := d, name := program.text, arguments := arguments} script)

/-- Runs the first program of a name that can be run; `denied` says that one was there that cannot. -/
def runNamed (d : Disk) (name : String) (arguments : List String) (denied : Bool) :
    List Path → Except IoError Trace
  | [] => .error (if denied then .permissionDenied else .notFound)
  | folder :: rest =>
    match runFile d (folder.join ⟨name⟩) arguments with
    | .error .permissionDenied => runNamed d name arguments true rest
    | .error .notFound => runNamed d name arguments denied rest
    | .error .notADirectory => runNamed d name arguments denied rest
    | outcome => outcome

/-- Runs a command inside a directory. -/
def Command.runIn (c : Command) (folder : Path) (folders : List Path) (d : Disk) :
    Except IoError Trace :=
  match d.find folder true with
  | .error e => .error e
  | .ok (.missing _ _) => .error .notFound
  | .ok (.found place entry) =>
    if entry.isDirectory = false then .error .notADirectory
    else
      let inside := {d with here := place}
      let outcome :=
        if c.program.text = "" then .error .notFound
        else if '/' ∈ c.program.chars then runFile inside c.program c.arguments
        else runNamed inside c.program.text c.arguments false folders
      outcome.map fun t => {t with disk := {t.disk with here := d.here}}

end PluginShading.Programs
