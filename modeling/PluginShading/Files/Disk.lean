import PluginShading.Files.IoError
import PluginShading.Files.Tree
import PluginShading.Path

/-!
Finding what a path means, and the elementary operations on files. Paths are followed name by name
through symbolic links, at most `linkLimit` of them. Each operation is a function from a disk to a
disk and fails without changing it, except `removeTree`, which may fail with the contents gone.
-/
namespace PluginShading.Files

structure Disk where
  tree : Tree := {}
  /-- The directory that relative paths start from. -/
  here : Place := []
  /-- The time given to files that are written. -/
  now : Int := 0
  deriving DecidableEq, Repr

def linkLimit : Nat := 40

def nameLimit : Nat := 255

/-- The bytes of a path, the NUL that ends it included. -/
def pathLimit : Nat := 4096

/-- What a path leads to. -/
inductive Spot
  | found (place : Place) (entry : Entry)
  /-- Nothing, but the directory that would hold it exists. -/
  | missing (parent : Place) (name : String)
  deriving DecidableEq, Repr

/-- The names to follow. A separator at the end asks for a directory, like a `.` there. -/
def steps (text : List Char) : List String :=
  ((Text.pieces '/' text).filter (· ≠ [])).map String.ofList ++
    if text.getLast? = some '/' then ["."] else []

/-- The names that following an entry adds to a way. -/
def Entry.linkNames : Entry → List String
  | .link target => steps target.toList
  | _ => []

/-- The names that the links of the tree add at most. -/
def Tree.linkNames (t : Tree) : List String := t.entries.flatMap fun e => e.2.linkNames

theorem Tree.length_linkNames_le {t : Tree} {p : Place} {e : Entry} (h : t.get? p = some e) :
    e.linkNames.length ≤ t.linkNames.length := by
  unfold Tree.get? at h
  split at h
  · cases h
    exact Nat.zero_le _
  · obtain ⟨before, after, hentries, -⟩ := List.lookup_eq_some_iff.1 h
    simp only [Tree.linkNames, hentries, List.flatMap_append, List.flatMap_cons, List.length_append]
    omega

/-- Follows the names from a directory. A link in last position is followed if `through` says so. -/
def follow (t : Tree) (links : Nat) (at_ : Place) (names : List String) (through : Bool) :
    Except IoError Spot :=
  match names with
  | [] =>
    match t.get? at_ with
    | none => .error .notFound
    | some entry => .ok (.found at_ entry)
  | "." :: rest => follow t links at_ rest through
  | ".." :: rest => follow t links at_.dropLast rest through
  | name :: rest =>
    if nameLimit < name.utf8ByteSize then .error .nameTooLong
    else match _h : t.get? (at_ ++ [name]) with
      | none => if rest = [] then .ok (.missing at_ name) else .error .notFound
      | some .directory => follow t links (at_ ++ [name]) rest through
      | some (.file data) =>
        if rest = [] then .ok (.found (at_ ++ [name]) (.file data)) else .error .notADirectory
      | some (.link target) =>
        if rest = [] ∧ through = false then .ok (.found (at_ ++ [name]) (.link target))
        else match links with
          | 0 => .error .tooManyLinks
          | links + 1 =>
            let start := if target.toList.head? = some '/' then [] else at_
            if target.isEmpty then .error .notFound
            else follow t links start (steps target.toList ++ rest) through
termination_by names.length + links * (t.linkNames.length + 1)
decreasing_by
  · simp
  · simp
  · simp
  · have hle := Tree.length_linkNames_le _h
    simp only [Entry.linkNames] at hle
    simp only [List.length_append, List.length_cons, Nat.succ_mul]
    omega

namespace Disk

/-- What a text means as a path. -/
def findText (d : Disk) (text : List Char) (through : Bool) : Except IoError Spot :=
  if text = [] then .error .notFound
  else if '\x00' ∈ text then .error .nulInPath
  else if pathLimit ≤ (String.ofList text).utf8ByteSize then .error .nameTooLong
  else follow d.tree linkLimit (if text.head? = some '/' then [] else d.here) (steps text) through

def find (d : Disk) (p : Path) (through : Bool) : Except IoError Spot := d.findText p.chars through

/-- The text without separators at its end, unless it is nothing but separators. -/
def withoutSlash (text : List Char) : List Char :=
  let trimmed := (text.reverse.dropWhile (· == '/')).reverse
  if trimmed = [] then text else trimmed

/-- What a path means without separators at its end, which count as part of its length all the same. -/
def findTrimmed (d : Disk) (p : Path) (through : Bool) : Except IoError Spot :=
  if '\x00' ∉ p.chars ∧ pathLimit ≤ p.text.utf8ByteSize then .error .nameTooLong
  else d.findText (withoutSlash p.chars) through

/-! ### Questions -/

/-- The entry that a path leads to, links followed. -/
def stat (d : Disk) (p : Path) : Except IoError Entry :=
  match d.find p true with
  | .error e => .error e
  | .ok (.missing _ _) => .error .notFound
  | .ok (.found _ entry) => .ok entry

/-- The entry that a path names; a link is itself. -/
def statLink (d : Disk) (p : Path) : Except IoError Entry :=
  match d.find p false with
  | .error e => .error e
  | .ok (.missing _ _) => .error .notFound
  | .ok (.found _ entry) => .ok entry

def exists? (d : Disk) (p : Path) : Bool :=
  match d.stat p with
  | .ok _ => true
  | .error _ => false

def isFile (d : Disk) (p : Path) : Bool :=
  match d.stat p with
  | .ok entry => entry.isFile
  | .error _ => false

def isDirectory (d : Disk) (p : Path) : Bool :=
  match d.stat p with
  | .ok entry => entry.isDirectory
  | .error _ => false

def pathOf (place : Place) : Path := ⟨"/" ++ String.intercalate "/" place⟩

/-- The one absolute spelling of a path that leads somewhere; any other path is left as it is. -/
def canonical (d : Disk) (p : Path) : Path :=
  match d.find p true with
  | .ok (.found place _) => pathOf place
  | _ => p

def read (d : Disk) (p : Path) : Except IoError FileData :=
  match d.stat p with
  | .error e => .error e
  | .ok (.file data) => .ok data
  | .ok _ => .error .isADirectory

def readText (d : Disk) (p : Path) : Except IoError String :=
  match d.read p with
  | .error e => .error e
  | .ok data =>
    match data.bytes.text? with
    | none => .error .notText
    | some text => .ok text

/-- The entries of a directory, in the order of their names. -/
def list (d : Disk) (p : Path) : Except IoError (List (String × Entry)) :=
  match d.find p true with
  | .error e => .error e
  | .ok (.missing _ _) => .error .notFound
  | .ok (.found place entry) =>
    if entry.isDirectory then .ok (d.tree.children place) else .error .notADirectory

/-! ### Changes -/

def put (d : Disk) (place : Place) (entry : Entry) : Disk := {d with tree := d.tree.set place entry}

/-- Creates a directory in one that exists. -/
def makeDirectory (d : Disk) (p : Path) : Except IoError Disk :=
  match d.findTrimmed p false with
  | .error e => .error e
  | .ok (.found _ _) => .error .alreadyExists
  | .ok (.missing parent name) => .ok (d.put (parent ++ [name]) .directory)

/-- Writes a file, creating it if there is none. A file that exists keeps whether it may be run. -/
def write (d : Disk) (p : Path) (bytes : Bytes) (executable : Bool) : Except IoError Disk :=
  match d.findTrimmed p true with
  | .error e => .error e
  | .ok spot =>
    if p.chars.getLast? = some '/' then .error .isADirectory
    else match spot with
      | .missing parent name => .ok (d.put (parent ++ [name]) (.file ⟨bytes, d.now, executable⟩))
      | .found place (.file old) => .ok (d.put place (.file ⟨bytes, d.now, old.executable⟩))
      | .found _ _ => .error .isADirectory

/-- Creates an empty file where there is nothing. -/
def createNew (d : Disk) (p : Path) : Except IoError Disk :=
  match d.findTrimmed p false with
  | .error e => .error e
  | .ok (.found _ _) => .error .alreadyExists
  | .ok (.missing parent name) => .ok (d.put (parent ++ [name]) (.file ⟨[], d.now, false⟩))

/-- Removes a file or a link. -/
def unlink (d : Disk) (p : Path) : Except IoError Disk :=
  match d.find p false with
  | .error e => .error e
  | .ok (.missing _ _) => .error .notFound
  | .ok (.found _ .directory) => .error .isADirectory
  | .ok (.found place _) => .ok {d with tree := d.tree.erase place}

/-- Why a directory whose contents are gone stays: its path ends in `.` or `..`, or goes through a
link, or it is the root. -/
def keepsDirectory (d : Disk) (p : Path) (place : Place) : Option IoError :=
  match (steps (withoutSlash p.chars)).getLast? with
  | some "." => some .invalidArgument
  | some ".." => some .directoryNotEmpty
  | _ =>
    if place = [] then some .resourceBusy
    else match d.findText (withoutSlash p.chars) false with
      | .ok (.found _ (.link _)) => some .notADirectory
      | _ => none

/-- Removes a directory with all it holds; a link is removed itself. The contents go first, so they
are gone even where the directory has to stay. -/
def removeTree (d : Disk) (p : Path) : Except IoError Unit × Disk :=
  match d.find p false with
  | .error e => (.error e, d)
  | .ok (.missing _ _) => (.error .notFound, d)
  | .ok (.found _ (.file _)) => (.error .notADirectory, d)
  | .ok (.found place (.link _)) => (.ok (), {d with tree := d.tree.erase place})
  | .ok (.found place .directory) =>
    let emptied := {d with tree := d.tree.eraseBelow place}
    match d.keepsDirectory p place with
    | some e => (.error e, emptied)
    | none => (.ok (), {emptied with tree := emptied.tree.erase place})

/-- A path that ends in `.` or `..` names a directory that cannot be renamed. -/
def endsInDots (p : Path) : Bool :=
  match (steps (withoutSlash p.chars)).getLast? with
  | some "." | some ".." | none => true
  | _ => false

/-- Moves the file or directory at `old` to `new`. A file replaces a file or a link, a directory only
an empty directory. -/
def rename (d : Disk) (old new : Path) : Except IoError Disk :=
  match d.findTrimmed old false with
  | .error e => .error e
  | .ok (.missing _ _) => .error .notFound
  | .ok (.found source entry) =>
    match d.findTrimmed new false with
    | .error e => .error e
    | .ok target =>
      if endsInDots old || endsInDots new then .error .resourceBusy
      else if new.chars.getLast? = some '/' ∧ entry.isDirectory = false then .error .notADirectory
      else
        let (place, present) := match target with
          | .missing parent name => (parent ++ [name], none)
          | .found place entry => (place, some entry)
        if place = source then .ok d
        else if source <+: place then .error .invalidArgument
        else match present with
          | some .directory =>
            if entry.isDirectory = false then .error .isADirectory
            else if d.tree.below place = [] then .ok {d with tree := d.tree.move source place}
            else .error .directoryNotEmpty
          | some _ =>
            if entry.isDirectory then .error .notADirectory
            else .ok {d with tree := d.tree.move source place}
          | none => .ok {d with tree := d.tree.move source place}

end Disk

end PluginShading.Files
