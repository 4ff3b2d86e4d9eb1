import PluginShading.Files.IoError
import PluginShading.Files.Bytes
import PluginShading.Path

/-!
The tar format with its GNU extensions for long names and large sizes. A header takes one block of 512
bytes, and the contents of a member are filled up to whole blocks. Members have one time and one owner, so
equal trees make equal archives. `records` reads the format back without using anything of the writer but
the marks.

A name is written by its components, so doubled separators and inner `.` go. One that does not fit its
100 bytes comes in an entry of its own in front, and its header then holds only the beginning.
-/
namespace PluginShading.Archive.Tar

open Files (Bytes IoError)

structure Member where
  name : String
  bytes : Bytes
  executable : Bool := false
  directory : Bool := false
  deriving DecidableEq, Repr

def blockSize : Nat := 512

def nameSize : Nat := 100

/-- The time of every member. -/
def modified : Nat := 1153704088

/-! ### Names -/

/-- The name field of a header while it is filled: a part that was written stays, up to what is written
over it. -/
structure NameField where
  bytes : Bytes := List.replicate nameSize 0
  filled : Nat := 0
  deriving DecidableEq, Repr

namespace NameField

/-- Writes behind what is there, with a NUL at the end where one fits. -/
def put (f : NameField) (piece : Bytes) : Except String NameField :=
  if nameSize < f.filled + piece.length then .error "provided value is too long"
  else if 0 ∈ piece then .error "provided value contains a nul byte"
  else
    let stop := f.filled + piece.length
    let mark := if stop < nameSize then [0] else []
    .ok ⟨f.bytes.take f.filled ++ piece ++ mark ++ f.bytes.drop (stop + mark.length), stop⟩

/-- Writes pieces up to the first that cannot be written. -/
def putAll (f : NameField) : List Bytes → NameField × Option String
  | [] => (f, none)
  | piece :: rest =>
    match f.put piece with
    | .ok f => putAll f rest
    | .error message => (f, some message)

end NameField

/-- A component as it goes into a name, or why it cannot. A `.` goes in only where it is all there is,
and `..` only where the name was cut there. -/
def componentBytes (alone cut last : Bool) : Component → Except String (Option Bytes)
  | .root => .error "paths in archives must be relative"
  | .up =>
    if cut && last then .ok (some (Bytes.ofText ".."))
    else .error "paths in archives must not have `..`"
  | .here => .ok (if alone then some (Bytes.ofText ".") else none)
  | .name s => .ok (some (Bytes.ofText s))

def fillComponents (alone cut : Bool) (f : NameField) : List Component → NameField × Option String
  | [] => (f, none)
  | c :: rest =>
    match componentBytes alone cut (rest = []) c with
    | .error message => (f, some message)
    | .ok none => fillComponents alone cut f rest
    | .ok (some piece) =>
      match f.putAll (if f.filled = 0 then [piece] else [Bytes.ofText "/", piece]) with
      | (f, none) => fillComponents alone cut f rest
      | failed => failed

/-- Writes a name from the beginning of the field. -/
def fill (cut : Bool) (f : NameField) (p : Path) : NameField × Option String :=
  match fillComponents (p.components.length = 1) cut {f with filled := 0} p.components with
  | (f, none) =>
    if f.filled = 0 then (f, some "paths in archives must have at least one component")
    else if p.chars.getLast? = some '/' then f.putAll [Bytes.ofText "/"]
    else (f, none)
  | failed => failed

/-- The longest beginning of a name that fits its field and is text. -/
def truncated (name : Bytes) : String :=
  let front := name.take nameSize
  (((List.range 4).filterMap fun n => Bytes.text? (front.take (front.length - n))).head?).getD ""

/-! ### Headers -/

/-- The last octal digits of a number. -/
def octalDigits : (count n : Nat) → Bytes
  | 0, _ => []
  | count + 1, n => octalDigits count (n / 8) ++ [UInt8.ofNat (48 + n % 8)]

/-- Octal digits and a NUL. -/
def octal (digits n : Nat) : Bytes := octalDigits digits n ++ [0]

/-- The first size that has too many octal digits for its field. -/
def sizeLimit : Nat := Nat.pow 8 11

/-- Marks a size that is not written in digits. -/
def sizeMark : Bytes := [0x80, 0, 0, 0]

/-- A size in octal digits, or if these are too many, in eight bytes, the highest first. -/
def sizeField (n : Nat) : Bytes := if n < sizeLimit then octal 11 n else sizeMark ++ Bytes.bigEndian 8 n

inductive Kind
  | file
  | directory
  /-- The content is the name of the next member. -/
  | longName
  deriving DecidableEq, Repr

def Kind.mark : Kind → UInt8
  | file => 48
  | directory => 53
  | longName => 76

structure Header where
  /-- Nothing but the bytes of the name field. -/
  name : Bytes
  mode : Nat
  size : Nat
  modified : Nat
  kind : Kind
  /-- The device numbers are written, as zeros. -/
  devices : Bool := true
  deriving DecidableEq, Repr

/-- Stands in for the checksum while it is added up. -/
def blank : Bytes := List.replicate 8 0x20

/-- The sum of the bytes. -/
def total : Bytes → Nat
  | [] => 0
  | d :: rest => d.toNat + total rest

/-- The user and the group, both of number 0. -/
def owner : Bytes := octal 7 0 ++ octal 7 0

/-- The format, in the old spelling of its GNU variant. -/
def formatMark : Bytes := Bytes.ofText "ustar  " ++ [0]

namespace Header

variable (h : Header)

/-- What stands in front of the checksum. -/
def front : Bytes := h.name ++ octal 7 h.mode ++ owner ++ sizeField h.size ++ octal 11 h.modified

def device : Bytes := if h.devices then octal 7 0 else List.replicate 8 0

/-- What stands behind the checksum. -/
def back : Bytes :=
  [h.kind.mark] ++ List.replicate 100 0 ++ formatMark ++ List.replicate 64 0 ++ h.device ++ h.device ++
    List.replicate 167 0

/-- The header, with the sum of its bytes in which the sum itself counts as blanks. -/
def bytes : Bytes := h.front ++ octal 7 (total (h.front ++ blank ++ h.back)) ++ h.back

end Header

/-- How many bytes fill up a content of this size to whole blocks. -/
def filling (size : Nat) : Nat := (blockSize - size % blockSize) % blockSize

/-- The content filled up to whole blocks. -/
def padded (content : Bytes) : Bytes := content ++ List.replicate (filling content.length) 0

def longNameHeader (size : Nat) : Header :=
  { name := Bytes.ofText "././@LongLink" ++ List.replicate (nameSize - 13) 0
    mode := 0o644, size := size, modified := 0, kind := .longName, devices := false }

/-! ### Writing -/

/-- The bytes in front of a member's header, and its name field. -/
def nameOf (m : Member) : Except IoError (Bytes × Bytes) :=
  match fill false {} ⟨m.name⟩ with
  | (f, none) => .ok ([], f.bytes)
  | (f, some message) =>
    let name := Bytes.ofText m.name
    if name.length < nameSize then .error (.other message)
    else match fill true f ⟨truncated name⟩ with
      | (f, none) =>
        .ok ((longNameHeader (name.length + 1)).bytes ++ padded (name ++ [0]), f.bytes)
      | (_, some message) => .error (.other message)

def Member.content (m : Member) : Bytes := if m.directory then [] else m.bytes

def Member.header (m : Member) (name : Bytes) : Header :=
  { name := name, mode := if m.directory || m.executable then 0o755 else 0o644
    size := m.content.length, modified := modified, kind := if m.directory then .directory else .file }

def Member.encode (m : Member) : Except IoError Bytes :=
  (nameOf m).map fun (front, name) => front ++ (m.header name).bytes ++ padded m.content

/-- Two empty blocks. -/
def ending : Bytes := List.replicate (2 * blockSize) 0

/-! ### Reading -/

def untilNul (b : Bytes) : Bytes := b.takeWhile (· ≠ 0)

def isOctalDigit (d : UInt8) : Bool := 48 ≤ d.toNat && d.toNat < 56

/-- The number of a row of octal digits that ends with a NUL. -/
def readOctal (b : Bytes) : Option Nat :=
  let digits := untilNul b
  if digits.length < b.length ∧ digits.all isOctalDigit then
    some (digits.foldl (fun n d => 8 * n + (d.toNat - 48)) 0)
  else none

def readSize (b : Bytes) : Option Nat :=
  if sizeMark.isPrefixOf b then some (Bytes.number (b.drop sizeMark.length).reverse) else readOctal b

def readKind (b : Bytes) : Option Kind := [.file, .directory, .longName].find? fun k => b = [Kind.mark k]

/-- The name, the mode, the size and the time of a header. -/
def readFront (b : Bytes) : Option (Bytes × Nat × Nat × Nat) := do
  let (name, b) ← Bytes.split? nameSize b
  let (mode, b) ← Bytes.split? 8 b
  let (_, b) ← Bytes.split? 16 b
  let (size, modified) ← Bytes.split? 12 b
  pure (name, ← readOctal mode, ← readSize size, ← readOctal modified)

/-- The kind of a header, and whether it has device numbers. -/
def readBack (b : Bytes) : Option (Kind × Bool) := do
  let (kind, b) ← Bytes.split? 1 b
  let (_, b) ← Bytes.split? 100 b
  let (format, b) ← Bytes.split? 8 b
  let (_, b) ← Bytes.split? 64 b
  let (device, _) ← Bytes.split? 8 b
  if format = formatMark then pure (← readKind kind, device ≠ List.replicate 8 0) else none

/-- A header whose checksum is that of its bytes. -/
def readHeader (block : Bytes) : Option Header := do
  let (front, b) ← Bytes.split? 148 block
  let (checksum, back) ← Bytes.split? 8 b
  let (name, mode, size, modified) ← readFront front
  let (kind, devices) ← readBack back
  if readOctal checksum = some (total (front ++ blank ++ back)) then
    pure ⟨name, mode, size, modified, kind, devices⟩
  else none

/-- A header, the content behind it, and what follows on whole blocks. -/
def readEntry (b : Bytes) : Option (Header × Bytes × Bytes) := do
  let (block, b) ← Bytes.split? blockSize b
  let header ← readHeader block
  let (content, b) ← Bytes.split? header.size b
  let (_, b) ← Bytes.split? (filling header.size) b
  pure (header, content, b)

theorem length_lt_of_readEntry {b content rest : Bytes} {header : Header}
    (h : readEntry b = some (header, content, rest)) : rest.length < b.length := by
  simp only [readEntry, Bytes.split?, Option.bind_eq_bind, Option.bind_eq_some_iff, Prod.exists] at h
  obtain ⟨_, b₁, h₁, _, -, _, b₂, h₂, _, b₃, h₃, h⟩ := h
  simp only [Option.ite_none_right_eq_some, Option.some.injEq, Prod.mk.injEq] at h₁ h₂ h₃
  obtain ⟨hlength, -, rfl⟩ := h₁
  obtain ⟨-, -, rfl⟩ := h₂
  obtain ⟨-, -, rfl⟩ := h₃
  cases h
  simp only [blockSize, List.length_drop] at hlength ⊢
  omega

/-- What an archive says of a member. -/
structure Record where
  name : Bytes
  kind : Kind
  mode : Nat
  modified : Nat
  content : Bytes
  deriving DecidableEq, Repr

/-- The members up to the end. `long` is the name that an entry gave for the next of them. -/
def readRecords (long : Option Bytes) (b : Bytes) : Option (List Record) :=
  if b = ending then (if long.isNone then some [] else none)
  else match _h : readEntry b with
    | none => none
    | some (header, content, rest) =>
      if header.kind = .longName then readRecords (some (untilNul content)) rest
      else
        let name := long.getD (untilNul header.name)
        (readRecords none rest).map (⟨name, header.kind, header.mode, header.modified, content⟩ :: ·)
termination_by b.length
decreasing_by all_goals exact length_lt_of_readEntry ‹_›

/-- Reads an archive to its end. -/
def records (file : Bytes) : Option (List Record) := readRecords none file

/-- The names of the members with their contents. -/
def decode (file : Bytes) : Option (List (Bytes × Bytes)) :=
  (records file).map fun rs => rs.map fun r => (r.name, r.content)

end PluginShading.Archive.Tar
