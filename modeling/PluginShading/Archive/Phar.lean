import PluginShading.Archive.Checksum

/-!
The phar format: a stub that refuses to be run, an index of the members, their contents end to end, and
a signature over all of it. Numbers are four bytes, the lowest first, so `encode` fails where a count or
a length needs more. `decode` reads the format back without using anything of the writer but the marks.
-/
namespace PluginShading.Archive.Phar

open Files (Bytes)

structure Member where
  name : String
  bytes : Bytes
  /-- Seconds since the beginning of 1970. -/
  modified : Int := 0
  deriving DecidableEq, Repr

/-! ### Marks -/

def stub : Bytes := Bytes.ofText "<?php __HALT_COMPILER(); ?>\r\n"

/-- Version 1.1.1 of the format. -/
def version : Bytes := [0x11, 0x10]

/-- Says that a signature follows the contents. -/
def signedFlag : Nat := 0x10000

def permissions : Nat := 0o644

/-- Says that the signature is a SHA-256. -/
def signatureKind : Nat := 3

def endMark : Bytes := Bytes.ofText "GBMB"

/-! ### Writing -/

def fits (n : Nat) : Bool := n < Nat.pow 2 32

def number (n : Nat) : Bytes := Bytes.littleEndian 4 n

/-- A time that does not fit is written as zero. -/
def stamp (seconds : Int) : Nat := if 0 ≤ seconds ∧ seconds < Nat.pow 2 32 then seconds.toNat else 0

/-- What is too large. -/
inductive Excess
  | count
  | member (name : String)
  | index
  deriving DecidableEq, Repr

def Excess.subject : Excess → String
  | count => "file count"
  | member name => name
  | index => "manifest"

def Member.fits (m : Member) : Bool :=
  Phar.fits m.bytes.length && Phar.fits (Bytes.ofText m.name).length

def Member.record (m : Member) : Bytes :=
  let name := Bytes.ofText m.name
  number name.length ++ name ++ number m.bytes.length ++ number (stamp m.modified) ++
    number m.bytes.length ++ number (crc32 m.bytes).toNat ++ number permissions ++ number 0

def index (members : List Member) : Bytes :=
  number members.length ++ version ++ number signedFlag ++ number 0 ++ number 0 ++
    members.flatMap Member.record

/-- Everything in front of the signature. -/
def body (members : List Member) : Bytes :=
  stub ++ number (index members).length ++ index members ++ members.flatMap Member.bytes

def sign (body : Bytes) : Bytes := body ++ sha256 body ++ number signatureKind ++ endMark

def encode (members : List Member) : Except Excess Bytes :=
  if fits members.length = false then .error .count
  else match members.find? fun m => m.fits = false with
    | some m => .error (.member m.name)
    | none =>
      if fits (index members).length = false then .error .index else .ok (sign (body members))

/-! ### Reading -/

/-- What the index says of a member. -/
structure Record where
  name : Bytes
  size : Nat
  modified : Nat
  stored : Nat
  checksum : Nat
  permissions : Nat
  metadata : Bytes
  deriving DecidableEq, Repr

structure Content where
  /-- The members with their contents. -/
  members : List (Record × Bytes)
  /-- Everything in front of the signature. -/
  signed : Bytes
  signature : Bytes
  deriving DecidableEq, Repr

def readNumber (b : Bytes) : Option (Nat × Bytes) :=
  (Bytes.split? 4 b).map fun (digits, rest) => (Bytes.number digits, rest)

/-- Bytes behind their number. -/
def readRow (b : Bytes) : Option (Bytes × Bytes) := do
  let (n, b) ← readNumber b
  Bytes.split? n b

def readMark (mark b : Bytes) : Option Bytes :=
  if mark.isPrefixOf b then some (b.drop mark.length) else none

def readRecord (b : Bytes) : Option (Record × Bytes) := do
  let (name, b) ← readRow b
  let (size, b) ← readNumber b
  let (modified, b) ← readNumber b
  let (stored, b) ← readNumber b
  let (checksum, b) ← readNumber b
  let (permissions, b) ← readNumber b
  let (metadata, b) ← readRow b
  pure (⟨name, size, modified, stored, checksum, permissions, metadata⟩, b)

def readRecords : Nat → Bytes → Option (List Record × Bytes)
  | 0, b => some ([], b)
  | n + 1, b => do
    let (r, b) ← readRecord b
    let (rs, b) ← readRecords n b
    pure (r :: rs, b)

/-- The index, which is read to its end. -/
def readIndex (b : Bytes) : Option (List Record) := do
  let (count, b) ← readNumber b
  let b ← readMark version b
  let b ← readMark (number signedFlag) b
  let (_, b) ← readRow b
  let (_, b) ← readRow b
  let (rs, b) ← readRecords count b
  if b = [] then pure rs else none

/-- The contents, one behind the other. -/
def readContents : List Record → Bytes → Option (List (Record × Bytes) × Bytes)
  | [], b => some ([], b)
  | r :: rs, b => do
    let (content, b) ← Bytes.split? r.stored b
    let (members, b) ← readContents rs b
    pure ((r, content) :: members, b)

/-- Reads an archive to its end. -/
def decode (file : Bytes) : Option Content := do
  let b ← readMark stub file
  let (index, b) ← readRow b
  let (members, b) ← readContents (← readIndex index) b
  let signed := file.take (file.length - b.length)
  let (signature, b) ← Bytes.split? 32 b
  let b ← readMark (number signatureKind) b
  let b ← readMark endMark b
  if b = [] then pure ⟨members, signed, signature⟩ else none

end PluginShading.Archive.Phar
