import PluginShading.Archive.Checksum

/-!
Compression. A build is given a `Compressor`, of which it asks only that its reader gets back what was
compressed. The one that is there without a choice, `Gzip.stored`, writes the gzip format around data that
is kept as it is, in blocks of at most 65535 bytes.
-/
namespace PluginShading.Archive

open Files (Bytes)

/-- A way to compress, with the reader that undoes it. -/
structure Compressor where
  compress : Bytes → Bytes
  /-- Nothing where the bytes are not those of compressed data. -/
  decompress : Bytes → Option Bytes
  decompress_compress (b : Bytes) : decompress (compress b) = some b

namespace Gzip

/-- Marks gzip data. -/
def magic : Bytes := [0x1f, 0x8b]

/-- Deflated, without a name, a time or other fields. -/
def header : Bytes := magic ++ [8, 0, 0, 0, 0, 0, 0, 255]

def blockLimit : Nat := 65535

def storedBlock (final : Bool) (b : Bytes) : Bytes :=
  (if final then 1 else 0) :: Bytes.littleEndian 2 b.length ++
    Bytes.littleEndian 2 (blockLimit - b.length) ++ b

def storedBlocks : List Bytes → Bytes
  | [] => storedBlock true []
  | [b] => storedBlock true b
  | b :: rest => storedBlock false b ++ storedBlocks rest

/-- The checksum and the length of the data. -/
def trailer (b : Bytes) : Bytes :=
  Bytes.littleEndian 4 (crc32 b).toNat ++ Bytes.littleEndian 4 (b.length % Nat.pow 2 32)

def encode (b : Bytes) : Bytes := header ++ storedBlocks (Bytes.blocks blockLimit b) ++ trailer b

/-! ### Reading -/

/-- The data of stored blocks through the final one, and what follows. -/
def readBlocks (b : Bytes) : Option (Bytes × Bytes) :=
  match b with
  | kind :: x :: y :: z :: t :: rest =>
    let length := Bytes.number [x, y]
    if 1 < kind.toNat ∨ length + Bytes.number [z, t] ≠ blockLimit ∨ rest.length < length then none
    else if kind = 1 then some (rest.take length, rest.drop length)
    else (readBlocks (rest.drop length)).map fun r => (rest.take length ++ r.1, r.2)
  | _ => none
termination_by b.length
decreasing_by
  simp only [List.length_drop, List.length_cons]
  omega

/-- The data of a file that this module wrote; checked against its length and checksum. -/
def decode (file : Bytes) : Option Bytes :=
  if header.isPrefixOf file = false then none
  else match readBlocks (file.drop header.length) with
    | none => none
    | some (data, rest) => if rest = trailer data then some data else none

/-! ### Reading what was written -/

theorem readBlocks_storedBlock {final : Bool} {b : Bytes} (h : b.length ≤ blockLimit) (rest : Bytes) :
    readBlocks (storedBlock final b ++ rest) =
      if final then some (b, rest) else (readBlocks rest).map fun r => (b ++ r.1, r.2) := by
  have hfit : ∀ n ≤ blockLimit, n < Nat.pow 256 2 := fun n hn => Nat.lt_succ_of_le hn
  have hlength : Bytes.number [UInt8.ofNat b.length, UInt8.ofNat (b.length / 256)] = b.length :=
    Bytes.number_littleEndian (hfit _ h)
  have hrest : Bytes.number [UInt8.ofNat (blockLimit - b.length), UInt8.ofNat ((blockLimit - b.length) / 256)] =
      blockLimit - b.length := Bytes.number_littleEndian (hfit _ (Nat.sub_le _ _))
  have hsum : b.length + (blockLimit - b.length) = blockLimit := Nat.add_sub_cancel' h
  have hroom : ¬ b.length + rest.length < b.length := Nat.not_lt.2 (Nat.le_add_right _ _)
  cases final <;>
    simp [storedBlock, Bytes.littleEndian, readBlocks, hlength, hrest, hsum, hroom]

theorem length_le_of_mem_blocks {n : Nat} {b row : Bytes} (h : row ∈ Bytes.blocks n b) : row.length ≤ n := by
  fun_induction Bytes.blocks n b with
  | case1 => cases h
  | case2 b _ ih =>
    rcases List.mem_cons.1 h with rfl | hmem
    · exact List.length_take_le _ _
    · exact ih hmem

theorem readBlocks_storedBlocks {rows : List Bytes} (h : ∀ row ∈ rows, row.length ≤ blockLimit) (rest : Bytes) :
    readBlocks (storedBlocks rows ++ rest) = some (rows.flatten, rest) := by
  induction rows with
  | nil => exact readBlocks_storedBlock (Nat.zero_le _) rest
  | cons row more ih =>
    rw [List.forall_mem_cons] at h
    cases more with
    | nil =>
      rw [storedBlocks, readBlocks_storedBlock h.1, if_pos rfl, List.flatten_cons, List.flatten_nil, List.append_nil]
    | cons next more =>
      rw [storedBlocks, List.append_assoc, readBlocks_storedBlock h.1, if_neg nofun, ih h.2]
      · rfl
      · nofun

theorem decode_encode (b : Bytes) : decode (encode b) = some b := by
  have hheader : header.isPrefixOf (encode b) = true := by
    rw [encode, List.append_assoc]
    exact List.isPrefixOf_iff_prefix.2 (List.prefix_append _ _)
  have hrest : (encode b).drop header.length = storedBlocks (Bytes.blocks blockLimit b) ++ trailer b := by
    rw [encode, List.append_assoc, List.drop_left]
  have hblocks := readBlocks_storedBlocks (fun _ => length_le_of_mem_blocks (n := blockLimit) (b := b)) (trailer b)
  rw [Bytes.flatten_blocks (by decide)] at hblocks
  rw [decode, if_neg (by rw [hheader]; nofun), hrest, hblocks]
  exact if_pos rfl

/-- Keeps the data as it is. -/
def stored : Compressor := ⟨encode, decode, decode_encode⟩

end Gzip

end PluginShading.Archive
