/-!
File contents as bytes, the text that they are when they are valid UTF-8, and numbers as rows of bytes.
A number that fits is read back from its bytes (`number_littleEndian`), and what was put in front is taken
off again (`split?_append`).
-/
namespace PluginShading.Files

abbrev Bytes := List UInt8

namespace Bytes

def ofText (s : String) : Bytes := s.toUTF8.data.toList

/-- The text whose UTF-8 form the bytes are. -/
def text? (b : Bytes) : Option String := String.fromUTF8? ⟨b.toArray⟩

/-- The lowest `count` bytes of a number, the lowest first. -/
def littleEndian : (count n : Nat) → Bytes
  | 0, _ => []
  | count + 1, n => UInt8.ofNat n :: littleEndian count (n / 256)

/-- The lowest `count` bytes of a number, the highest first. -/
def bigEndian (count n : Nat) : Bytes := (littleEndian count n).reverse

/-- The number whose bytes these are, the lowest first. -/
def number : Bytes → Nat
  | [] => 0
  | b :: rest => b.toNat + 256 * number rest

@[simp] theorem length_littleEndian (count n : Nat) : (littleEndian count n).length = count := by
  induction count generalizing n with
  | zero => rfl
  | succ count ih => simp [littleEndian, ih]

theorem number_littleEndian {count n : Nat} (h : n < Nat.pow 256 count) :
    number (littleEndian count n) = n := by
  induction count generalizing n with
  | zero => simp only [Nat.pow] at h; simp [littleEndian, number]; omega
  | succ count ih =>
    have hdiv : n / 256 < Nat.pow 256 count :=
      Nat.div_lt_of_lt_mul (Nat.mul_comm _ _ ▸ h)
    simp only [littleEndian, number, ih hdiv, UInt8.toNat_ofNat']
    omega

/-- The first `n` bytes and the rest; nothing where there are fewer. -/
def split? (n : Nat) (b : Bytes) : Option (Bytes × Bytes) :=
  if n ≤ b.length then some (b.take n, b.drop n) else none

theorem split?_append {a : Bytes} {n : Nat} (h : a.length = n) (b : Bytes) :
    split? n (a ++ b) = some (a, b) := by
  rw [split?, if_pos (by simp [← h]), ← h, List.take_left, List.drop_left]

/-- Rows of `n` bytes; the last may be shorter. -/
def blocks (n : Nat) (b : Bytes) : List Bytes :=
  if b = [] ∨ n = 0 then [] else b.take n :: blocks n (b.drop n)
termination_by b.length
decreasing_by
  rename_i h
  simp only [not_or] at h
  have := List.length_pos_iff.2 h.1
  simp only [List.length_drop]
  omega

theorem flatten_blocks {n : Nat} (hn : n ≠ 0) (b : Bytes) : (blocks n b).flatten = b := by
  fun_induction blocks n b with
  | case1 b h => simp [h.resolve_right hn]
  | case2 b h ih => rw [List.flatten_cons, ih, List.take_append_drop]

end Bytes

end PluginShading.Files
