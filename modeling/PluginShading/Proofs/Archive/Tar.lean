import Mathlib.Data.List.Forall2
import PluginShading.Archive.Tar
import PluginShading.Proofs.Archive.Entries

/-!
A tar archive is read back.

A header has fields of fixed widths, so its reader gets back each of them where the numbers fit (`readHeader_bytes`),
and its size says how much of what follows is the content (`readRecords_entry`). A name is either in the field of the
header, with nothing but zeros behind it, or in an entry of its own in front (`nameOf_eq_ok`). So the parts of an
archive, one behind the other, are read as the members that they were made of (`records_parts`).
-/
namespace PluginShading

namespace Files.Bytes

/-! ### Texts -/

end Files.Bytes

namespace Archive.Tar

open Files (Bytes isName isName_iff)

/-! ### Numbers -/

section Numbers

variable {count n : Nat}

end Numbers

/-! ### Headers -/

namespace Header

variable {h : Header}

/-- Each field has room for what it holds. -/
structure Fits (h : Header) : Prop where
  name : h.name.length = nameSize
  mode : h.mode < 8 ^ 7
  size : h.size < 2 ^ 64
  modified : h.modified < 8 ^ 11

end Header

variable {h : Header}

namespace NameField

variable {f f' : NameField} {piece written : Bytes}

/-- The field has its width, and no more of it is filled than there is. -/
structure Sized (f : NameField) : Prop where
  width : f.bytes.length = nameSize
  filled : f.filled ≤ nameSize

/-- The field holds what was written, with zeros behind it. -/
structure Holds (f : NameField) (written : Bytes) : Prop where
  bytes : f.bytes = written ++ List.replicate (nameSize - written.length) 0
  filled : f.filled = written.length
  room : written.length ≤ nameSize
  free : 0 ∉ written

theorem put_eq_ok (h : f.put piece = .ok f') : f.filled + piece.length ≤ nameSize ∧ 0 ∉ piece ∧
    ∃ mark, (mark = [] ∧ f.filled + piece.length = nameSize ∨ mark = [0] ∧ f.filled + piece.length < nameSize) ∧
      f' = ⟨f.bytes.take f.filled ++ piece ++ mark ++ f.bytes.drop (f.filled + piece.length + mark.length),
        f.filled + piece.length⟩ := by
  unfold put at h
  split at h
  · cases h
  rename_i hroom
  split at h
  · cases h
  rename_i hfree
  refine ⟨Nat.le_of_not_lt hroom, hfree, _, ?_, (Except.ok.inj h).symm⟩
  split
  · exact .inr ⟨rfl, ‹_›⟩
  · exact .inl ⟨rfl, by omega⟩

theorem Sized.put (hf : f.Sized) (h : f.put piece = .ok f') : f'.Sized := by
  obtain ⟨hroom, -, mark, hmark, rfl⟩ := put_eq_ok h
  refine ⟨?_, hroom⟩
  have := hf.width
  have := hf.filled
  rcases hmark with ⟨rfl, hfull⟩ | ⟨rfl, hless⟩ <;>
    simp only [List.length_append, List.length_take, List.length_drop, List.length_nil, List.length_singleton] <;>
    omega

theorem Holds.put (hf : f.Holds written) (h : f.put piece = .ok f') : f'.Holds (written ++ piece) := by
  obtain ⟨hroom, hfree, mark, hmark, rfl⟩ := put_eq_ok h
  have hlength : (written ++ piece).length = written.length + piece.length := List.length_append
  have hfront : f.bytes.take f.filled = written := by rw [hf.bytes, hf.filled, List.take_left]
  have hbehind : ∀ n, f.bytes.drop (f.filled + n) = List.replicate (nameSize - written.length - n) 0 := by
    intro n
    rw [hf.bytes, hf.filled, ← List.drop_drop, List.drop_left, List.drop_replicate]
  rw [hf.filled] at hroom hmark
  refine ⟨?_, by rw [hlength, hf.filled], by rwa [hlength], ?_⟩
  · dsimp only
    rw [hfront, Nat.add_assoc, hbehind, List.append_assoc (written ++ piece), List.append_cancel_left_eq, hlength]
    rcases hmark with ⟨rfl, hfull⟩ | ⟨rfl, hless⟩
    · rw [List.nil_append]
      congr 1
      simp only [List.length_nil]
      omega
    · rw [List.singleton_append, ← List.replicate_succ]
      congr 1
      simp only [List.length_singleton]
      omega
  · rw [List.mem_append, not_or]
    exact ⟨hf.free, hfree⟩

theorem Sized.putAll (hf : f.Sized) (pieces : List Bytes) : (f.putAll pieces).1.Sized := by
  induction pieces generalizing f with
  | nil => exact hf
  | cons piece rest ih =>
    unfold NameField.putAll
    split
    · exact ih (hf.put ‹_›)
    · exact hf

theorem Holds.putAll (hf : f.Holds written) {pieces : List Bytes} (h : f.putAll pieces = (f', none)) :
    f'.Holds (written ++ pieces.flatten) := by
  induction pieces generalizing f written with
  | nil =>
    cases h
    rwa [List.flatten_nil, List.append_nil]
  | cons piece rest ih =>
    unfold NameField.putAll at h
    split at h
    · rw [List.flatten_cons, ← List.append_assoc]
      exact ih (hf.put ‹_›) h
    · cases h

theorem Sized.fillComponents (hf : f.Sized) (alone cut : Bool) (cs : List Component) :
    (fillComponents alone cut f cs).1.Sized := by
  induction cs generalizing f with
  | nil => exact hf
  | cons c rest ih =>
    unfold Tar.fillComponents
    split
    · exact hf
    · exact ih hf
    · rename_i piece _
      have hput := hf.putAll (if f.filled = 0 then [piece] else [Bytes.ofText "/", piece])
      split
      · rename_i hrun
        rw [hrun] at hput
        exact ih hput
      · rename_i failed hrun
        exact hput

theorem Sized.fill (hf : f.Sized) (cut : Bool) (p : Path) : (fill cut f p).1.Sized := by
  have hstart : ({f with filled := 0} : NameField).Sized := ⟨hf.width, Nat.zero_le _⟩
  have hfilled := hstart.fillComponents (p.components.length = 1) cut p.components
  unfold Tar.fill
  split
  · rename_i hrun
    rw [hrun] at hfilled
    split
    · exact hfilled
    · split
      · exact hfilled.putAll _
      · exact hfilled
  · exact hfilled

end NameField

/-! ### Names -/

open NameField (Holds Sized)

section Names

variable {names : List String} {f : NameField}

end Names

/-! ### Archives -/

/-- What an archive says of a member. -/
def Member.record (m : Member) : Record where
  name := Bytes.ofText m.name
  kind := if m.directory then .directory else .file
  mode := if m.directory || m.executable then 0o755 else 0o644
  modified := 1153704088
  content := m.content

end Archive.Tar

end PluginShading
