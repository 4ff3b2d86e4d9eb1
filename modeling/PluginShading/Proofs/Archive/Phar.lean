import Mathlib
import PluginShading.Archive.Package
import PluginShading.Proofs.World

/-!
A phar is read back.

Every part of a phar says how long it is before it begins, so its reader takes exactly what was written of
it and leaves whatever follows, which may look like anything (`readRecord_append`, `readContents_append`).
A phar that is written is therefore read to its end, and what is read are the entries; where a count or a
length does not fit, nothing is written (`phar_reads_back`).
-/
namespace PluginShading.Archive

open Files (Bytes FileData)

namespace Phar

/-! ### Numbers, rows and marks -/

theorem fits_iff {n : Nat} : fits n = true ↔ n < 2 ^ 32 := decide_eq_true_iff

theorem readNumber_append {n : Nat} (h : fits n = true) (b : Bytes) :
    readNumber (number n ++ b) = some (n, b) := by
  have hn : n < Nat.pow 256 4 := of_decide_eq_true h
  rw [readNumber, number, Bytes.split?_append (Bytes.length_littleEndian 4 n), Option.map_some]
  dsimp only
  rw [Bytes.number_littleEndian hn]

theorem readRow_append {a : Bytes} (h : fits a.length = true) (b : Bytes) :
    readRow (number a.length ++ (a ++ b)) = some (a, b) := by
  rw [readRow, readNumber_append h]
  exact Bytes.split?_append rfl b

theorem readRow_empty (b : Bytes) : readRow (number 0 ++ b) = some ([], b) :=
  readRow_append (a := []) (by decide) b

theorem readMark_append (mark b : Bytes) : readMark mark (mark ++ b) = some b := by
  rw [readMark, if_pos (List.isPrefixOf_iff_prefix.2 (List.prefix_append mark b)), List.drop_left]

/-! ### Members -/

/-- What the index of a phar says of a member: both sizes are that of its contents, and a time that does not
fit 32 bits is zero. -/
def Member.indexed (m : Member) : Record where
  name := Bytes.ofText m.name
  size := m.bytes.length
  modified := if 0 ≤ m.modified ∧ m.modified < 2 ^ 32 then m.modified.toNat else 0
  stored := m.bytes.length
  checksum := (crc32 m.bytes).toNat
  permissions := 0o644
  metadata := []

theorem fits_stamp (seconds : Int) : fits (stamp seconds) = true := by
  refine decide_eq_true ?_
  unfold stamp
  split
  · rename_i h
    omega
  · decide

theorem fits_word (w : UInt32) : fits w.toNat = true := decide_eq_true w.toNat_lt

theorem Member.fits_iff {m : Member} :
    m.fits = true ↔ m.bytes.length < 2 ^ 32 ∧ (Bytes.ofText m.name).length < 2 ^ 32 := by
  rw [Member.fits, Bool.and_eq_true, Phar.fits_iff, Phar.fits_iff]

theorem readRecord_append {m : Member} (h : m.fits = true) (b : Bytes) :
    readRecord (m.record ++ b) = some (m.indexed, b) := by
  obtain ⟨hsize, hname⟩ : fits m.bytes.length = true ∧ fits (Bytes.ofText m.name).length = true :=
    Bool.and_eq_true_iff.1 h
  have hpermissions : fits permissions = true := by decide
  simp only [readRecord, Member.record, List.append_assoc, readRow_append hname, readNumber_append hsize,
    readNumber_append (fits_stamp _), readNumber_append (fits_word _), readNumber_append hpermissions,
    readRow_empty, Option.bind_eq_bind, Option.bind_some]
  rfl

theorem readRecords_append {members : List Member} (h : ∀ m ∈ members, m.fits = true) (b : Bytes) :
    readRecords members.length (members.flatMap Member.record ++ b) =
      some (members.map Member.indexed, b) := by
  induction members with
  | nil => rfl
  | cons m rest ih =>
    rw [List.forall_mem_cons] at h
    rw [List.flatMap_cons, List.append_assoc, List.length_cons, readRecords, readRecord_append h.1,
      Option.bind_eq_bind, Option.bind_some]
    dsimp only
    rw [ih h.2]
    rfl

/-- A member takes as many bytes of the contents as its record says, whatever they are. -/
theorem readContents_append (members : List Member) (b : Bytes) :
    readContents (members.map Member.indexed) (members.flatMap Member.bytes ++ b) =
      some (members.map fun m => (m.indexed, m.bytes), b) := by
  induction members with
  | nil => rfl
  | cons m rest ih =>
    have htake : Bytes.split? m.indexed.stored (m.bytes ++ (rest.flatMap Member.bytes ++ b)) =
        some (m.bytes, rest.flatMap Member.bytes ++ b) := Bytes.split?_append rfl _
    rw [List.flatMap_cons, List.append_assoc, List.map_cons, readContents, htake, Option.bind_eq_bind,
      Option.bind_some]
    dsimp only
    rw [ih]
    rfl

/-! ### The whole -/

/-- All that a phar keeps in four bytes fits there. -/
structure AllFit (members : List Member) : Prop where
  count : members.length < 2 ^ 32
  each : ∀ m ∈ members, m.bytes.length < 2 ^ 32 ∧ (Bytes.ofText m.name).length < 2 ^ 32
  total : (index members).length < 2 ^ 32

theorem readIndex_index {members : List Member} (h : AllFit members) :
    readIndex (index members) = some (members.map Member.indexed) := by
  have hrecords := readRecords_append (fun m hm => Member.fits_iff.2 (h.each m hm)) []
  rw [List.append_nil] at hrecords
  simp only [readIndex, index, List.append_assoc, readNumber_append (fits_iff.2 h.count), readMark_append,
    readRow_empty, hrecords, Option.bind_eq_bind, Option.bind_some, if_true]
  rfl

theorem decode_sign {members : List Member} (h : AllFit members) :
    decode (sign (body members)) =
      some ⟨members.map fun m => (m.indexed, m.bytes), body members, sha256 (body members)⟩ := by
  have hsigned : ∀ tail : Bytes,
      (body members ++ tail).take ((body members ++ tail).length - tail.length) = body members := by
    intro tail
    rw [List.length_append, Nat.add_sub_cancel, List.take_left]
  have hstub : ∀ tail : Bytes, readMark stub (body members ++ tail) =
      some (number (index members).length ++ (index members ++ (members.flatMap Member.bytes ++ tail))) := by
    intro tail
    simp only [body, List.append_assoc, readMark_append]
  have hmark : readMark endMark endMark = some [] := by
    have := readMark_append endMark []
    rwa [List.append_nil] at this
  rw [sign, List.append_assoc, List.append_assoc, decode, hstub]
  simp only [Option.bind_eq_bind, Option.bind_some, readRow_append (fits_iff.2 h.total), readIndex_index h,
    readContents_append, hsigned, Bytes.split?_append (length_sha256 _), readMark_append, hmark, if_true]
  rfl

theorem stub_prefix_body (members : List Member) : stub <+: body members := by
  simp only [body, List.append_assoc]
  exact List.prefix_append _ _

theorem encode_of_allFit {members : List Member} (h : AllFit members) :
    encode members = .ok (sign (body members)) := by
  have hfind : (members.find? fun m => m.fits = false) = none := by
    rw [List.find?_eq_none]
    intro m hm
    simp [Member.fits_iff.2 (h.each m hm)]
  rw [encode, if_neg (by simp [fits_iff.2 h.count]), hfind]
  dsimp only
  rw [if_neg (by simp [fits_iff.2 h.total])]

theorem exists_excess {members : List Member} (h : ¬ AllFit members) : ∃ e, encode members = .error e := by
  unfold encode
  split
  · exact ⟨_, rfl⟩
  rename_i hcount
  split
  · exact ⟨_, rfl⟩
  rename_i hfind
  split
  · exact ⟨_, rfl⟩
  rename_i hindex
  refine absurd ⟨fits_iff.1 (by simpa using hcount), fun m hm => Member.fits_iff.1 ?_,
    fits_iff.1 (by simpa using hindex)⟩ h
  simpa using List.find?_eq_none.1 hfind m hm

end Phar

/-! ### Entries -/

/-- An entry of a phar, given what the file at its path holds. -/
def memberOf (data : Entry → FileData) (e : Entry) : Phar.Member := ⟨e.name, (data e).bytes, (data e).modified⟩

section Entries

variable {data : Entry → FileData} {w : World} {entries : List Entry}

theorem pharMember_apply {e : Entry} (hread : w.disk.read e.path = .ok (data e)) :
    pharMember e w =
      if (memberOf data e).fits then (.ok (memberOf data e), w) else (.error (excess (.member e.name)), w) := by
  have hask : Act.ask (.readEntry e.path) (·.read e.path) w = (.ok (data e), w) := by
    rw [Act.ask, hread]
  rw [pharMember, Act.bind_of_ok hask]
  show (if (memberOf data e).fits then pure (memberOf data e) else Act.fail (excess (.member e.name)) :
    Act Phar.Member) w = _
  split <;> rfl

/-- The first entry that does not fit ends the reading. -/
theorem pharMembers_apply (hread : ∀ e ∈ entries, w.disk.read e.path = .ok (data e)) :
    ((∀ e ∈ entries, (memberOf data e).fits = true) →
      entries.mapM pharMember w = (.ok (entries.map (memberOf data)), w)) ∧
    ((∃ e ∈ entries, (memberOf data e).fits = false) →
      ∃ name, entries.mapM pharMember w = (.error (excess (.member name)), w)) := by
  induction entries with
  | nil => exact ⟨fun _ => rfl, fun ⟨e, he, _⟩ => absurd he List.not_mem_nil⟩
  | cons e rest ih =>
    rw [List.forall_mem_cons] at hread
    obtain ⟨hfit, hunfit⟩ := ih hread.2
    have hfirst := pharMember_apply hread.1
    rw [List.mapM_cons]
    cases hf : (memberOf data e).fits with
    | false =>
      rw [hf] at hfirst
      refine ⟨fun h => ?_, fun _ => ⟨e.name, Act.bind_of_error hfirst⟩⟩
      rw [h e List.mem_cons_self] at hf
      cases hf
    | true =>
      rw [hf] at hfirst
      rw [Act.bind_of_ok hfirst]
      refine ⟨fun h => ?_, fun ⟨e', he', hf'⟩ => ?_⟩
      · rw [Act.bind_of_ok (hfit fun e' he' => h e' (List.mem_cons_of_mem e he'))]
        rfl
      · have hmem : e' ∈ rest := by
          refine (List.mem_cons.1 he').resolve_left fun heq => ?_
          rw [heq, hf] at hf'
          cases hf'
        obtain ⟨name, hname⟩ := hunfit ⟨e', hmem, hf'⟩
        exact ⟨name, Act.bind_of_error hname⟩

end Entries

/-- **A phar is read back to its end as the entries that it was made of.** Both sizes of a record are that of
the contents, the checksum is theirs, the time is the file's, or zero where that does not fit 32 bits, and the
signature is that of all that stands before it. Where a count or a length does not fit, there are no bytes and nothing has changed. -/
theorem phar_reads_back {entries : List Entry} {data : Entry → FileData} {w : World}
    (hread : ∀ e ∈ entries, w.disk.read e.path = .ok (data e)) :
    (Phar.AllFit (entries.map (memberOf data)) → ∃ bytes content, pharOf entries w = (.ok bytes, w) ∧
      Phar.decode bytes = some content ∧
      content.members = entries.map (fun e =>
        (⟨Bytes.ofText e.name, (data e).bytes.length,
          if 0 ≤ (data e).modified ∧ (data e).modified < 2 ^ 32 then (data e).modified.toNat else 0,
          (data e).bytes.length, (crc32 (data e).bytes).toNat, 0o644, []⟩, (data e).bytes)) ∧
      content.signature = sha256 content.signed ∧
      Bytes.ofText "<?php __HALT_COMPILER(); ?>\r\n" <+: content.signed ∧
      bytes = content.signed ++ content.signature ++ [3, 0, 0, 0] ++ Bytes.ofText "GBMB") ∧
    (¬ Phar.AllFit (entries.map (memberOf data)) → ∃ e, pharOf entries w = (.error (excess e), w)) := by
  obtain ⟨hmembers, hunfit⟩ := pharMembers_apply hread
  constructor
  · intro h
    have hcount : Phar.fits entries.length = true := Phar.fits_iff.2 (by simpa using h.count)
    have hfit : ∀ e ∈ entries, (memberOf data e).fits = true :=
      fun e he => Phar.Member.fits_iff.2 (h.each _ (List.mem_map_of_mem he))
    refine ⟨_, _, ?_, Phar.decode_sign h, ?_, rfl, Phar.stub_prefix_body _, rfl⟩
    · rw [pharOf, if_neg (by simp [hcount])]
      show (entries.mapM pharMember >>= fun members => Act.ofExcept excess (Phar.encode members)) w = _
      rw [Act.bind_of_ok (hmembers hfit), Phar.encode_of_allFit h]
      rfl
    · simp only [List.map_map]
      rfl
  · intro h
    rw [pharOf]
    by_cases hcount : Phar.fits entries.length = false
    · rw [if_pos hcount]
      exact ⟨.count, Act.bind_of_error rfl⟩
    rw [if_neg hcount]
    show ∃ e, (entries.mapM pharMember >>= fun members => Act.ofExcept excess (Phar.encode members)) w = _
    by_cases hfit : ∀ e ∈ entries, (memberOf data e).fits = true
    · obtain ⟨e, he⟩ := Phar.exists_excess h
      refine ⟨e, ?_⟩
      rw [Act.bind_of_ok (hmembers hfit), he]
      rfl
    · simp only [Classical.not_forall, Bool.not_eq_true, exists_prop] at hfit
      obtain ⟨e, he, hf⟩ := hfit
      obtain ⟨name, hname⟩ := hunfit ⟨e, he, hf⟩
      exact ⟨.member name, Act.bind_of_error hname⟩

/-- The statement holds of a file whose contents begin like a phar and one that is older than 1970. -/
theorem exists_phar_reads_back : ∃ w entries bytes content, pharOf entries w = (.ok bytes, w) ∧
    Phar.decode bytes = some content ∧ content.signature = sha256 content.signed ∧
      content.members.map (fun m => (m.1.name, m.1.modified, m.2)) =
        [(Bytes.ofText "src/a", 1153704088, Phar.stub ++ Phar.number 1), (Bytes.ofText "b", 0, [104])] := by
  let first : FileData := ⟨Phar.stub ++ Phar.number 1, 1153704088, false⟩
  let second : FileData := ⟨[104], -5, false⟩
  let entries : List Entry := [⟨"src/a", ⟨"/a"⟩⟩, ⟨"b", ⟨"/b"⟩⟩]
  let data (e : Entry) : FileData := if e.name = "b" then second else first
  let w : World := {disk := {tree := ⟨[(["a"], .file first), (["b"], .file second)]⟩}}
  have hread : ∀ e ∈ entries, w.disk.read e.path = .ok (data e) := by decide +kernel
  have hfit : Phar.AllFit (entries.map (memberOf data)) := ⟨by decide +kernel, by decide +kernel, by decide +kernel⟩
  obtain ⟨bytes, content, hrun, hdecode, hmembers, hsignature, -, -⟩ := (phar_reads_back hread).1 hfit
  refine ⟨w, entries, bytes, content, hrun, hdecode, hsignature, ?_⟩
  rw [hmembers]
  decide +kernel

end PluginShading.Archive
