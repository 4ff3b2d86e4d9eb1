import Mathlib
import PluginShading.Proofs.Source.Words

/-!
What the tokens of a source look like.

A source is a text in UTF-8. Its tokens are the whole of it, cut between characters; each of them has the
shape that its kind promises; and where a word ends, no byte follows that could carry it on
(`tokenize_wellDivided`). One step of the machine decides the shape of a token (`Machine.next_shaped`) and what
may follow it (`Machine.next_ends`); a run keeps that of every token.
-/
namespace PluginShading.Source

/-! ### Shapes -/

/-- Names and keywords. -/
def TokenKind.isWord : TokenKind → Bool
  | .identifier | .qualifiedName | .fullyQualifiedName | .keyword _ => true
  | _ => false

/-- The text is what the kind promises. -/
def Token.Shaped (t : Token) : Prop :=
  match t.kind with
  | .identifier => isIdentifier t.text = true
  | .qualifiedName => ∃ first more, t.text = first ++ segments more ∧ more ≠ [] ∧
      (∀ word ∈ first :: more, isIdentifier word = true) ∧ spells "namespace" first = false
  | .fullyQualifiedName => ∃ words, t.text = segments words ∧ words ≠ [] ∧
      ∀ word ∈ words, isIdentifier word = true
  | .whitespace => ∀ c ∈ t.text, isBlank c = true
  | .punctuation => (∃ c, t.text = [c]) ∨ t.text = ['$', '{']
  | _ => True

/-- A word with segments is a qualified name, unless it is `namespace`; without any it is one word. -/
theorem readWord_shaped (last : Option Token) {c : Char} {rest : List Char} (hc : isNameStart c = true) :
    (readWord last (c :: rest)).token.Shaped := by
  have hword := isIdentifier_takeWhile rest hc
  obtain ⟨words, hsegments, hwords⟩ := exists_segments ((c :: rest).dropWhile isNameChar)
  simp only [readWord, Reading.plain, hsegments]
  generalize (c :: rest).takeWhile isNameChar = word at hword
  generalize (nameSegments ((c :: rest).dropWhile isNameChar)).2 = after
  cases words with
  | nil =>
    have htext : word ++ segments [] = word := List.append_nil word
    rw [htext]
    have hplain : (wordKind last word (segments []) after) = .identifier ∨
        ∃ keyword, (wordKind last word (segments []) after) = .keyword keyword := by
      simp only [wordKind, segments, List.flatMap_nil, List.isEmpty_nil, Bool.not_true, Bool.false_eq_true,
        if_false]
      repeat' split
      all_goals simp
    rcases hplain with hk | ⟨keyword, hk⟩
    · rw [hk]
      exact hword
    · rw [hk]
      trivial
  | cons first more =>
    have hkind : wordKind last word (segments (first :: more)) after =
        if spells "namespace" word then .other else .qualifiedName := rfl
    rw [hkind]
    split
    · trivial
    · rename_i hfree
      exact ⟨word, first :: more, rfl, List.cons_ne_nil _ _, List.forall_mem_cons.2 ⟨hword, hwords⟩,
        Bool.eq_false_iff.2 hfree⟩

theorem separated_shaped {rest : List Char} (hstart : headIs isNameStart rest = true) :
    Token.Shaped ⟨.fullyQualifiedName, (nameSegments ('\\' :: rest)).1⟩ := by
  obtain ⟨words, hsegments, hwords⟩ := exists_segments ('\\' :: rest)
  refine ⟨words, hsegments, ?_, hwords⟩
  rintro rfl
  exact nameSegments_ne_nil hstart hsegments

theorem kind_of_not_isBlank {last : Option Token} {line : Nat} {c : Char} {rest : List Char} {r : Reading}
    (hc : isBlank c = false) (h : readCode last line c rest = .ok r) : r.token.kind ≠ .whitespace := by
  intro hk
  cases CodeReading.of_readCode h with
  | blanks hblank => exact absurd (hblank.symm.trans hc) (by decide)
  | @blockComment _ cut =>
    rcases commentKind_cases ('/' :: '*' :: cut.1) with hc' | hc' <;> simp [Reading.plain, hc'] at hk
  | plain _ _ h =>
    cases h with
    | word =>
      rcases readWord_kind last (c :: rest) with hk' | ⟨word, hk'⟩ <;> simp [hk] at hk'
    | mark =>
      rcases readMark_cases c rest with hk' | ht
      · simp [hk'] at hk
      · simp [ht] at hk
    | _ => cases hk
  | _ => cases hk

/-- White space is read where a blank stands, and holds nothing else. -/
theorem readCode_blanks {last : Option Token} {line : Nat} {c : Char} {rest : List Char} {r : Reading}
    (h : readCode last line c rest = .ok r) (hk : r.token.kind = .whitespace) :
    ∀ x ∈ r.token.text, isBlank x = true := by
  cases hc : isBlank c with
  | true =>
    rw [readCode_of_blank last line hc] at h
    cases h
    exact List.forall_mem_cons.2 ⟨hc, fun x hx => List.mem_takeWhile_imp hx⟩
  | false => exact absurd hk (kind_of_not_isBlank hc h)

theorem readCode_shaped {last : Option Token} {line : Nat} {c : Char} {rest : List Char} {r : Reading}
    (h : readCode last line c rest = .ok r) : r.token.Shaped := by
  have hblanks := readCode_blanks h
  rcases readCode_cases h with ⟨hc, rfl⟩ | ⟨-, hstart, rfl⟩ | ht | hk
  · exact readWord_shaped last hc
  · exact separated_shaped hstart
  · rw [ht]
    exact .inl ⟨c, rfl⟩
  · simp only [List.mem_cons, List.not_mem_nil, or_false] at hk
    unfold Token.Shaped
    rcases hk with hk | hk | hk | hk <;> rw [hk]
    · trivial
    · exact hblanks hk
    · trivial
    · trivial

/-- Behind a word no word goes on. -/
theorem readCode_ends {last : Option Token} {line : Nat} {c : Char} {rest : List Char} {r : Reading}
    (h : readCode last line c rest = .ok r) (hw : r.token.kind.isWord = true) :
    headIs isNameChar r.rest = false := by
  rcases readCode_cases h with ⟨-, rfl⟩ | ⟨-, -, rfl⟩ | ht | hk
  · exact headIs_nameSegments_rest (headIs_dropWhile isNameChar _)
  · exact headIs_nameSegments_rest rfl
  · rw [ht] at hw
    cases hw
  · simp only [List.mem_cons, List.not_mem_nil, or_false] at hk
    rcases hk with hk | hk | hk | hk <;> rw [hk] at hw <;> cases hw

namespace Machine

variable {m m' : Machine} {t : Token}

theorem next_shaped (h : m.next = .ok (some (t, m'))) : t.Shaped := by
  refine next_token (fun _ _ _ _ _ => readCode_shaped) (fun kind text hk => ?_) (fun mark hm => ?_) h
  · rcases hk with rfl | rfl <;> trivial
  · simp only [List.mem_cons, List.not_mem_nil, or_false] at hm
    rcases hm with rfl | rfl | rfl
    · exact .inl ⟨'{', rfl⟩
    · exact .inr rfl
    · exact .inl ⟨'}', rfl⟩

theorem next_ends (h : m.next = .ok (some (t, m'))) (hw : t.kind.isWord = true) :
    headIs isNameChar m'.rest = false := by
  cases next_move h with
  | outside =>
    unfold readOutside at hw
    split at hw <;> cases hw
  | code _ _ _ hr => exact readCode_ends hr hw
  | closing => cases hw
  | opening => cases hw
  | text => cases hw

end Machine

/-! ### Bytes -/

/-- The bytes that may carry on a word: letters, underscores, those of characters beyond ASCII, and digits. -/
def isNameByte (b : UInt8) : Bool :=
  ('A'.toUInt8 ≤ b && b ≤ 'Z'.toUInt8) || ('a'.toUInt8 ≤ b && b ≤ 'z'.toUInt8) || b == '_'.toUInt8 ||
    0x80 ≤ b || ('0'.toUInt8 ≤ b && b ≤ '9'.toUInt8)

/-- The same of codes, be it of characters or of bytes. -/
def IsNameCode (n : Nat) : Prop :=
  65 ≤ n ∧ n ≤ 90 ∨ 97 ≤ n ∧ n ≤ 122 ∨ n = 95 ∨ 128 ≤ n ∨ 48 ≤ n ∧ n ≤ 57

theorem eq_underscore_iff {c : Char} : c = '_' ↔ c.toNat = 95 :=
  ⟨fun h => h ▸ rfl, fun h => Char.ext (UInt32.toNat_inj.1 h)⟩

theorem isNameChar_iff {c : Char} : isNameChar c = true ↔ IsNameCode c.toNat := by
  simp only [isNameChar, isNameStart, Char.isAlpha, Char.isUpper, Char.isLower, Char.isDigit,
    Bool.or_eq_true, Bool.and_eq_true, decide_eq_true_eq, UInt32.le_iff_toNat_le, ge_iff_le, beq_iff_eq,
    eq_underscore_iff]
  change ((((65 ≤ c.toNat ∧ c.toNat ≤ 90) ∨ (97 ≤ c.toNat ∧ c.toNat ≤ 122)) ∨ c.toNat = 95) ∨
    128 ≤ c.toNat) ∨ (48 ≤ c.toNat ∧ c.toNat ≤ 57) ↔ _
  unfold IsNameCode
  omega

theorem isNameByte_iff {b : UInt8} : isNameByte b = true ↔ IsNameCode b.toNat := by
  simp only [isNameByte, Bool.or_eq_true, Bool.and_eq_true, decide_eq_true_eq, UInt8.le_iff_toNat_le,
    beq_iff_eq, ← UInt8.toNat_inj]
  change ((((65 ≤ b.toNat ∧ b.toNat ≤ 90) ∨ (97 ≤ b.toNat ∧ b.toNat ≤ 122)) ∨ b.toNat = 95) ∨
    128 ≤ b.toNat) ∨ (48 ≤ b.toNat ∧ b.toNat ≤ 57) ↔ _
  unfold IsNameCode
  omega

/-- A character carries on a word exactly if its first byte does. -/
theorem utf8EncodeChar_head (c : Char) :
    ∃ b more, String.utf8EncodeChar c = b :: more ∧ isNameByte b = isNameChar c := by
  have hlt : c.val.toNat < 0x110000 := by
    rcases c.valid with h | h <;> omega
  have hiff : ∀ b, isNameByte b = isNameChar c ↔ (IsNameCode b.toNat ↔ IsNameCode c.val.toNat) :=
    fun b => by rw [Bool.eq_iff_iff, isNameByte_iff, isNameChar_iff]; rfl
  simp only [hiff]
  unfold String.utf8EncodeChar
  dsimp only
  repeat' split
  all_goals
    refine ⟨_, _, rfl, ?_⟩
    simp only [UInt8.toNat_ofNat', IsNameCode]
    omega

/-- The byte that stands at a place of a text. -/
def byteAt? (source : String) (p : String.Pos.Raw) : Option UInt8 := source.toByteArray.data[p.byteIdx]?

theorem byteAt?_behind (a b : List Char) :
    byteAt? (String.ofList (a ++ b)) (String.ofList a).rawEndPos = (String.ofList b).toByteArray.data[0]? := by
  have hsize : (String.ofList a).rawEndPos.byteIdx = (String.ofList a).toByteArray.data.size := rfl
  rw [byteAt?, String.ofList_append, String.toByteArray_append, ByteArray.data_append, hsize,
    Array.getElem?_append_right le_rfl, Nat.sub_self]

/-- Where no word goes on in characters, none goes on in bytes. -/
theorem isNameByte_behind {a b : List Char} {x : UInt8} (hb : headIs isNameChar b = false)
    (hx : byteAt? (String.ofList (a ++ b)) (String.ofList a).rawEndPos = some x) : isNameByte x = false := by
  rw [byteAt?_behind, String.toByteArray_ofList] at hx
  cases b with
  | nil => simp [List.utf8Encode] at hx
  | cons c rest =>
    obtain ⟨first, more, hfirst, hname⟩ := utf8EncodeChar_head c
    rw [List.utf8Encode_cons, List.utf8Encode_singleton, ByteArray.data_append, List.data_toByteArray,
      hfirst, Array.getElem?_append_left (by simp)] at hx
    obtain rfl : first = x := by simpa using hx
    rw [hname]
    exact hb

/-! ### Divisions of a source -/

/-- Where the tokens end, in bytes. -/
def offset (ts : List Token) : String.Pos.Raw := (String.ofList (text ts)).rawEndPos

/-- The tokens are the source, cut into tokens of the shapes their kinds promise. -/
structure WellDivided (source : String) (ts : List Token) : Prop where
  text : Source.text ts = source.toList
  shaped : ∀ t ∈ ts, t.text ≠ [] ∧ t.Shaped
  /-- The cuts are between characters. -/
  cuts : ∀ before after, ts = before ++ after → (offset before).IsValid source
  /-- Words are cut where they end. -/
  ends : ∀ before t after, ts = before ++ t :: after → t.kind.isWord = true →
    ∀ b, byteAt? source (offset (before ++ [t])) = some b → isNameByte b = false

/-- **Every text that the lexer accepts is divided without loss, each token in the shape of its kind.** -/
theorem tokenize_wellDivided {source : String} {ts : List Token} (h : tokenize source.toList = .ok ts) :
    WellDivided source ts := by
  obtain ⟨m, hm, hrest, -⟩ := tokenize_eq_ok_iff.1 h
  have htext : text ts = source.toList := by
    rw [← List.append_nil (text ts), ← hrest]
    exact hm.text
  refine ⟨htext, ?_, ?_, ?_⟩
  · exact hm.forall_tokens fun _ _ _ hn => ⟨(Machine.next_reads hn).ne_nil, Machine.next_shaped hn⟩
  · rintro before after rfl
    refine String.Pos.Raw.isValid_iff_exists_append.2
      ⟨String.ofList (text before), String.ofList (text after), ?_, rfl⟩
    rw [← String.ofList_append, ← text_append, htext, String.ofList_toList]
  · rintro before t after rfl hw b hb
    obtain ⟨k, hk, hrun⟩ := hm.split
    cases hrun with
    | next hn _ =>
      have hread := (hk.append (.next hn (.refl _))).text
      rw [← String.ofList_toList (s := source), ← show _ = source.toList from hread] at hb
      exact isNameByte_behind (Machine.next_ends hn hw) hb

/-- The statement holds of a source with a name of each kind, where a backslash escapes a character of two
bytes. -/
theorem exists_tokenize_wellDivided : ∃ source ts, tokenize source.toList = .ok ts ∧
    WellDivided source ts ∧ (⟨.qualifiedName, "A\\é".toList⟩ : Token) ∈ ts ∧
      (⟨.fullyQualifiedName, "\\B".toList⟩ : Token) ∈ ts ∧ (⟨.identifier, ['c']⟩ : Token) ∈ ts := by
  let source := "<?php\nuse A\\é, \\B; \"\\é\x7b$x->c\x7d\";"
  let ts := (tokenize source.toList).toOption.getD []
  have h : tokenize source.toList = .ok ts := by decide +kernel
  exact ⟨source, ts, h, tokenize_wellDivided h, by decide +kernel, by decide +kernel, by decide +kernel⟩

end PluginShading.Source
