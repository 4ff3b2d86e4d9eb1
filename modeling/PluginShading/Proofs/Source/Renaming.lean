import PluginShading.Proofs.Source.Reading
import PluginShading.Text.Pieces

/-!
Names behind a prefix.

A qualified name keeps its lexeme when a well-formed target and a separator are put in front of it
(`IsName.behind`), and the lexer reads the longer name as a token of the same kind (`readCode_moved`).
-/
namespace PluginShading.Source

variable {strict : Prop} {inWord : Bool}

/-! ### Well-formed namespaces -/

/-- A word that may stand between the separators of a name. -/
def isIdentifier (word : List Char) : Bool := headIs isNameStart word && word.all isNameChar

theorem exists_cons_of_isIdentifier {word : List Char} (h : isIdentifier word = true) :
    ∃ c rest, word = c :: rest ∧ isNameStart c = true := by
  cases word with
  | nil => cases h
  | cons c rest => exact ⟨c, rest, rfl, (Bool.and_eq_true_iff.1 h).1⟩

/-- A word that is more than a name in front of a separator or behind `enum`. -/
def isReserved (word : List Char) : Bool :=
  spells "namespace" word || spells "extends" word || spells "implements" word

/-- The first segment of a name is reserved. -/
def startsReserved (name : List Char) : Bool := (Text.pieces '\\' name).head?.any isReserved

/-- Identifiers between separators, of which the first is not reserved. -/
def isNamespace (space : List Char) : Bool :=
  (Text.pieces '\\' space).all isIdentifier && !startsReserved space

/-- Identifiers between separators, of which the first is not `namespace`. -/
def isFront (target : List Char) : Bool :=
  (Text.pieces '\\' target).all isIdentifier &&
    !(Text.pieces '\\' target).head?.any (spells "namespace")

/-- Names may be moved behind the target; where the clauses of declarations are not exchanged, it does not
begin with the word of one. -/
structure Fronts (strict : Prop) (target : List Char) : Prop where
  front : isFront target = true
  clause : strict → startsReserved target = false

theorem fronts_of_isNamespace {space : List Char} (h : isNamespace space = true) :
    Fronts strict space := by
  simp only [isNamespace, startsReserved, Bool.and_eq_true, Bool.not_eq_true'] at h
  refine ⟨?_, fun _ => h.2⟩
  cases hp : Text.pieces '\\' space with
  | nil => exact absurd hp (Text.pieces_ne_nil '\\' space)
  | cons word more =>
    have hfree : isReserved word = false := by simpa [hp] using h.2
    simp only [isReserved, Bool.or_eq_false_iff] at hfree
    simp only [isFront, hp, List.head?_cons, Option.any_some, hfree.1.1, Bool.not_false, Bool.and_true]
    exact hp ▸ h.1

theorem fronts_of_isFront {target : List Char} (h : isFront target = true) : Fronts False target :=
  ⟨h, False.elim⟩

/-- Words, each behind a separator. -/
def segments (words : List (List Char)) : List Char := words.flatMap ('\\' :: ·)

theorem join_cons (word : List Char) (more : List (List Char)) :
    Text.join '\\' (word :: more) = word ++ segments more := by
  induction more generalizing word with
  | nil => simp [Text.join, segments]
  | cons second rest ih => simp [Text.join, ih, segments]

/-- A target is its first word and the segments behind it. -/
theorem Fronts.eq_segments {target : List Char} (h : Fronts strict target) :
    ∃ word more, target = word ++ segments more ∧ isIdentifier word = true ∧
      (∀ piece ∈ more, isIdentifier piece = true) ∧ spells "namespace" word = false ∧
        (strict → isReserved word = false) := by
  have hjoin := Text.join_pieces '\\' target
  have hfront := h.front
  have hclause := h.clause
  simp only [isFront, startsReserved, Bool.and_eq_true, List.all_eq_true,
    Bool.not_eq_true'] at hfront hclause
  cases hp : Text.pieces '\\' target with
  | nil => exact absurd hp (Text.pieces_ne_nil '\\' target)
  | cons word more =>
    rw [hp] at hjoin hfront hclause
    rw [join_cons] at hjoin
    exact ⟨word, more, hjoin.symm, hfront.1 word List.mem_cons_self,
      fun piece hm => hfront.1 piece (List.mem_cons_of_mem word hm), by simpa using hfront.2,
      by simpa using hclause⟩

theorem Fronts.head {target : List Char} (h : Fronts strict target) :
    ∃ c rest, target = c :: rest ∧ isNameStart c = true := by
  obtain ⟨word, more, rfl, hword, -⟩ := h.eq_segments
  obtain ⟨c, rest, rfl, hc⟩ := exists_cons_of_isIdentifier hword
  exact ⟨c, rest ++ segments more, rfl, hc⟩

/-! ### Lexemes of names -/

/-- In front of `a`, the lexeme of a name is `name`. -/
def IsName (name a : List Char) : Prop := nameSegments ('\\' :: (name ++ a)) = ('\\' :: name, a)

theorem nameSegments_identifier {word rest : List Char} (hw : isIdentifier word = true)
    (hrest : headIs isNameChar rest = false) :
    nameSegments ('\\' :: (word ++ rest)) =
      ('\\' :: word ++ (nameSegments rest).1, (nameSegments rest).2) := by
  simp only [isIdentifier, Bool.and_eq_true, List.all_eq_true] at hw
  cases word with
  | nil => cases hw.1
  | cons c more =>
    have hc : isNameStart c = true := hw.1
    have hmore : ∀ x ∈ more, isNameChar x = true := fun x hx => hw.2 x (List.mem_cons_of_mem c hx)
    rw [List.cons_append, nameSegments, if_pos hc, takeWhile_append_stop hmore hrest,
      dropWhile_append_stop hmore hrest]

namespace IsName

variable {name a b : List Char}

theorem headIs_isNameStart (h : IsName name a) : headIs isNameStart name = true := by
  unfold IsName at h
  cases name with
  | nil =>
    rw [List.nil_append] at h
    cases a with
    | nil => simp [nameSegments] at h
    | cons c rest =>
      unfold nameSegments at h
      split at h
      · rename_i heq
        split at h
        · cases heq
          have := congrArg (List.length ∘ Prod.fst) h
          simp at this
        · cases heq
          simp at h
      · simp at h
  | cons c rest =>
    cases hc : isNameStart c with
    | true => exact hc
    | false => simp [nameSegments, hc] at h

theorem headIs_rest (h : IsName name a) : headIs isNameChar a = false := by
  have hrest : headIs isNameChar (nameSegments ('\\' :: (name ++ a))).2 = false :=
    headIs_nameSegments_rest rfl
  rwa [show nameSegments ('\\' :: (name ++ a)) = _ from h] at hrest

theorem swap (h : IsName name a) (hb : Alike strict inWord a b) : IsName name b := by
  have hcut : nameSegments ('\\' :: (name ++ a)) = ('\\' :: name, a) := h
  have hb : Alike strict inWord (nameSegments ('\\' :: (name ++ a))).2 b := by
    rw [hcut]
    exact hb
  have hswap := nameSegments_swap rfl hb
  rwa [hcut] at hswap

theorem nameSegments_segments (h : IsName name a) {words : List (List Char)}
    (hw : ∀ word ∈ words, isIdentifier word = true) :
    nameSegments (segments words ++ '\\' :: (name ++ a)) = (segments words ++ '\\' :: name, a) := by
  induction words with
  | nil => exact h
  | cons word more ih =>
    have hrest : headIs isNameChar (segments more ++ '\\' :: (name ++ a)) = false := by
      cases more <;> rfl
    have ih := ih fun piece hm => hw piece (List.mem_cons_of_mem word hm)
    show nameSegments ('\\' :: (word ++ segments more) ++ '\\' :: (name ++ a)) = _
    rw [List.cons_append, List.append_assoc,
      nameSegments_identifier (hw word List.mem_cons_self) hrest, ih]
    simp [segments]

/-- A target in front of a name makes a longer name of it. -/
theorem behind (h : IsName name a) {target : List Char} (ht : Fronts strict target) :
    IsName (target ++ '\\' :: name) a := by
  obtain ⟨word, more, rfl, hword, hmore, -⟩ := ht.eq_segments
  have hwords : ∀ piece ∈ word :: more, isIdentifier piece = true :=
    fun piece hm => (List.mem_cons.1 hm).elim (fun he => he ▸ hword) (hmore piece)
  have := h.nameSegments_segments hwords
  show nameSegments ('\\' :: (word ++ segments more ++ '\\' :: name ++ a)) = _
  simpa [segments] using this

end IsName

/-! ### Name tokens -/

theorem nameSegments_readWord (last : Option Token) {c : Char} (rest : List Char)
    (hc : isNameStart c = true) :
    IsName (readWord last (c :: rest)).token.text (readWord last (c :: rest)).rest := by
  have happend := readWord_append last (c :: rest)
  unfold IsName
  rw [happend, nameSegments, if_pos hc]
  simp [readWord, Reading.plain, isNameChar_of_isNameStart hc]

/-- The kinds of tokens in which names are moved. -/
def isNameKind (k : TokenKind) : Bool := k == .qualifiedName || k == .fullyQualifiedName

/-- Name tokens are read where a word or a separator in front of one stands. -/
theorem readCode_name_cases {last : Option Token} {line : Nat} {c : Char} {rest : List Char}
    {r : Reading} (h : readCode last line c rest = .ok r) :
    (isNameStart c = true ∧ r = readWord last (c :: rest)) ∨
    (c = '\\' ∧ headIs isNameStart rest = true ∧
      r = .plain .fullyQualifiedName (nameSegments ('\\' :: rest))) ∨
    isNameKind r.token.kind = false := by
  refine (readCode_cases h).imp_right (Or.imp_right ?_)
  rintro (ht | hk)
  · rw [ht]
    rfl
  · simp only [List.mem_cons, List.not_mem_nil, or_false] at hk
    rcases hk with hk | hk | hk | hk <;> rw [hk] <;> rfl

/-- The token with another text. -/
def Token.retext (g : Token → List Char) (t : Token) : Token := {t with text := g t}

/-- A name that may be moved: it begins with a numeral, and where the clauses of declarations are not
exchanged, not with one. -/
structure Movable (strict : Prop) (name : List Char) : Prop where
  numeral : headIs isNumeral name = true
  clause : strict → isClause name = false

/-- What becomes of the text of a token: it stays, or its name moves behind a target. -/
inductive Moved (strict : Prop) (t : Token) : List Char → Prop
  | same : Moved strict t t.text
  | qualified {target : List Char} : Fronts strict target → t.kind = .qualifiedName →
      Movable strict t.text → Moved strict t (target ++ '\\' :: t.text)
  | fullyQualified {target name : List Char} : Fronts strict target →
      t.kind = .fullyQualifiedName → t.text = '\\' :: name → Movable strict name →
      Moved strict t ('\\' :: target ++ '\\' :: name)

theorem Moved.eq_of_kind {t : Token} {u : List Char} (h : Moved strict t u)
    (hk : isNameKind t.kind = false) : u = t.text := by
  cases h with
  | same => rfl
  | qualified _ hq _ => rw [hq] at hk; cases hk
  | fullyQualified _ hq _ _ => rw [hq] at hk; cases hk

/-- Behind the token, its name has ended. -/
structure NameEnds (t : Token) (a : List Char) : Prop where
  qualified : t.kind = .qualifiedName → IsName t.text a
  fullyQualified : ∀ name, t.kind = .fullyQualifiedName → t.text = '\\' :: name → IsName name a

theorem NameEnds.of_kind {t : Token} (a : List Char) (hk : isNameKind t.kind = false) : NameEnds t a where
  qualified hq := by rw [hq] at hk; cases hk
  fullyQualified _ hq := by rw [hq] at hk; cases hk

theorem readCode_nameEnds {last : Option Token} {line : Nat} {c : Char} {rest : List Char}
    {r : Reading} (h : readCode last line c rest = .ok r) : NameEnds r.token r.rest := by
  rcases readCode_name_cases h with ⟨hc, rfl⟩ | ⟨rfl, hstart, rfl⟩ | hk
  · refine ⟨fun _ => nameSegments_readWord last rest hc, fun name hk => ?_⟩
    simp only [readWord, Reading.plain, wordKind] at hk
    repeat' split at hk
    all_goals simp at hk
  · refine ⟨fun hk => by simp [Reading.plain] at hk, fun name _ htext => ?_⟩
    have htext : (nameSegments ('\\' :: rest)).1 = '\\' :: name := htext
    have happend := nameSegments_append ('\\' :: rest)
    rw [htext, List.cons_append, List.cons.injEq] at happend
    show nameSegments ('\\' :: (name ++ (nameSegments ('\\' :: rest)).2)) = _
    rw [happend.2, ← htext]
    rfl
  · exact .of_kind _ hk

/-! ### Texts with a moved name -/

theorem isClause_append {name a : List Char} (ha : headIs isNameChar a = false) :
    isClause (name ++ a) = isClause name := by
  have htake : (name ++ a).takeWhile isNameChar = name.takeWhile isNameChar := by
    rw [List.takeWhile_append]
    split
    · rename_i hlen
      rw [takeWhile_of_stop ha, List.append_nil]
      exact ((List.takeWhile_prefix _).eq_of_length hlen).symm
    · rfl
  simp only [isClause, htake]

theorem takeWhile_identifier {word rest : List Char} (hw : isIdentifier word = true)
    (hrest : headIs isNameChar rest = false) : (word ++ rest).takeWhile isNameChar = word := by
  simp only [isIdentifier, Bool.and_eq_true, List.all_eq_true] at hw
  exact takeWhile_append_stop hw.2 hrest

theorem IsName.alike {name a target : List Char} (h : IsName name a)
    (ht : Fronts strict target) (hm : Movable strict name) (b : List Char) :
    Alike strict false (name ++ a) (target ++ '\\' :: name ++ b) := by
  obtain ⟨word, more, rfl, hword, hmore, -, hfree⟩ := ht.eq_segments
  have hstart := h.headIs_isNameStart
  have hclause := fun hs : strict => hm.clause hs
  have hnumeral := hm.numeral
  rw [← isClause_append h.headIs_rest] at hclause
  have hafter : headIs isNameChar (segments more ++ ('\\' :: name ++ b)) = false := by
    cases more <;> rfl
  have hnew (hs : strict) : isClause (word ++ (segments more ++ ('\\' :: name ++ b))) = false := by
    have hfree := hfree hs
    simp only [isReserved, Bool.or_eq_false_iff] at hfree
    simp only [isClause, takeWhile_identifier hword hafter, hfree.1.2, hfree.2, Bool.or_self]
  obtain ⟨d, tail, rfl, hd⟩ := exists_cons_of_isIdentifier hword
  rw [List.append_assoc, List.append_assoc]
  cases name with
  | nil => cases hstart
  | cons c rest => exact .name hstart hnumeral hd fun hs => ⟨hclause hs, hnew hs⟩

/-- A token in front of texts that look alike, with its name moved in one of them. -/
theorem Moved.alike {t : Token} {u a b : List Char} (hu : Moved strict t u) (hne : t.text ≠ [])
    (ha : NameEnds t a) (hb : Alike strict (endsInWord t.text) a b)
    (hw : inWord = true → headIs isNumeral t.text = false) :
    Alike strict inWord (t.text ++ a) (u ++ b) := by
  cases hu with
  | same => exact hb.behind hne
  | qualified ht hk hm =>
    have hout : inWord = false := by
      cases inWord with
      | false => rfl
      | true =>
        have := hw rfl
        rw [hm.numeral] at this
        cases this
    rw [hout]
    exact (ha.qualified hk).alike ht hm b
  | fullyQualified ht hk htext hm =>
    rw [htext]
    exact .same '\\' ((ha.fullyQualified _ hk htext).alike ht hm b)

/-! ### Reading a moved name -/

theorem isBlank_of_isNameStart {c : Char} (hc : isNameStart c = true) : isBlank c = false := by
  cases hb : isBlank c with
  | false => rfl
  | true =>
    rw [isNameStart_of_isBlank hb] at hc
    cases hc

theorem not_opening_of_head {c : Char} (rest : List Char)
    (hc : openings.all (fun o => o.head? != some c) = true) :
    ∀ o ∈ openings, ¬ o <+: c :: rest := by
  intro o ho hpre
  have hhead := List.all_eq_true.1 hc o ho
  have hne : o ≠ [] := by
    rintro rfl
    exact absurd ho (by decide)
  obtain ⟨d, more, rfl⟩ := List.exists_cons_of_ne_nil hne
  simp [(List.cons_prefix_cons.1 hpre).1] at hhead

theorem readCode_of_nameStart (last : Option Token) (line : Nat) {c : Char} (rest : List Char)
    (hc : isNameStart c = true) : readCode last line c rest = .ok (readWord last (c :: rest)) := by
  have hother : ∀ d : Char, isNameStart d = false → d ≠ c := by
    rintro d hd rfl
    exact absurd hc (by simp [hd])
  have hopening : ∀ o ∈ openings, ¬ o <+: c :: rest := by
    apply not_opening_of_head
    simp [openings, hother '#' (by decide), hother '/' (by decide), hother '?' (by decide),
      hother '\'' (by decide), hother '<' (by decide)]
  exact readCode_eq_ok_iff.2 (.plain (isBlank_of_isNameStart hc) hopening (.word hc))

theorem readCode_of_separator (last : Option Token) (line : Nat) {rest : List Char}
    (h : headIs isNameStart rest = true) :
    readCode last line '\\' rest =
      .ok (.plain .fullyQualifiedName (nameSegments ('\\' :: rest))) :=
  readCode_eq_ok_iff.2 (.plain (by decide) (not_opening_of_head rest (by decide)) (.separator h))

theorem readWord_behind {name b target : List Char} (last : Option Token) (h : IsName name b)
    (ht : Fronts strict target) :
    readWord last (target ++ '\\' :: name ++ b) =
      .plain .qualifiedName (target ++ '\\' :: name, b) := by
  obtain ⟨word, more, rfl, hword, hmore, hfree, -⟩ := ht.eq_segments
  have hafter : headIs isNameChar (segments more ++ '\\' :: (name ++ b)) = false := by
    cases more <;> rfl
  have hall : ∀ c ∈ word, isNameChar c = true :=
    List.all_eq_true.1 (Bool.and_eq_true_iff.1 hword).2
  have hsplit : word ++ segments more ++ '\\' :: name ++ b =
      word ++ (segments more ++ '\\' :: (name ++ b)) := by simp
  simp only [readWord, hsplit, takeWhile_append_stop hall hafter, dropWhile_append_stop hall hafter,
    h.nameSegments_segments hmore]
  simp [wordKind, hfree]

/-- **A token of code is read again with its name moved**, in front of a text that looks like the one
that followed it. -/
theorem readCode_moved {last last' : Option Token} {line : Nat} {c : Char} {rest u b : List Char}
    {r : Reading} (hc : isStop c = false) (hl : namesMember last' = namesMember last)
    (h : readCode last line c rest = .ok r) (hu : Moved strict r.token u)
    (hb : Alike strict (endsInWord r.token.text) r.rest b) (line' : Nat) :
    ∃ c' rest' r', u ++ b = c' :: rest' ∧ readCode last' line' c' rest' = .ok r' ∧
      Reading.Like strict u b r r' := by
  cases hu with
  | same =>
    have happend := readCode_append h
    have hne := readCode_ne_nil h
    obtain ⟨d, more, hd⟩ := List.exists_cons_of_ne_nil hne
    rw [hd, List.cons_append, List.cons.injEq] at happend
    obtain ⟨rfl, -⟩ := happend
    have hrest : d :: (more ++ b) = r.token.text ++ b := by rw [hd]; rfl
    have hread : ∃ r', readCode last' line' d (more ++ b) = .ok r' ∧
        Reading.Like strict r.token.text b r r' := readCode_alike hc hl h hb hrest
    obtain ⟨r', hr', hlike⟩ := hread
    exact ⟨d, more ++ b, r', hrest.symm, hr', hlike⟩
  | @qualified target ht hk hm =>
    have hname := ((readCode_nameEnds h).qualified hk).swap hb
    rcases readCode_name_cases h with ⟨-, rfl⟩ | ⟨-, -, rfl⟩ | hk'
    · obtain ⟨d, more, htarget, hd⟩ := ht.head
      refine ⟨d, more ++ '\\' :: (readWord last (c :: rest)).token.text ++ b, _, by simp [htarget],
        readCode_of_nameStart last' line' _ hd, ?_⟩
      have hsplit : d :: (more ++ '\\' :: (readWord last (c :: rest)).token.text ++ b) =
          target ++ '\\' :: (readWord last (c :: rest)).token.text ++ b := by simp [htarget]
      rw [hsplit, readWord_behind last' hname ht]
      exact ⟨rfl, .inl hk.symm, rfl, rfl, rfl⟩
    · cases hk
    · rw [hk] at hk'
      cases hk'
  | @fullyQualified target name ht hk htext hm =>
    have hname := ((readCode_nameEnds h).fullyQualified name hk htext).swap hb
    rcases readCode_name_cases h with ⟨hc, rfl⟩ | ⟨rfl, -, rfl⟩ | hk'
    · simp only [readWord, Reading.plain, wordKind] at hk
      repeat' split at hk
      all_goals simp at hk
    · refine ⟨'\\', target ++ '\\' :: name ++ b, _, by simp, readCode_of_separator last' line' ?_, ?_⟩
      · obtain ⟨d, more, htarget, hd⟩ := ht.head
        rw [htarget]
        exact hd
      · rw [show nameSegments ('\\' :: (target ++ '\\' :: name ++ b)) = _ from hname.behind ht]
        exact ⟨rfl, .inl hk.symm, rfl, rfl, rfl⟩
    · rw [hk] at hk'
      cases hk'

end PluginShading.Source
