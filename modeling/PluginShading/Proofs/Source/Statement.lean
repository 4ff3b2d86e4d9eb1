import Mathlib.Data.List.Basic
import PluginShading.Proofs.Source.Imports
import PluginShading.Proofs.Source.Words

/-!
Which words `namespace` count as a statement.

The lexer decides by the last significant token whether a word is a keyword (`isKeyword_namespace_iff`), and the
splitter takes every keyword for a statement, inside of braces too. So a statement that is the only one outside of
braces is found exactly if each word `namespace` that braces enclose stands where a member is named
(`only_statement_found_iff`). Behind `const`, behind `case` and in front of the colon of an argument it does not
(`constant_counts_as_statement`).
-/
namespace PluginShading.Source

/-! ### What stands in front of a token -/

/-- The last token that is neither white space nor a plain comment. -/
def lastSignificant (ts : List Token) : Option Token := (ts.filter Token.significant).getLast?

theorem lastSignificant_cons (t : Token) (ts : List Token) :
    lastSignificant (t :: ts) = (lastSignificant ts).or (if t.significant then some t else none) := by
  unfold lastSignificant
  by_cases h : t.significant = true
  · rw [List.filter_cons_of_pos h, List.getLast?_cons, if_pos h]
    cases (ts.filter Token.significant).getLast? <;> rfl
  · rw [List.filter_cons_of_neg h, if_neg h, Option.or_none]

/-- How many braces are open behind the tokens; a brace closes none where none is open. -/
def openBraces (ts : List Token) : Nat := ts.foldl (fun (depth : Nat) t => ((depth : Int) + t.braceDelta).toNat) 0

namespace Machine

variable {m m' : Machine} {t : Token} {ts : List Token}

/-- A run remembers the last significant token that it read. -/
theorem Steps.last (h : Steps m ts m') : m'.last = (lastSignificant ts).or m.last := by
  induction h with
  | refl => rfl
  | @next m after m' t ts hn _ ih =>
    rw [ih, next_last hn, lastSignificant_cons, Option.or_assoc]
    by_cases hs : t.significant = true
    · simp [hs]
    · simp [hs]

end Machine

/-! ### The word as a keyword -/

/-- One word by itself, a name or a keyword, that reads `namespace`. -/
def Token.isNamespaceWord (t : Token) : Bool :=
  match t.kind with
  | .identifier | .keyword _ => spells "namespace" t.text
  | _ => false

theorem not_spells {a b : String} (hne : a ≠ b) {text : List Char} (h : spells a text = true) :
    spells b text = false := by
  simp only [spells, beq_iff_eq] at h
  simp only [spells, h, beq_eq_false_iff_ne, ne_eq, String.toList_inj]
  exact hne

theorem ofWord?_eq_namespaceWord_iff (word : List Char) :
    Keyword.ofWord? word = some .namespaceWord ↔ spells "namespace" word = true := by
  unfold Keyword.ofWord?
  constructor
  · intro h
    by_contra hn
    rw [if_neg hn] at h
    repeat' split at h
    all_goals cases h
  · intro h
    rw [if_pos h]

theorem readWord_keyword_iff (last : Option Token) (cs : List Char) :
    (readWord last cs).token.isKeyword .namespaceWord = true ↔
      (readWord last cs).token.isNamespaceWord = true ∧ namesMember last = false := by
  simp only [readWord, Reading.plain]
  generalize (nameSegments (cs.dropWhile isNameChar)).2 = rest
  generalize (nameSegments (cs.dropWhile isNameChar)).1 = segments
  generalize cs.takeWhile isNameChar = word
  cases segments with
  | cons c segments =>
    have hkind : wordKind last word (c :: segments) rest =
        if spells "namespace" word then .other else .qualifiedName := rfl
    rw [hkind]
    split <;> simp [Token.isKeyword, Token.isNamespaceWord]
  | nil =>
    have hkind : wordKind last word [] rest = if namesMember last then .identifier
        else if spells "enum" word then if enumDeclares rest then .keyword .enumWord else .identifier
        else (Keyword.ofWord? word).elim .identifier .keyword := by
      unfold wordKind
      cases Keyword.ofWord? word <;> rfl
    rw [hkind, List.append_nil]
    by_cases hmember : namesMember last = true
    · simp [hmember, Token.isKeyword]
    rw [if_neg hmember]
    by_cases henum : spells "enum" word = true
    · have hword := not_spells (b := "namespace") (by decide) henum
      rw [if_pos henum]
      split <;> simp [Token.isKeyword, Token.isNamespaceWord, hword]
    · rw [if_neg henum]
      have hiff := ofWord?_eq_namespaceWord_iff word
      cases hk : Keyword.ofWord? word with
      | some keyword =>
        rw [hk, Option.some.injEq] at hiff
        simp [Token.isKeyword, Token.isNamespaceWord, hiff, hmember]
      | none =>
        rw [hk] at hiff
        simpa [Token.isKeyword, Token.isNamespaceWord] using fun hword => absurd (hiff.2 hword) (by simp)

/-- Tokens of other kinds are no words. -/
theorem not_word_of_kind {t : Token} (hi : t.kind ≠ .identifier) (hk : ∀ word, t.kind ≠ .keyword word) :
    t.isKeyword .namespaceWord = false ∧ t.isNamespaceWord = false := by
  refine ⟨by simpa [Token.isKeyword] using hk .namespaceWord, ?_⟩
  unfold Token.isNamespaceWord
  split
  · exact absurd ‹_› hi
  · exact absurd ‹_› (hk _)
  · rfl

theorem Machine.next_keyword_iff {m m' : Machine} {t : Token} (h : m.next = .ok (some (t, m'))) :
    t.isKeyword .namespaceWord = true ↔ t.isNamespaceWord = true ∧ namesMember m.last = false := by
  have hother : ∀ {s : Token}, s.kind ≠ .identifier → (∀ word, s.kind ≠ .keyword word) →
      (s.isKeyword .namespaceWord = true ↔ s.isNamespaceWord = true ∧ namesMember m.last = false) := by
    intro s hi hk
    simp [not_word_of_kind hi hk]
  cases next_move h with
  | outside =>
    unfold readOutside
    split <;> exact hother (fun h => by cases h) (fun _ h => by cases h)
  | @code c rest r _ _ _ hr =>
    rcases readCode_cases hr with ⟨-, rfl⟩ | ⟨-, -, rfl⟩ | ht | hk
    · exact readWord_keyword_iff m.last (c :: rest)
    · exact hother (fun h => by cases h) (fun _ h => by cases h)
    · rw [ht]
      exact hother (fun h => by cases h) (fun _ h => by cases h)
    · simp only [List.mem_cons, List.not_mem_nil, or_false] at hk
      rcases hk with hk | hk | hk | hk <;> exact hother (by simp [hk]) (by simp [hk])
  | closing | opening | text => exact hother (fun h => by cases h) (fun _ h => by cases h)

/-- The word is a keyword wherever no member is named. -/
theorem isKeyword_namespace_iff {source : List Char} {ts : List Token} (h : tokenize source = .ok ts) {i : Nat}
    (hi : i < ts.length) :
    ts[i].isKeyword .namespaceWord = true ↔
      ts[i].isNamespaceWord = true ∧ namesMember (lastSignificant (ts.take i)) = false := by
  obtain ⟨m, hm, -, -⟩ := tokenize_eq_ok_iff.1 h
  rw [← List.take_append_drop i ts, List.drop_eq_getElem_cons hi] at hm
  obtain ⟨k, hfront, hback⟩ := hm.split
  have hlast := hfront.last
  rw [show (Machine.start source).last = none from rfl, Option.or_none] at hlast
  cases hback with
  | next hn _ =>
    rw [← hlast]
    exact Machine.next_keyword_iff hn

/-! ### Errors of the statement -/

/-- Splitting fails at a namespace statement: at the second, at one with braces, or at one that is not finished. -/
def SplitError.ofStatement : SplitError → Bool
  | .multipleNamespaces | .bracedNamespace | .expectedNamespaceName _ | .expectedSemicolon _ => true
  | _ => false

theorem namespaceName_error {after : List Token} {e : SplitError} (h : namespaceName after = .error e) :
    e.ofStatement = true := by
  unfold namespaceName at h
  repeat' split at h
  all_goals cases h
  all_goals rfl

theorem locate_error {ts : List Token} {e : SplitError} (h : locate ts = .error e)
    (hword : ∃ t ∈ ts, t.isKeyword .namespaceWord = true) : e.ofStatement = true := by
  induction ts with
  | nil =>
    obtain ⟨t, ht, -⟩ := hword
    cases ht
  | cons t rest ih =>
    simp only [locate] at h
    split at h
    · split at h
      · rename_i e' hname
        cases h
        exact namespaceName_error hname
      · split at h
        · cases h
          rfl
        · cases h
    · rename_i hhead
      split at h
      · rename_i e' hrest
        cases h
        obtain ⟨s, hs, hkeyword⟩ := hword
        rcases List.mem_cons.1 hs with rfl | hs
        · exact absurd hkeyword hhead
        · exact ih hrest ⟨s, hs, hkeyword⟩
      · cases h

theorem declaredName_error {word : Keyword} {after : List Token} {e : SplitError}
    (h : declaredName word after = .error e) : e.ofStatement = false := by
  unfold declaredName at h
  repeat' split at h
  all_goals cases h
  all_goals rfl

theorem nextPiece_error {first : Token} {rest : List Token} {e : SplitError}
    (h : nextPiece first rest = .error e) : e.ofStatement = false := by
  unfold nextPiece at h
  repeat' split at h
  all_goals cases h
  all_goals first
    | rfl
    | exact declaredName_error ‹_›

/-- What stands behind the header has errors of its own. -/
theorem declarations_error {line : Nat} {ts : List Token} {e : SplitError}
    (h : declarations line ts = .error e) : e.ofStatement = false := by
  fun_induction declarations line ts with
  | case1 => cases h
  | case2 line ts first rest hs e' hpiece =>
    cases h
    exact nextPiece_error hpiece
  | case3 line ts first rest hs piece hpiece _ start code e' hmore ih =>
    cases h
    exact ih hmore
  | case4 => cases h

theorem cutThrough_eq_none {p : Token → Bool} {ts : List Token} (h : cutThrough p ts = none) :
    ∀ t ∈ ts, p t = false := by
  induction ts with
  | nil => simp
  | cons t rest ih =>
    simp only [cutThrough] at h
    split at h
    · cases h
    · rename_i hp
      rw [Option.map_eq_none_iff] at h
      exact List.forall_mem_cons.2 ⟨Bool.eq_false_iff.2 hp, ih h⟩

/-! ### The only statement -/

deriving instance DecidableEq for Located

/-- This name and a semicolon follow, with nothing but white space and plain comments in front of each. -/
structure NamesSpace (name : Token) (after : List Token) : Prop where
  first : (skipInsignificant after).head? = some name
  kind : name.kind = .qualifiedName ∨ name.kind = .identifier
  semicolon : (skipInsignificant (skipInsignificant after).tail).head?.any isSemicolon = true

instance (name : Token) (after : List Token) : Decidable (NamesSpace name after) :=
  decidable_of_iff ((skipInsignificant after).head? = some name ∧
      (name.kind = .qualifiedName ∨ name.kind = .identifier) ∧
      (skipInsignificant (skipInsignificant after).tail).head?.any isSemicolon = true)
    ⟨fun ⟨hfirst, hkind, hmark⟩ => ⟨hfirst, hkind, hmark⟩, fun h => ⟨h.first, h.kind, h.semicolon⟩⟩

namespace NamesSpace

variable {name : Token} {after : List Token}

theorem namespaceName (h : NamesSpace name after) : namespaceName after = .ok name.text := by
  obtain ⟨rest, hrest⟩ := List.head?_eq_some_iff.1 h.first
  obtain ⟨mark, hhead, hmark⟩ := (Option.any_eq_true _ _).1 h.semicolon
  rw [hrest, List.tail_cons] at hhead
  obtain ⟨more, hmore⟩ := List.head?_eq_some_iff.1 hhead
  simp only [Source.namespaceName, hrest, if_pos h.kind, hmore, if_pos hmark]

theorem exists_semicolon (h : NamesSpace name after) : ∃ t ∈ after, isSemicolon t = true := by
  obtain ⟨mark, hhead, hmark⟩ := (Option.any_eq_true _ _).1 h.semicolon
  exact ⟨mark, mem_of_mem_skip (List.mem_of_mem_tail (mem_of_mem_skip (List.mem_of_mem_head? hhead))), hmark⟩

end NamesSpace

/-- The `i`-th token is the one keyword `namespace` outside of braces, and this name follows it. -/
structure OnlyStatement (ts : List Token) (i : Nat) (name : Token) : Prop where
  inside : i < ts.length
  word : ts[i].isKeyword .namespaceWord = true
  outside : openBraces (ts.take i) = 0
  only : ∀ j (hj : j < ts.length), ts[j].isKeyword .namespaceWord = true → openBraces (ts.take j) = 0 → j = i
  named : NamesSpace name (ts.drop (i + 1))

instance (ts : List Token) (i : Nat) (name : Token) : Decidable (OnlyStatement ts i name) :=
  decidable_of_iff (∃ hi : i < ts.length, ts[i].isKeyword .namespaceWord = true ∧ openBraces (ts.take i) = 0 ∧
      (∀ j (hj : j < ts.length), ts[j].isKeyword .namespaceWord = true → openBraces (ts.take j) = 0 → j = i) ∧
      NamesSpace name (ts.drop (i + 1)))
    ⟨fun ⟨hi, hword, hout, honly, hname⟩ => ⟨hi, hword, hout, honly, hname⟩,
      fun h => ⟨h.inside, h.word, h.outside, h.only, h.named⟩⟩

/-- Each word `namespace` inside of braces stands where the lexer sees the name of a member. -/
def EnclosesMembers (ts : List Token) : Prop :=
  ∀ j (hj : j < ts.length), ts[j].isNamespaceWord = true → 0 < openBraces (ts.take j) →
    namesMember (lastSignificant (ts.take j)) = true

instance (ts : List Token) : Decidable (EnclosesMembers ts) := Nat.decidableBallLT _ _

theorem locate_of_only {before after : List Token} {word : Token} {name : List Char}
    (hbefore : ∀ t ∈ before, t.isKeyword .namespaceWord = false) (hword : word.isKeyword .namespaceWord = true)
    (hname : namespaceName after = .ok name) (hafter : ∀ t ∈ after, t.isKeyword .namespaceWord = false) :
    locate (before ++ word :: after) = .ok ⟨before, name, word :: after⟩ := by
  induction before with
  | nil =>
    have hone : after.any (·.isKeyword .namespaceWord) = false := by simpa using hafter
    simp only [List.nil_append, locate, if_pos hword, hname, hone, Bool.false_eq_true, if_false]
  | cons t before ih =>
    rw [List.forall_mem_cons] at hbefore
    rw [List.cons_append, locate, if_neg (by simp [hbefore.1]), ih hbefore.2]

namespace OnlyStatement

variable {ts : List Token} {i : Nat} {name : Token}

/-- Where the other keywords are, if the statement is found. -/
theorem keyword_alone (h : OnlyStatement ts i name) {found : Located} (hfound : locate ts = .ok found) :
    ∀ j (hj : j < ts.length), ts[j].isKeyword .namespaceWord = true → j = i := by
  obtain ⟨hbefore, word, rest, hstatement, hrest⟩ := locate_alone hfound
  obtain rfl := locate_append hfound
  rw [hstatement] at h ⊢
  have hplace : ∀ j (hj : j < (found.before ++ word :: rest).length),
      (found.before ++ word :: rest)[j].isKeyword .namespaceWord = true → j = found.before.length := by
    intro j hj hword
    rcases Nat.lt_trichotomy j found.before.length with hlt | heq | hgt
    · rw [List.getElem_append_left hlt, hbefore _ (List.getElem_mem hlt)] at hword
      cases hword
    · exact heq
    · obtain ⟨k, rfl⟩ := Nat.exists_eq_add_of_lt hgt
      have hk : k < rest.length := by simp at hj; omega
      have hget : (found.before ++ word :: rest)[found.before.length + k + 1] = rest[k] := by
        rw [List.getElem_append_right (by omega)]
        simp [show found.before.length + k + 1 - found.before.length = k + 1 by omega]
      rw [hget, hrest _ (List.getElem_mem hk)] at hword
      cases hword
  exact fun j hj hword => (hplace j hj hword).trans (hplace i h.inside h.word).symm

/-- The statement is found if no other keyword is there. -/
theorem locate_of_alone (h : OnlyStatement ts i name)
    (hone : ∀ j (hj : j < ts.length), ts[j].isKeyword .namespaceWord = true → j = i) :
    locate ts = .ok ⟨ts.take i, name.text, ts.drop i⟩ := by
  have hfree : ∀ j (hj : j < ts.length), j ≠ i → ts[j].isKeyword .namespaceWord = false :=
    fun j hj hne => Bool.eq_false_iff.2 fun hword => hne (hone j hj hword)
  have hbefore : ∀ t ∈ ts.take i, t.isKeyword .namespaceWord = false := by
    intro t ht
    obtain ⟨j, hj, rfl⟩ := List.mem_take_iff_getElem.1 ht
    exact hfree j (by omega) (by omega)
  have hafter : ∀ t ∈ ts.drop (i + 1), t.isKeyword .namespaceWord = false := by
    intro t ht
    obtain ⟨j, hj, rfl⟩ := List.mem_drop_iff_getElem.1 ht
    exact hfree (i + 1 + j) (by omega) (by omega)
  have hlocate := locate_of_only hbefore h.word h.named.namespaceName hafter
  rwa [← List.drop_eq_getElem_cons h.inside, List.take_append_drop] at hlocate

/-- The other keywords are the words in braces that the lexer does not take for members. -/
theorem enclosesMembers_iff {source : List Char} (hsource : tokenize source = .ok ts)
    (h : OnlyStatement ts i name) :
    EnclosesMembers ts ↔ ∀ j (hj : j < ts.length), ts[j].isKeyword .namespaceWord = true → j = i := by
  constructor
  · intro hmembers j hj hword
    obtain ⟨hspelled, hfree⟩ := (isKeyword_namespace_iff hsource hj).1 hword
    refine h.only j hj hword (Nat.eq_zero_of_not_pos fun hpos => ?_)
    rw [hmembers j hj hspelled hpos] at hfree
    cases hfree
  · intro hone j hj hspelled hpos
    by_contra hmember
    have hword := (isKeyword_namespace_iff hsource hj).2 ⟨hspelled, Bool.eq_false_iff.2 hmember⟩
    obtain rfl := hone j hj hword
    rw [h.outside] at hpos
    exact absurd hpos (Nat.lt_irrefl 0)

/-- Once the statement is found, splitting fails for other reasons only. -/
theorem splitTokens_error (h : OnlyStatement ts i name)
    (hfound : locate ts = .ok ⟨ts.take i, name.text, ts.drop i⟩) {path : Path} {e : SplitError}
    (he : splitTokens path ts = .error e) : e.ofStatement = false := by
  simp only [splitTokens, hfound] at he
  split at he
  · rename_i hcut
    obtain ⟨t, ht, hmark⟩ := h.named.exists_semicolon
    have hnone := cutThrough_eq_none hcut t
      (by rw [List.drop_eq_getElem_cons h.inside]; exact List.mem_cons_of_mem _ ht)
    rw [hnone] at hmark
    cases hmark
  · split at he
    · rename_i hds
      cases he
      exact declarations_error hds
    · cases he

end OnlyStatement

/-- **A single statement is found exactly if braces enclose the word as a name only where the lexer sees a member.**
That is behind an arrow, a double colon or `function`. Any other word `namespace` in braces counts as a statement of
its own, and splitting fails at it or at the one outside. -/
theorem only_statement_found_iff (path : Path) {source : List Char} {ts : List Token} {i : Nat} {name : Token}
    (hsource : tokenize source = .ok ts) (h : OnlyStatement ts i name) :
    (locate ts = .ok ⟨ts.take i, name.text, ts.drop i⟩ ↔ EnclosesMembers ts) ∧
      ((∃ e, split path source = .error e ∧ e.ofStatement = true) ↔ ¬ EnclosesMembers ts) := by
  have halone := h.enclosesMembers_iff hsource
  have hsplit : split path source = splitTokens path ts := by simp only [split, hsource]
  rw [hsplit, halone]
  refine ⟨⟨h.keyword_alone, h.locate_of_alone⟩, fun ⟨e, he, hstatement⟩ hone => ?_, fun hother => ?_⟩
  · rw [h.splitTokens_error (h.locate_of_alone hone) he] at hstatement
    cases hstatement
  · cases hlocate : locate ts with
    | error e =>
      exact ⟨e, by simp only [splitTokens, hlocate],
        locate_error hlocate ⟨_, List.getElem_mem h.inside, h.word⟩⟩
    | ok found => exact absurd (h.keyword_alone hlocate) hother

/-- The statement holds of a class with a method of that name, which is read through a double colon, and of one with
a constant of that name. -/
theorem exists_only_statement_found : ∃ source source' ts ts' name,
    (tokenize source = .ok ts ∧ OnlyStatement ts 1 name ∧ EnclosesMembers ts ∧
      locate ts = .ok ⟨ts.take 1, ['A'], ts.drop 1⟩ ∧
      ¬ ∃ e, split ⟨"a.php"⟩ source = .error e ∧ e.ofStatement = true) ∧
    tokenize source' = .ok ts' ∧ OnlyStatement ts' 1 name ∧ ¬ EnclosesMembers ts' ∧
      ∃ e, split ⟨"a.php"⟩ source' = .error e ∧ e.ofStatement = true := by
  let source := "<?php namespace A;class B\x7bfunction namespace()\x7breturn B::namespace;\x7d\x7d".toList
  let source' := "<?php namespace A;class B\x7bconst namespace=1;\x7d".toList
  let ts := (tokenize source).toOption.getD []
  let ts' := (tokenize source').toOption.getD []
  have hts : tokenize source = .ok ts := by decide +kernel
  have hts' : tokenize source' = .ok ts' := by decide +kernel
  have hmembers : EnclosesMembers ts := by decide +kernel
  have hother : ¬ EnclosesMembers ts' := by decide +kernel
  have hone : OnlyStatement ts 1 ⟨.identifier, ['A']⟩ := by decide +kernel
  have hone' : OnlyStatement ts' 1 ⟨.identifier, ['A']⟩ := by decide +kernel
  obtain ⟨hfound, herror⟩ := only_statement_found_iff ⟨"a.php"⟩ hts hone
  obtain ⟨-, herror'⟩ := only_statement_found_iff ⟨"a.php"⟩ hts' hone'
  exact ⟨source, source', ts, ts', _, ⟨hts, hone, hmembers, hfound.2 hmembers, fun he => herror.1 he hmembers⟩,
    hts', hone', hother, herror'.2 hother⟩

/-- A constant of that name counts as a second statement, and the file is refused. -/
theorem constant_counts_as_statement : ∃ source ts, tokenize source = .ok ts ∧
    OnlyStatement ts 1 ⟨.identifier, ['A']⟩ ∧ locate ts = .error .multipleNamespaces ∧
    split ⟨"a.php"⟩ source = .error .multipleNamespaces := by
  let source := "<?php namespace A;class B\x7bconst namespace=1;\x7d".toList
  let ts := (tokenize source).toOption.getD []
  exact ⟨source, ts, by decide +kernel, by decide +kernel, by decide +kernel, by decide +kernel⟩

end PluginShading.Source
