import PluginShading.Proofs.Source.Division
import PluginShading.Proofs.Source.Machine

/-!
What namespaces and declarations are called.

The names that a split takes from a source are the texts of name tokens, and those are words, with
separators between them for a namespace (`split_segments`, `split_name`). So there is nothing in them that
a path would read as anything but a name.
-/
namespace PluginShading.Source

/-- What stands in a name that may have segments. -/
def isNamePart (c : Char) : Bool := isNameChar c || c == '\\'

theorem isNameChar_of_isIdentifier {word : List Char} (h : isIdentifier word = true) :
    ∀ c ∈ word, isNameChar c = true :=
  List.all_eq_true.1 (Bool.and_eq_true_iff.1 h).2

theorem separator_not_mem {word : List Char} (h : isIdentifier word = true) : '\\' ∉ word :=
  fun hmem => absurd (isNameChar_of_isIdentifier h _ hmem) (by decide)

theorem isIdentifier_takeWhile {c : Char} (rest : List Char) (hc : isNameStart c = true) :
    isIdentifier ((c :: rest).takeWhile isNameChar) = true := by
  have hchar := isNameChar_of_isNameStart hc
  rw [List.takeWhile_cons_of_pos hchar]
  simp only [isIdentifier, Bool.and_eq_true, List.all_eq_true]
  exact ⟨hc, List.forall_mem_cons.2 ⟨hchar, fun x hx => List.mem_takeWhile_imp hx⟩⟩

/-- The further segments of a name are words. -/
theorem exists_segments (cs : List Char) :
    ∃ words, (nameSegments cs).1 = segments words ∧ ∀ word ∈ words, isIdentifier word = true := by
  fun_induction nameSegments cs with
  | case1 c rest hc tail ih =>
    refine ih.elim fun words h => ⟨(c :: rest.takeWhile isNameChar) :: words, ?_, ?_⟩
    · simp [tail, h.1, segments]
    refine List.forall_mem_cons.2 ⟨?_, h.2⟩
    rw [← List.takeWhile_cons_of_pos (isNameChar_of_isNameStart hc)]
    exact isIdentifier_takeWhile rest hc
  | case2 => exact ⟨[], rfl, List.forall_mem_nil _⟩
  | case3 => exact ⟨[], rfl, List.forall_mem_nil _⟩

theorem pieces_segments {word : List Char} {words : List (List Char)} (hword : isIdentifier word = true)
    (hwords : ∀ piece ∈ words, isIdentifier piece = true) :
    Text.pieces '\\' (word ++ segments words) = word :: words := by
  induction words generalizing word with
  | nil =>
    rw [show segments [] = [] from rfl, List.append_nil]
    exact Text.pieces_of_not_mem (separator_not_mem hword)
  | cons second rest ih =>
    rw [List.forall_mem_cons] at hwords
    show Text.pieces '\\' (word ++ '\\' :: (second ++ segments rest)) = _
    rw [Text.pieces_append, Text.pieces_of_not_mem (separator_not_mem hword), ih hwords.1 hwords.2]
    rfl

/-- The token is no name, or words with separators between them. -/
def isNameToken (t : Token) : Prop :=
  t.kind = .qualifiedName ∨ t.kind = .identifier →
    ∀ piece ∈ Text.pieces '\\' t.text, isIdentifier piece = true

theorem readCode_isNameToken {last : Option Token} {line : Nat} {c : Char} {rest : List Char}
    {r : Reading} (h : readCode last line c rest = .ok r) : isNameToken r.token := by
  intro hk
  rcases readCode_cases h with ⟨hc, rfl⟩ | ⟨-, -, rfl⟩ | ht | hk'
  · obtain ⟨words, hsegments, hwords⟩ := exists_segments ((c :: rest).dropWhile isNameChar)
    have hword := isIdentifier_takeWhile rest hc
    show ∀ piece ∈ Text.pieces '\\' (_ ++ _), _
    rw [hsegments, pieces_segments hword hwords]
    exact List.forall_mem_cons.2 ⟨hword, hwords⟩
  · rcases hk with hk | hk <;> cases hk
  · rw [ht] at hk
    rcases hk with hk | hk <;> cases hk
  · rcases hk with hk | hk <;> simp [hk] at hk'

theorem Machine.next_isNameToken {m m' : Machine} {t : Token} (h : m.next = .ok (some (t, m'))) :
    isNameToken t := by
  refine next_token (fun _ _ _ _ _ => readCode_isNameToken) (fun kind text hk hp => ?_)
    (fun mark _ hp => ?_) h
  · rcases hk with rfl | rfl <;> rcases hp with hp | hp <;> cases hp
  · rcases hp with hp | hp <;> cases hp

/-! ### Declarations -/

theorem mem_of_mem_skip {ts : List Token} {t : Token} (h : t ∈ skipInsignificant ts) : t ∈ ts :=
  (List.dropWhile_sublist _).subset h

theorem mem_trim {s : List Char} {c : Char} (h : c ∈ Text.trim s) : c ∈ s := by
  have hend := (List.dropWhile_sublist _).subset (List.mem_reverse.1 h)
  exact (List.dropWhile_sublist _).subset (List.mem_reverse.1 hend)

theorem declaredName_eq_ok {word : Keyword} {ts : List Token} {name : List Char}
    (h : declaredName word ts = .ok name) :
    ∃ t ∈ ts, t.kind = .identifier ∧ name = Text.trim t.text := by
  unfold declaredName at h
  split at h
  · cases h
  · rename_i t rest hts
    split at h
    · rename_i hk
      cases h
      exact ⟨t, mem_of_mem_skip (hts ▸ List.mem_cons_self), hk, rfl⟩
    · cases h

theorem nextPiece_name {first : Token} {rest : List Token} {piece : Piece}
    (h : nextPiece first rest = .ok piece) :
    ∃ t ∈ first :: rest, t.kind = .identifier ∧ piece.name = Text.trim t.text := by
  obtain ⟨lead, word, after, name, head, body, hf, hname, -, -, rfl⟩ := nextPiece_eq_ok_iff.1 h
  obtain ⟨t, ht, hk, heq⟩ := declaredName_eq_ok hname
  refine ⟨t, ?_, hk, heq⟩
  rw [← findDeclaration_append hf]
  exact List.mem_append_right _ (List.mem_of_mem_tail ht)

theorem declarations_name {line : Nat} {ts : List Token} {ds : List Declaration}
    (h : declarations line ts = .ok ds) :
    ∀ d ∈ ds, ∃ t ∈ ts, t.kind = .identifier ∧ d.name = Text.trim t.text := by
  fun_induction declarations line ts generalizing ds with
  | case1 line ts hs =>
    cases h
    intro d hd
    cases hd
  | case2 => cases h
  | case3 => cases h
  | case4 line ts first rest hs piece hp _ start code more hmore =>
    rename_i ih
    cases h
    have hin : ∀ t ∈ first :: rest, t ∈ ts := fun t ht => mem_of_mem_skip (hs ▸ ht)
    intro d hd
    rcases List.mem_cons.1 hd with rfl | hd
    · obtain ⟨t, ht, hk, hname⟩ := nextPiece_name hp
      exact ⟨t, hin t ht, hk, hname⟩
    · obtain ⟨t, ht, hk, hname⟩ := ih hmore d hd
      refine ⟨t, hin t ?_, hk, hname⟩
      rw [← (nextPiece_append hp).1]
      exact List.mem_append_right _ ht

/-! ### Splits -/

variable {path : Path} {source : List Char} {f : File}

theorem split_tokens (h : split path source = .ok f) :
    ∃ ts, (∀ t ∈ ts, isNameToken t ∧ isWordToken t ∧ isMarkToken t) ∧ splitTokens path ts = .ok f := by
  unfold split at h
  split at h
  · cases h
  · rename_i ts hts
    obtain ⟨m, hm, -, -⟩ := tokenize_eq_ok_iff.1 hts
    refine ⟨ts, fun t ht => ⟨?_, ?_, ?_⟩, h⟩
    · exact hm.forall_tokens (fun _ _ _ => Machine.next_isNameToken) t ht
    · exact hm.forall_tokens (fun _ _ _ => Machine.next_isWordToken) t ht
    · exact hm.forall_tokens (fun _ _ _ => Machine.next_isMarkToken) t ht

/-- The namespace of a file is words with separators between them. -/
theorem split_segments (h : split path source = .ok f) :
    ∀ piece ∈ Text.pieces '\\' f.space, isIdentifier piece = true := by
  obtain ⟨ts, hts, hsplit⟩ := split_tokens h
  obtain ⟨_, _, _, name, hname, _, _, _, _, _, hk, hspace, _⟩ :=
    splitTokens_retext (fun t ht => (hts t ht).2.2) hsplit
  rw [hspace]
  exact (hts name hname).1 hk

theorem isNamePart_of_pieces {space : List Char}
    (h : ∀ piece ∈ Text.pieces '\\' space, isIdentifier piece = true) :
    ∀ c ∈ space, isNamePart c = true := by
  intro c hc
  by_cases hmark : c = '\\'
  · subst hmark
    rfl
  · obtain ⟨piece, hpiece, hmem⟩ := Text.exists_mem_pieces hc hmark
    simp [isNamePart, isNameChar_of_isIdentifier (h piece hpiece) c hmem]

theorem split_space (h : split path source = .ok f) : ∀ c ∈ f.space, isNamePart c = true :=
  isNamePart_of_pieces (split_segments h)

/-- The name of a declaration is a word. -/
theorem split_name (h : split path source = .ok f) :
    ∀ d ∈ f.declarations, ∀ c ∈ d.name, isNameChar c = true := by
  obtain ⟨ts, hts, hsplit⟩ := split_tokens h
  unfold splitTokens at hsplit
  split at hsplit
  · cases hsplit
  · rename_i found hfound
    split at hsplit
    · cases hsplit
    · rename_i statement hstatement
      dsimp only at hsplit
      split at hsplit
      · cases hsplit
      · rename_i ds hds
        cases hsplit
        intro d hd c hc
        obtain ⟨t, ht, hk, hname⟩ := declarations_name hds d hd
        rw [hname] at hc
        refine (hts t ?_).2.1 hk c (mem_trim hc)
        rw [← (locate_retext hfound).1, ← cutThrough_append hstatement, ← imports_append statement.2]
        simp [ht]

end PluginShading.Source
