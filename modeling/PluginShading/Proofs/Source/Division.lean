import PluginShading.Proofs.Source.Machine
import PluginShading.Proofs.Source.Renaming
import PluginShading.Source.Split

/-!
What splitting looks at.

A file is split by kinds, marks and keywords, and the text of a name is taken over as it is. So a change
of names alone goes through: the split of the changed tokens is the split of the tokens, with every piece
changed (`splitTokens_retext`).
-/
namespace PluginShading.Source

/-- A change of texts that leaves all tokens but names as they are, and every token its lines. -/
structure Keeps (g : Token → List Char) : Prop where
  text : ∀ t, isNameKind t.kind = false → g t = t.text
  newlines : ∀ t, Text.newlines (g t) = t.newlines

theorem text_retext (g : Token → List Char) (ts : List Token) :
    text (ts.map (Token.retext g)) = ts.flatMap g := by
  simp [text, Token.retext, List.flatMap_map]

section Marks

variable {g : Token → List Char} (hg : Keeps g)
include hg

theorem isPunctuation_retext (t : Token) (mark : List Char) :
    (t.retext g).isPunctuation mark = t.isPunctuation mark := by
  by_cases hk : t.kind = .punctuation
  · have htext := hg.text t (by rw [hk]; rfl)
    simp [Token.isPunctuation, Token.retext, htext]
  · have hk : (t.kind == .punctuation) = false := by simpa using hk
    simp [Token.isPunctuation, Token.retext, hk]

theorem braceDelta_retext (t : Token) : (t.retext g).braceDelta = t.braceDelta := by
  obtain ⟨kind, text⟩ := t
  cases kind with
  | punctuation => simp [Token.braceDelta, Token.retext, hg.text ⟨.punctuation, text⟩ rfl]
  | _ => rfl

theorem newlines_retext (ts : List Token) :
    Text.newlines (ts.flatMap g) = Text.newlines (text ts) := by
  induction ts with
  | nil => rfl
  | cons t rest ih =>
    rw [List.flatMap_cons, text_cons, Text.newlines_append, Text.newlines_append, ih, hg.newlines]
    rfl

omit hg in
theorem skipInsignificant_map (ts : List Token) :
    skipInsignificant (ts.map (Token.retext g)) = (skipInsignificant ts).map (Token.retext g) := by
  rw [skipInsignificant, List.dropWhile_map]
  rfl

omit hg in
theorem takeWhile_insignificant_map (ts : List Token) :
    (ts.map (Token.retext g)).takeWhile (!·.significant) =
      (ts.takeWhile (!·.significant)).map (Token.retext g) := by
  rw [List.takeWhile_map]
  rfl

omit hg in
theorem cutThrough_map {p : Token → Bool} (hp : ∀ t : Token, p (t.retext g) = p t)
    (ts : List Token) : cutThrough p (ts.map (Token.retext g)) =
      (cutThrough p ts).map (Prod.map (List.map (Token.retext g)) (List.map (Token.retext g))) := by
  induction ts with
  | nil => rfl
  | cons t rest ih =>
    simp only [List.map_cons, cutThrough, hp]
    split
    · rfl
    · rw [ih, Option.map_map, Option.map_map]
      rfl

theorem closeBraces_map (depth : Int) (ts : List Token) :
    closeBraces depth (ts.map (Token.retext g)) = (closeBraces depth ts).map
      (Prod.map (List.map (Token.retext g)) (List.map (Token.retext g))) := by
  induction ts generalizing depth with
  | nil => rfl
  | cons t rest ih =>
    simp only [List.map_cons, closeBraces, braceDelta_retext hg]
    split
    · rfl
    · rw [ih, Option.map_map, Option.map_map]
      rfl

omit hg in
theorem findDeclaration_map (ts : List Token) :
    findDeclaration (ts.map (Token.retext g)) = (findDeclaration ts).map
      (Prod.map (List.map (Token.retext g)) (Prod.map id (List.map (Token.retext g)))) := by
  induction ts with
  | nil => rfl
  | cons t rest ih =>
    simp only [List.map_cons, findDeclaration]
    rw [show (t.retext g).kind = t.kind from rfl, ih]
    split
    · split
      · rfl
      · simp [Option.map_map, Function.comp_def]
    · simp [Option.map_map, Function.comp_def]

theorem isSemicolon_retext (t : Token) : isSemicolon (t.retext g) = isSemicolon t :=
  isPunctuation_retext hg t [';']

theorem isOpeningBrace_retext (t : Token) : isOpeningBrace (t.retext g) = isOpeningBrace t :=
  isPunctuation_retext hg t ['{']

theorem declaredName_map {word : Keyword} {ts : List Token} {name : List Char}
    (h : declaredName word ts = .ok name) :
    declaredName word (ts.map (Token.retext g)) = .ok name := by
  unfold declaredName at h ⊢
  rw [skipInsignificant_map]
  split at h
  · cases h
  · rename_i t rest hts
    rw [hts]
    simp only [List.map_cons]
    split at h
    · rename_i hk
      rw [if_pos (show (t.retext g).kind = .identifier from hk), ← h]
      simp only [Token.retext]
      rw [hg.text t (by rw [hk]; rfl)]
    · cases h

omit hg in
theorem importedName_map (ts : List Token) :
    importedName (ts.map (Token.retext g)) = (importedName ts).map (Token.retext g) := by
  unfold importedName
  rw [skipInsignificant_map]
  cases skipInsignificant ts with
  | nil => rfl
  | cons t rest =>
    simp only [List.map_cons]
    rw [show ∀ word, (t.retext g).isKeyword word = t.isKeyword word from fun _ => rfl,
      show ∀ word, (t.retext g).isKeyword word = t.isKeyword word from fun _ => rfl]
    split
    · rw [skipInsignificant_map]
    · rfl

theorem importCut_map (ts : List Token) :
    importCut (ts.map (Token.retext g)) = (importCut ts).map
      (Prod.map (List.map (Token.retext g)) (List.map (Token.retext g))) := by
  cases ts with
  | nil => rfl
  | cons t rest =>
    have hcut := cutThrough_map (isSemicolon_retext hg) (t :: rest)
    rw [List.map_cons] at hcut
    simp only [List.map_cons, importCut, importedName_map, hcut]
    rw [show (t.retext g).isKeyword .useWord = t.isKeyword .useWord from rfl]
    split
    · cases importedName rest with
      | nil => rfl
      | cons s more =>
        simp only [List.map_cons]
        rw [show (s.retext g).kind = s.kind from rfl]
        split <;> rfl
    · rfl

theorem imports_map (ts : List Token) :
    imports (ts.map (Token.retext g)) =
      Prod.map (List.map (Token.retext g)) (List.map (Token.retext g)) (imports ts) := by
  fun_induction imports ts with
  | case1 ts h =>
    have hnone : importCut (skipInsignificant (ts.map (Token.retext g))) = none := by
      rw [skipInsignificant_map, importCut_map hg, h]
      rfl
    rw [imports]
    split
    · rfl
    · rename_i heq
      rw [hnone] at heq
      cases heq
  | case2 ts cut h _ more ih =>
    have hsome : importCut (skipInsignificant (ts.map (Token.retext g))) =
        some (cut.1.map (Token.retext g), cut.2.map (Token.retext g)) := by
      rw [skipInsignificant_map, importCut_map hg, h]
      rfl
    rw [imports]
    split
    · rename_i heq
      rw [hsome] at heq
      cases heq
    · rename_i heq
      rw [hsome] at heq
      cases heq
      rw [takeWhile_insignificant_map]
      simp only [ih]
      simp [more, Prod.map]

theorem nextPiece_map {first : Token} {rest : List Token} {piece : Piece}
    (h : nextPiece first rest = .ok piece) :
    nextPiece (first.retext g) (rest.map (Token.retext g)) =
      .ok ⟨piece.name, piece.tokens.map (Token.retext g), piece.rest.map (Token.retext g)⟩ := by
  obtain ⟨lead, word, after, name, head, body, hf, hname, hh, hb, rfl⟩ := nextPiece_eq_ok_iff.1 h
  have hfound := findDeclaration_map (g := g) (first :: rest)
  rw [hf, List.map_cons] at hfound
  have hdeclared := declaredName_map hg hname
  rw [List.map_tail] at hdeclared
  have hhead := cutThrough_map (isOpeningBrace_retext hg) after
  rw [hh] at hhead
  have hbody := closeBraces_map hg 1 head.2
  rw [hb] at hbody
  exact nextPiece_eq_ok_iff.2 ⟨_, _, _, _, _, _, hfound, hdeclared, hhead, hbody, by simp⟩

end Marks

/-! ### Pieces -/

/-- `ps` are the tokens of the declarations `ds` in `ts`. Each piece ends with a closing brace, and nothing
significant stands between two of them. -/
inductive Cuts : List Token → List Declaration → List (List Token) → Prop
  | nil {gap : List Token} : (∀ t ∈ gap, t.significant = false) → Cuts gap [] []
  | cons {gap piece rest : List Token} {d : Declaration} {ds : List Declaration}
      {ps : List (List Token)} : (∀ t ∈ gap, t.significant = false) → d.code = text piece →
      (∃ t, piece.getLast? = some t ∧ t.isPunctuation ['}'] = true) → Cuts rest ds ps →
      Cuts (gap ++ (piece ++ rest)) (d :: ds) (piece :: ps)

/-- The declaration with the code of these tokens. -/
def Declaration.recode (g : Token → List Char) (d : Declaration) (piece : List Token) : Declaration :=
  {d with code := piece.flatMap g}

theorem braceDelta_of_isMarkToken {t : Token} (h : isMarkToken t) :
    (t.isPunctuation ['}'] = true ∧ t.braceDelta = -1) ∨ 0 ≤ t.braceDelta := by
  by_cases hk : t.kind = .punctuation
  · have hdelta : t.braceDelta = t.text.count '{' - t.text.count '}' := by
      simp only [Token.braceDelta, hk]
    rw [hdelta]
    rcases h hk with ⟨c, hc⟩ | hc
    · by_cases hclose : c = '}'
      · left
        subst hclose
        simp [Token.isPunctuation, hk, hc]
      · right
        have hnone : [c].count '}' = 0 := by
          apply List.count_eq_zero_of_not_mem
          intro hmem
          exact hclose (List.mem_singleton.1 hmem).symm
        rw [hc, hnone]
        omega
    · right
      rw [hc]
      decide
  · right
    unfold Token.braceDelta
    split
    · exact absurd ‹_› hk
    · exact Int.le_refl 0

theorem getLast?_closeBraces {depth : Int} {ts : List Token} {cut : List Token × List Token}
    (hd : 1 ≤ depth) (hts : ∀ t ∈ ts, isMarkToken t) (h : closeBraces depth ts = some cut) :
    ∃ t, cut.1.getLast? = some t ∧ t.isPunctuation ['}'] = true := by
  induction ts generalizing depth cut with
  | nil => cases h
  | cons t rest ih =>
    have hdelta := braceDelta_of_isMarkToken (hts t List.mem_cons_self)
    simp only [closeBraces] at h
    split at h
    · rename_i hzero
      simp only [Option.some.injEq] at h
      subst h
      rcases hdelta with hclose | hdelta
      · exact ⟨t, rfl, hclose.1⟩
      · omega
    · rename_i hzero
      obtain ⟨cut, hcut, rfl⟩ := Option.map_eq_some_iff.1 h
      have hdepth : 1 ≤ depth + t.braceDelta := by omega
      obtain ⟨last, hlast, hclose⟩ :=
        ih hdepth (fun s hs => hts s (List.mem_cons_of_mem t hs)) hcut
      exact ⟨last, by simp [List.getLast?_cons, hlast], hclose⟩

theorem getLast?_nextPiece {first : Token} {rest : List Token} {piece : Piece}
    (hts : ∀ t ∈ first :: rest, isMarkToken t) (h : nextPiece first rest = .ok piece) :
    ∃ t, piece.tokens.getLast? = some t ∧ t.isPunctuation ['}'] = true := by
  obtain ⟨lead, word, after, name, head, body, hf, -, hh, hb, rfl⟩ := nextPiece_eq_ok_iff.1 h
  have hbody : ∀ t ∈ head.2, isMarkToken t := by
    intro t ht
    apply hts
    rw [← findDeclaration_append hf]
    show t ∈ lead ++ after
    rw [← cutThrough_append hh]
    exact List.mem_append_right _ (List.mem_append_right _ ht)
  obtain ⟨t, hlast, hclose⟩ := getLast?_closeBraces (Int.le_refl 1) hbody hb
  exact ⟨t, by simp [List.getLast?_append, hlast], hclose⟩

theorem declarations_retext {line : Nat} {ts : List Token} {ds : List Declaration}
    (hts : ∀ t ∈ ts, isMarkToken t) (h : declarations line ts = .ok ds) :
    ∃ ps, Cuts ts ds ps ∧ ∀ g, Keeps g →
      declarations line (ts.map (Token.retext g)) = .ok (List.zipWith (Declaration.recode g) ds ps) := by
  fun_induction declarations line ts generalizing ds with
  | case1 line ts hs =>
    cases h
    refine ⟨[], .nil fun t ht => ?_, fun g hg => ?_⟩
    · have := List.dropWhile_eq_nil_iff.1 hs t ht
      simpa using this
    · rw [declarations]
      split
      · rfl
      · rename_i heq
        rw [skipInsignificant_map, hs] at heq
        cases heq
  | case2 => simp at h
  | case3 => simp at h
  | case4 line ts first rest hs piece hpiece hlt start code more hmore =>
    rename_i ih
    simp only [Except.ok.injEq] at h
    subst h
    have hskip := takeWhile_append_skip ts
    have hpieces := nextPiece_append hpiece
    have hmem : ∀ t ∈ first :: rest, isMarkToken t := by
      intro t ht
      apply hts
      rw [← hskip, hs]
      exact List.mem_append_right _ ht
    obtain ⟨ps, hcuts, hmap⟩ := ih (fun t ht => hmem t (by
      rw [← hpieces.1]
      exact List.mem_append_right _ ht)) hmore
    refine ⟨piece.tokens :: ps, ?_, fun g hg => ?_⟩
    · have hall : ∀ t ∈ ts.takeWhile (!·.significant), t.significant = false := by
        intro t ht
        simpa using List.mem_takeWhile_imp ht
      rw [hs, ← hpieces.1] at hskip
      rw [← hskip]
      exact .cons (d := ⟨start, piece.name, code⟩) hall rfl (getLast?_nextPiece hmem hpiece) hcuts
    · have hpiece' := nextPiece_map hg hpiece
      have hgap : Text.newlines (text ((ts.takeWhile (!·.significant)).map (Token.retext g))) =
          Text.newlines (text (ts.takeWhile (!·.significant))) := by
        rw [text_retext, newlines_retext hg]
      have hlines : Text.newlines (text (piece.tokens.map (Token.retext g))) =
          Text.newlines code := by
        rw [text_retext, newlines_retext hg]
      rw [declarations]
      split
      · rename_i heq
        rw [skipInsignificant_map, hs] at heq
        cases heq
      · rename_i heq
        rw [skipInsignificant_map, hs, List.map_cons, List.cons.injEq] at heq
        obtain ⟨rfl, rfl⟩ := heq
        split
        · rename_i heq
          rw [hpiece'] at heq
          cases heq
        · rename_i heq
          rw [hpiece'] at heq
          cases heq
          simp only [takeWhile_insignificant_map, hgap, hlines]
          have hmap := hmap g hg
          simp only [start] at hmap
          rw [hmap]
          simp [Declaration.recode, text_retext, start]

/-! ### The header -/

theorem getLast?_cutThrough {p : Token → Bool} {ts : List Token} {cut : List Token × List Token}
    (h : cutThrough p ts = some cut) : ∃ t, cut.1.getLast? = some t ∧ p t = true := by
  induction ts generalizing cut with
  | nil => cases h
  | cons t rest ih =>
    simp only [cutThrough] at h
    split at h
    · rename_i hp
      simp only [Option.some.injEq] at h
      subst h
      exact ⟨t, rfl, hp⟩
    · obtain ⟨cut, hcut, rfl⟩ := Option.map_eq_some_iff.1 h
      obtain ⟨last, hlast, hp⟩ := ih hcut
      exact ⟨last, by simp [List.getLast?_cons, hlast], hp⟩

theorem getLast?_importCut {ts : List Token} {cut : List Token × List Token}
    (h : importCut ts = some cut) : ∃ t, cut.1.getLast? = some t ∧ isSemicolon t = true := by
  unfold importCut at h
  repeat' split at h
  all_goals first
    | exact getLast?_cutThrough h
    | cases h

theorem getLast?_imports (ts : List Token) :
    (imports ts).1 = [] ∨ ∃ t, (imports ts).1.getLast? = some t ∧ isSemicolon t = true := by
  fun_induction imports ts with
  | case1 => exact .inl rfl
  | case2 ts cut h _ more ih =>
    right
    rcases ih with hnil | ⟨t, ht, hsemi⟩
    · obtain ⟨t, ht, hsemi⟩ := getLast?_importCut h
      exact ⟨t, by simp [more, hnil, List.getLast?_append, ht], hsemi⟩
    · exact ⟨t, by simp [more, List.getLast?_append, ht], hsemi⟩

theorem namespaceName_retext {ts : List Token} {name : List Char} (h : namespaceName ts = .ok name) :
    ∃ t ∈ ts, (t.kind = .qualifiedName ∨ t.kind = .identifier) ∧ name = t.text ∧
      ∀ g, Keeps g → namespaceName (ts.map (Token.retext g)) = .ok (g t) := by
  unfold namespaceName at h
  split at h
  · cases h
  · rename_i t rest hs
    have hmem : t ∈ ts := (List.dropWhile_sublist _).subset (hs ▸ List.mem_cons_self)
    split at h
    · rename_i hk
      split at h
      · cases h
      · rename_i mark more hrest
        split at h
        · rename_i hsemi
          cases h
          refine ⟨t, hmem, hk, rfl, fun g hg => ?_⟩
          simp only [namespaceName, skipInsignificant_map, hs, List.map_cons, hrest]
          rw [if_pos (show (t.retext g).kind = .qualifiedName ∨ (t.retext g).kind = .identifier
            from hk), if_pos ((isSemicolon_retext hg mark).trans hsemi)]
          rfl
        · split at h <;> cases h
    · split at h <;> cases h

theorem locate_retext {ts : List Token} {found : Located} (h : locate ts = .ok found) :
    found.before ++ found.statement = ts ∧
      ∃ t ∈ ts, (t.kind = .qualifiedName ∨ t.kind = .identifier) ∧ found.space = t.text ∧
        ∀ g, Keeps g → locate (ts.map (Token.retext g)) =
          .ok ⟨found.before.map (Token.retext g), g t, found.statement.map (Token.retext g)⟩ := by
  induction ts generalizing found with
  | nil => cases h
  | cons t rest ih =>
    have hkeyword : ∀ g (s : Token), (s.retext g).isKeyword .namespaceWord =
        s.isKeyword .namespaceWord := fun _ _ => rfl
    have hany : ∀ g, (rest.map (Token.retext g)).any (·.isKeyword .namespaceWord) =
        rest.any (·.isKeyword .namespaceWord) := by
      intro g
      rw [List.any_map]
      rfl
    simp only [locate] at h
    split at h
    · rename_i hword
      split at h
      · cases h
      · rename_i name hname
        split at h
        · cases h
        · rename_i hone
          cases h
          obtain ⟨s, hs, hk, hspace, hmap⟩ := namespaceName_retext hname
          refine ⟨rfl, s, List.mem_cons_of_mem t hs, hk, hspace, fun g hg => ?_⟩
          simp only [List.map_cons, locate, hkeyword, hword, hany, hone, hmap g hg, if_true]
          rfl
    · rename_i hword
      split at h
      · cases h
      · rename_i inner hinner
        cases h
        obtain ⟨happend, s, hs, hk, hspace, hmap⟩ := ih hinner
        refine ⟨by simp [happend], s, List.mem_cons_of_mem t hs, hk, hspace, fun g hg => ?_⟩
        simp only [List.map_cons, locate, hkeyword, hword, hmap g hg]
        rfl

/-- **The split of tokens with other names is their split, with other names in every piece.** The header
ends with a semicolon, and `Cuts` says where the declarations lie. -/
theorem splitTokens_retext {path : Path} {ts : List Token} {f : File}
    (hts : ∀ t ∈ ts, isMarkToken t) (h : splitTokens path ts = .ok f) :
    ∃ header rest ps, ∃ name ∈ ts, f.path = path ∧ ts = header ++ rest ∧ f.header = text header ∧
      (∃ t, header.getLast? = some t ∧ isSemicolon t = true) ∧ Cuts rest f.declarations ps ∧
      (name.kind = .qualifiedName ∨ name.kind = .identifier) ∧ f.space = name.text ∧
      ∀ g, Keeps g → splitTokens path (ts.map (Token.retext g)) =
        .ok ⟨path, header.flatMap g, g name,
          List.zipWith (Declaration.recode g) f.declarations ps⟩ := by
  unfold splitTokens at h
  split at h
  · cases h
  · rename_i found hfound
    split at h
    · cases h
    · rename_i statement hstatement
      dsimp only at h
      split at h
      · cases h
      · rename_i ds hds
        cases h
        obtain ⟨happend, name, hname, hk, hspace, hlocate⟩ := locate_retext hfound
        have hcut := cutThrough_append hstatement
        have himports := imports_append statement.2
        have hrest : ∀ t ∈ (imports statement.2).2, isMarkToken t := by
          intro t ht
          apply hts
          rw [← happend, ← hcut, ← himports]
          simp [ht]
        obtain ⟨ps, hcuts, hmap⟩ := declarations_retext hrest hds
        refine ⟨found.before ++ statement.1 ++ (imports statement.2).1, (imports statement.2).2, ps,
          name, hname, rfl, ?_, rfl, ?_, hcuts, hk, hspace, fun g hg => ?_⟩
        · rw [← happend, ← hcut]
          conv => lhs; rw [← himports]
          simp
        · obtain ⟨t, ht, hsemi⟩ := getLast?_cutThrough hstatement
          rcases getLast?_imports statement.2 with hnil | ⟨s, hs, hsemi'⟩
          · exact ⟨t, by simp [hnil, List.getLast?_append, ht], hsemi⟩
          · exact ⟨s, by simp [List.getLast?_append, hs], hsemi'⟩
        · have hcut' := cutThrough_map (isSemicolon_retext hg) found.statement
          rw [hstatement] at hcut'
          have hheader : text (found.before.map (Token.retext g) ++ statement.1.map (Token.retext g) ++
              (imports statement.2).1.map (Token.retext g)) =
              (found.before ++ statement.1 ++ (imports statement.2).1).flatMap g := by
            rw [← List.map_append, ← List.map_append, text_retext]
          have hlines := newlines_retext hg (found.before ++ statement.1 ++ (imports statement.2).1)
          simp only [splitTokens, hlocate g hg, hcut', Option.map_some, Prod.map, imports_map hg,
            hheader, hlines, hmap g hg]

end PluginShading.Source
