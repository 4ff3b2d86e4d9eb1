import Mathlib.Data.List.Basic
import PluginShading.Proofs.Source.Division
import PluginShading.Proofs.Source.Layout

/-!
Which imports a declaration is written out with.

`imports_in_force` is the main statement. A declaration has the imports of the contiguous run behind the
namespace statement, which are the header's, and those between the declaration before and its own keyword,
which are its own. An import further down belongs to the one declaration that follows it
(`late_import_lost`).
-/
namespace PluginShading.Source

/-! ### Import statements -/

/-- A name that an import may give. -/
def Token.names (t : Token) : Prop :=
  t.kind = .qualifiedName ∨ t.kind = .fullyQualifiedName ∨ t.kind = .identifier

/-- What stands between `use` and the name: nothing significant, or the word for functions or constants. -/
inductive ImportLead : List Token → Prop
  | plain {gap : List Token} : (∀ t ∈ gap, t.significant = false) → ImportLead gap
  | word {gap more : List Token} {t : Token} : (∀ t ∈ gap, t.significant = false) →
      (t.isKeyword .functionWord || t.isKeyword .constWord) = true →
      (∀ t ∈ more, t.significant = false) → ImportLead (gap ++ t :: more)

/-- An import statement: `use`, perhaps `function` or `const`, a name, and what follows through the first
semicolon. -/
inductive IsImport : List Token → Prop
  | mk {use name mark : Token} {lead more : List Token} : use.isKeyword .useWord = true →
      ImportLead lead → name.names → (∀ t ∈ more, isSemicolon t = false) → isSemicolon mark = true →
      IsImport (use :: (lead ++ name :: (more ++ [mark])))

theorem not_isSemicolon_of_kind {t : Token} (h : t.kind ≠ .punctuation) : isSemicolon t = false := by
  simp [isSemicolon, Token.isPunctuation, h]

theorem kind_of_isKeyword {t : Token} {word : Keyword} (h : t.isKeyword word = true) :
    t.kind = .keyword word := by
  simpa [Token.isKeyword] using h

theorem not_isSemicolon_of_insignificant {t : Token} (h : t.significant = false) :
    isSemicolon t = false := by
  refine not_isSemicolon_of_kind fun hk => ?_
  simp [Token.significant, hk] at h

theorem significant_of_isKeyword {t : Token} {word : Keyword} (h : t.isKeyword word = true) :
    t.significant = true := by
  simp [Token.significant, kind_of_isKeyword h]

theorem not_isSemicolon_of_isKeyword {t : Token} {word : Keyword} (h : t.isKeyword word = true) :
    isSemicolon t = false :=
  not_isSemicolon_of_kind (by simp [kind_of_isKeyword h])

theorem Token.names.not_isSemicolon {t : Token} (h : t.names) : isSemicolon t = false := by
  refine not_isSemicolon_of_kind fun hk => ?_
  simp [Token.names, hk] at h

theorem Token.names.significant {t : Token} (h : t.names) : t.significant = true := by
  rcases h with hk | hk | hk <;> simp [Token.significant, hk]

theorem skipInsignificant_append {gap : List Token} (h : ∀ t ∈ gap, t.significant = false)
    {t : Token} (ht : t.significant = true) (rest : List Token) :
    skipInsignificant (gap ++ t :: rest) = t :: rest := by
  rw [skipInsignificant, List.dropWhile_append_of_pos (by simpa using h), List.dropWhile_cons,
    if_neg (by simp [ht])]

theorem ImportLead.not_isSemicolon {lead : List Token} (h : ImportLead lead) :
    ∀ t ∈ lead, isSemicolon t = false := by
  intro t ht
  cases h with
  | plain hgap => exact not_isSemicolon_of_insignificant (hgap t ht)
  | @word gap more word hgap hword hmore =>
    rcases List.mem_append.1 ht with ht | ht
    · exact not_isSemicolon_of_insignificant (hgap t ht)
    · rcases List.mem_cons.1 ht with rfl | ht
      · rcases Bool.or_eq_true_iff.1 hword with hword | hword <;>
          exact not_isSemicolon_of_isKeyword hword
      · exact not_isSemicolon_of_insignificant (hmore t ht)

theorem ImportLead.importedName {lead : List Token} (h : ImportLead lead) {name : Token}
    (hname : name.names) (rest : List Token) :
    Source.importedName (lead ++ name :: rest) = name :: rest := by
  cases h with
  | plain hgap =>
    have hkeyword : (name.isKeyword .functionWord || name.isKeyword .constWord) = false := by
      rcases hname with hk | hk | hk <;> simp [Token.isKeyword, hk]
    simp only [Source.importedName, skipInsignificant_append hgap hname.significant, hkeyword]
    rfl
  | @word gap more word hgap hword hmore =>
    have hsignificant : word.significant = true := by
      rcases Bool.or_eq_true_iff.1 hword with hword | hword <;> exact significant_of_isKeyword hword
    rw [List.append_assoc, List.cons_append]
    simp only [Source.importedName, skipInsignificant_append hgap hsignificant, hword, if_true,
      skipInsignificant_append hmore hname.significant]

namespace IsImport

variable {stmt : List Token}

/-- An import ends with its first semicolon. -/
theorem exists_semicolon (h : IsImport stmt) : ∃ front mark, stmt = front ++ [mark] ∧
    (∀ t ∈ front, isSemicolon t = false) ∧ isSemicolon mark = true := by
  cases h with
  | @mk use name mark lead more huse hlead hname hmore hmark =>
    refine ⟨use :: (lead ++ name :: more), mark, by simp, fun t ht => ?_, hmark⟩
    simp only [List.mem_cons, List.mem_append] at ht
    rcases ht with rfl | ht | rfl | ht
    · exact not_isSemicolon_of_isKeyword huse
    · exact hlead.not_isSemicolon t ht
    · exact hname.not_isSemicolon
    · exact hmore t ht

theorem exists_head (h : IsImport stmt) : ∃ t rest, stmt = t :: rest ∧ t.significant = true := by
  cases h with
  | mk huse => exact ⟨_, _, rfl, significant_of_isKeyword huse⟩

end IsImport

theorem cutThrough_append_cons {p : Token → Bool} {front : List Token} {mark : Token}
    (hfront : ∀ t ∈ front, p t = false) (hmark : p mark = true) (rest : List Token) :
    cutThrough p (front ++ [mark] ++ rest) = some (front ++ [mark], rest) := by
  induction front with
  | nil => simp [cutThrough, hmark]
  | cons t more ih =>
    have hmore := ih fun s hs => hfront s (List.mem_cons_of_mem t hs)
    simp only [List.cons_append, cutThrough, hfront t List.mem_cons_self, hmore]
    rfl

theorem IsImport.importCut {stmt : List Token} (h : IsImport stmt) (rest : List Token) :
    importCut (stmt ++ rest) = some (stmt, rest) := by
  obtain ⟨front, mark, rfl, hfront, hmark⟩ := h.exists_semicolon
  rw [← cutThrough_append_cons hfront hmark rest]
  generalize front ++ [mark] = stmt at h
  cases h with
  | @mk use name mark lead more huse hlead hname =>
    have himported := hlead.importedName hname (more ++ [mark] ++ rest)
    simp only [List.cons_append, List.append_assoc] at himported ⊢
    simp only [Source.importCut, huse, himported, if_true]
    exact if_pos hname

theorem cutThrough_eq_some {p : Token → Bool} {ts : List Token} {cut : List Token × List Token}
    (h : cutThrough p ts = some cut) :
    ∃ front mark, cut.1 = front ++ [mark] ∧ (∀ t ∈ front, p t = false) ∧ p mark = true := by
  induction ts generalizing cut with
  | nil => cases h
  | cons t rest ih =>
    simp only [cutThrough] at h
    split at h
    · rename_i hmark
      cases h
      exact ⟨[], t, rfl, by simp, hmark⟩
    · rename_i hmark
      obtain ⟨inner, hinner, rfl⟩ := Option.map_eq_some_iff.1 h
      obtain ⟨front, mark, hcut, hfront, hp⟩ := ih hinner
      refine ⟨t :: front, mark, by simp [hcut], fun s hs => ?_, hp⟩
      rcases List.mem_cons.1 hs with rfl | hs
      · simpa using hmark
      · exact hfront s hs

/-- An import that begins in front of a semicolon ends there at the latest. -/
theorem IsImport.prefix_of_semicolon {stmt front rest more : List Token} {mark : Token}
    (h : IsImport stmt) (hmark : isSemicolon mark = true)
    (happend : stmt ++ rest = front ++ [mark] ++ more) : stmt <+: front ++ [mark] := by
  obtain ⟨start, last, rfl, hstart, -⟩ := h.exists_semicolon
  rcases List.prefix_or_prefix_of_prefix (List.prefix_append (start ++ [last]) rest)
    (happend ▸ List.prefix_append (front ++ [mark]) more) with hin | hin
  · exact hin
  · rcases List.prefix_concat_iff.1 hin with heq | hstill
    · exact heq ▸ List.prefix_rfl
    · have hmem : mark ∈ start := hstill.subset (by simp)
      rw [hstart mark hmem] at hmark
      cases hmark

/-! ### The contiguous run -/

/-- Imports with nothing but white space and plain comments in front of each. -/
inductive Contiguous : List Token → Prop
  | nil : Contiguous []
  | cons {gap stmt rest : List Token} : (∀ t ∈ gap, t.significant = false) → IsImport stmt →
      Contiguous rest → Contiguous (gap ++ (stmt ++ rest))

theorem Contiguous.imports {run : List Token} (h : Contiguous run) (rest : List Token) :
    (imports (run ++ rest)).1 = run ++ (imports rest).1 := by
  induction h with
  | nil => rfl
  | @cons gap stmt run hgap hstmt _ ih =>
    obtain ⟨t, more, ht, hsignificant⟩ := hstmt.exists_head
    have htext : gap ++ (stmt ++ run) ++ rest = gap ++ t :: (more ++ (run ++ rest)) := by simp [ht]
    have hskip : skipInsignificant (gap ++ (stmt ++ run) ++ rest) = stmt ++ (run ++ rest) := by
      rw [htext, skipInsignificant_append hgap hsignificant, ht]
      rfl
    have hgap' : (gap ++ (stmt ++ run) ++ rest).takeWhile (!·.significant) = gap := by
      rw [htext, List.takeWhile_append_of_pos (by simpa using hgap), List.takeWhile_cons,
        if_neg (by simp [hsignificant]), List.append_nil]
    have hcut := hstmt.importCut (run ++ rest)
    rw [Source.imports]
    split
    · rename_i heq
      rw [hskip, hcut] at heq
      cases heq
    · rename_i cut heq
      rw [hskip, hcut] at heq
      cases heq
      rw [hgap']
      simp [ih]

/-- A namespace statement through its semicolon, with all that stands before it. -/
inductive EndsNamespace : List Token → Prop
  | mk {before name : List Token} {word mark : Token} : word.isKeyword .namespaceWord = true →
      (∀ t ∈ name, isSemicolon t = false) → isSemicolon mark = true →
      EndsNamespace (before ++ word :: (name ++ [mark]))

theorem locate_alone {ts : List Token} {found : Located} (h : locate ts = .ok found) :
    (∀ t ∈ found.before, t.isKeyword .namespaceWord = false) ∧ ∃ word rest,
      found.statement = word :: rest ∧ ∀ t ∈ rest, t.isKeyword .namespaceWord = false := by
  induction ts generalizing found with
  | nil => cases h
  | cons t rest ih =>
    simp only [locate] at h
    split at h
    · split at h
      · cases h
      · split at h
        · cases h
        · rename_i hone
          cases h
          exact ⟨by simp, t, rest, rfl, by simpa using hone⟩
    · rename_i hword
      split at h
      · cases h
      · rename_i inner hinner
        cases h
        obtain ⟨hbefore, hstatement⟩ := ih hinner
        refine ⟨fun s hs => ?_, hstatement⟩
        rcases List.mem_cons.1 hs with rfl | hs
        · simpa using hword
        · exact hbefore s hs

namespace Parts

variable {source : List Char} {f : File} {found : Located} {statement : List Token × List Token}
  {l : Layout}

/-- The namespace statement that splitting finds is the one that stands in the source. -/
theorem eq_opening (h : Parts source f found statement l) {opening rest : List Token}
    (hopening : EndsNamespace opening) (happend : l.tokens = opening ++ rest) :
    found.before ++ statement.1 = opening ∧ statement.2 = rest := by
  cases hopening with
  | @mk before name word mark hword hname hmark =>
    obtain ⟨hbefore, first, more, hfirst, hmore⟩ := locate_alone h.located
    have hnone : ∀ ts : List Token, (∀ t ∈ ts, t.isKeyword .namespaceWord = false) → word ∉ ts := by
      intro ts hts hmem
      rw [hts word hmem] at hword
      cases hword
    have hlocated := locate_append h.located
    rw [happend, hfirst, List.append_assoc, List.cons_append] at hlocated
    obtain ⟨rfl, rfl, hmore⟩ :=
      (List.append_cons_inj_of_notMem (hnone _ hbefore) (hnone _ hmore)).1 hlocated
    have hcut := h.cut
    rw [hfirst, hmore, ← List.cons_append, ← List.cons_append, cutThrough_append_cons] at hcut
    · cases hcut
      exact ⟨rfl, rfl⟩
    · intro t ht
      rcases List.mem_cons.1 ht with rfl | ht
      · exact not_isSemicolon_of_isKeyword hword
      · exact hname t ht
    · exact hmark

/-- The header ends with a semicolon. -/
theorem exists_header_mark (h : Parts source f found statement l) :
    ∃ front mark, l.header = front ++ [mark] ∧ isSemicolon mark = true := by
  have hlast : ∃ t, l.header.getLast? = some t ∧ isSemicolon t = true := by
    rw [h.header]
    obtain ⟨t, ht, hmark⟩ := getLast?_cutThrough h.cut
    rcases getLast?_imports statement.2 with hnil | ⟨s, hs, hmark'⟩
    · exact ⟨t, by simp [hnil, List.getLast?_append, ht], hmark⟩
    · exact ⟨s, by simp [List.getLast?_append, hs], hmark'⟩
  obtain ⟨mark, hmark, hsemicolon⟩ := hlast
  obtain ⟨front, hfront⟩ := List.getLast?_eq_some_iff.1 hmark
  exact ⟨front, mark, hfront, hsemicolon⟩

/-- The run behind the namespace statement is the header's. -/
theorem header_of_contiguous (h : Parts source f found statement l) {opening run rest : List Token}
    (hopening : EndsNamespace opening) (hrun : Contiguous run)
    (happend : l.tokens = opening ++ (run ++ rest)) :
    l.header = opening ++ (run ++ (imports rest).1) := by
  obtain ⟨hfront, hback⟩ := h.eq_opening hopening happend
  rw [h.header, hfront, hback, hrun.imports]

end Parts

/-! ### Imports of one declaration -/

/-- In front of a declaration's own gap stands the header or the declaration before. -/
theorem leading_cases {cuts : List Cut} {i : Nat} {c : Cut} (hc : cuts[i]? = some c) :
    (i = 0 ∧ leading cuts i = c.gap) ∨ ∃ j c', i = j + 1 ∧ cuts[j]? = some c' ∧
      leading cuts i = leading cuts j ++ (c'.piece ++ c.gap) := by
  induction cuts generalizing i with
  | nil => simp at hc
  | cons e more ih =>
    cases i with
    | zero =>
      obtain rfl : e = c := by simpa using hc
      exact .inl ⟨rfl, rfl⟩
    | succ i =>
      right
      rcases ih (by simpa using hc) with ⟨rfl, hgap⟩ | ⟨j, c', rfl, hc', happend⟩
      · exact ⟨0, e, rfl, rfl, by simp [leading, hgap, Cut.tokens]⟩
      · exact ⟨j + 1, c', rfl, by simpa using hc', by simp [leading, happend]⟩

/-- What stands between two declarations begins with nothing that could begin an import. -/
theorem IsImport.in_lead {c : Cut} (hc : c.Sound) {stmt front rest : List Token} (h : IsImport stmt)
    (happend : c.gap ++ c.lead = front ++ (stmt ++ rest)) : ∃ more, c.lead = more ++ (stmt ++ rest) := by
  rcases List.append_eq_append_iff.1 happend with ⟨more, -, hlead⟩ | ⟨mid, hgap, hstmt⟩
  · exact ⟨more, hlead⟩
  · cases mid with
    | nil => exact ⟨[], hstmt.symm⟩
    | cons s mid =>
      obtain ⟨t, more, ht, hsignificant⟩ := h.exists_head
      rw [ht, List.cons_append, List.cons_append, List.cons.injEq] at hstmt
      have hs : s.significant = false := hc.gap s (by simp [hgap])
      rw [← hstmt.1, hsignificant] at hs
      cases hs

/-- Text of the header stands in front of every declaration that is written out. -/
theorem exists_render_of_header {f : File} {d : Declaration} {c : Cut} {front stmt rest : List Token}
    (hcode : d.code = text c.piece) (hheader : f.header = text (front ++ (stmt ++ rest))) :
    ∃ x y, f.render d = x ++ (text stmt ++ (y ++ text c.body)) := by
  refine ⟨text front, text rest ++ List.replicate ((f.padding d).getD 0) '\n' ++ text c.lead, ?_⟩
  rw [File.render, hcode, hheader, ← c.lead_append_body]
  simp

/-- What a declaration has in front of its keyword is written out there. -/
theorem exists_render_of_lead {f : File} {d : Declaration} {c : Cut} {front stmt rest : List Token}
    (hcode : d.code = text c.piece) (hlead : c.lead = front ++ (stmt ++ rest)) :
    ∃ x y, f.render d = x ++ (text stmt ++ (y ++ text c.body)) := by
  refine ⟨f.header ++ List.replicate ((f.padding d).getD 0) '\n' ++ text front, text rest, ?_⟩
  rw [File.render, hcode, ← c.lead_append_body, hlead]
  simp

theorem Layout.Fits.code_eq {l : Layout} {source : List Char} {f : File} (h : l.Fits source f) {i : Nat}
    {d : Declaration} {c : Cut} (hd : f.declarations[i]? = some d) (hc : l.cuts[i]? = some c) :
    d.code = Source.text c.piece := by
  have hcodes := congrArg (·[i]?) h.codes
  simpa [hd, hc] using hcodes

/-- An import that begins in the header ends there. -/
theorem Parts.import_in_header {source : List Char} {f : File} {found : Located}
    {statement : List Token × List Token} {l : Layout} (h : Parts source f found statement l)
    {front mid stmt rest more : List Token} (hstmt : IsImport stmt) (hheader : l.header = front ++ mid)
    (hmid : mid ≠ []) (happend : stmt ++ rest = mid ++ more) :
    ∃ after, l.header = front ++ (stmt ++ after) := by
  obtain ⟨start, mark, hmark, hsemicolon⟩ := h.exists_header_mark
  rcases List.eq_nil_or_concat mid with hnil | ⟨init, last, rfl⟩
  · exact absurd hnil hmid
  · rw [List.concat_eq_append] at hheader happend
    have hlast : last = mark := by
      rw [hmark, ← List.append_assoc] at hheader
      exact (List.singleton_inj.1 (List.append_inj' hheader rfl).2).symm
    obtain ⟨after, hafter⟩ := hstmt.prefix_of_semicolon (hlast ▸ hsemicolon) happend
    exact ⟨after, by rw [hheader, hafter]⟩

/-! ### A file with an early and a late import -/

def importOf (name : String) : List Token :=
  [⟨.keyword .useWord, "use".toList⟩, ⟨.whitespace, [' ']⟩, ⟨.qualifiedName, name.toList⟩,
    ⟨.punctuation, [';']⟩]

def classOf (name : Char) : List Token :=
  [⟨.keyword .classWord, "class".toList⟩, ⟨.whitespace, [' ']⟩, ⟨.identifier, [name]⟩,
    ⟨.punctuation, ['{']⟩, ⟨.punctuation, ['}']⟩]

theorem isImport_importOf (name : String) : IsImport (importOf name) := by
  show IsImport (⟨.keyword .useWord, "use".toList⟩ :: ([⟨.whitespace, [' ']⟩] ++
    ⟨.qualifiedName, name.toList⟩ :: ([] ++ [⟨.punctuation, [';']⟩])))
  exact .mk rfl (.plain (by simp [Token.significant])) (.inl rfl) (by simp) rfl

namespace Sample

/-- The first import is the header's, the second stands behind the first class. -/
def source : List Char :=
  "<?php namespace A;use B\\C;class D\x7b\x7duse E\\F;class G\x7b\x7dclass H\x7b\x7d".toList

def file : File where
  path := ⟨"a.php"⟩
  header := "<?php namespace A;use B\\C;".toList
  space := ['A']
  declarations := [⟨0, ['D'], text (classOf 'D')⟩, ⟨0, ['G'], text (importOf "E\\F" ++ classOf 'G')⟩,
    ⟨0, ['H'], text (classOf 'H')⟩]

def opening : List Token :=
  [⟨.openTag, "<?php ".toList⟩, ⟨.keyword .namespaceWord, "namespace".toList⟩, ⟨.whitespace, [' ']⟩,
    ⟨.identifier, ['A']⟩, ⟨.punctuation, [';']⟩]

def layout : Layout where
  header := opening ++ importOf "B\\C"
  cuts := [⟨[], classOf 'D'⟩, ⟨[], importOf "E\\F" ++ classOf 'G'⟩, ⟨[], classOf 'H'⟩]
  tail := []

theorem split_source : split ⟨"a.php"⟩ source = .ok file := by decide +kernel

theorem fits_layout : layout.Fits source file := by decide +kernel

theorem endsNamespace_opening : EndsNamespace opening := by
  show EndsNamespace ([⟨.openTag, "<?php ".toList⟩] ++ ⟨.keyword .namespaceWord, "namespace".toList⟩ ::
    ([⟨.whitespace, [' ']⟩, ⟨.identifier, ['A']⟩] ++ [⟨.punctuation, [';']⟩]))
  exact .mk rfl (by decide) rfl

end Sample

/-! ### Imports in force -/

/-- **A declaration is written out with the imports in force for it.** An import in front of its keyword
is, if only imports stand between the namespace statement and the import, or if every declaration before
ends in front of the import. -/
theorem imports_in_force {path : Path} {source : List Char} {f : File} {l : Layout}
    (h : split path source = .ok f) (hl : l.Fits source f) {i : Nat} {d : Declaration} {c : Cut}
    (hd : f.declarations[i]? = some d) (hc : l.cuts[i]? = some c)
    {opening between stmt rest : List Token} (hopening : EndsNamespace opening) (hstmt : IsImport stmt)
    (hat : l.before i ++ c.lead = opening ++ between ++ (stmt ++ rest))
    (hforce : Contiguous (between ++ stmt) ∨ ∀ j < i, ∀ c', l.cuts[j]? = some c' →
      l.before j ++ c'.piece <+: opening ++ between) :
    ∃ x y, f.render d = x ++ (text stmt ++ (y ++ text c.body)) := by
  obtain ⟨found, statement, l', hparts⟩ := exists_parts h
  obtain rfl := hl.unique hparts.fits
  have hcode := hl.code_eq hd hc
  have hsound := hl.cuts c (List.mem_of_getElem? hc)
  rcases hforce with hrun | hnext
  · obtain ⟨after, hafter⟩ := exists_eq_leading_append hc
    have htokens : l.tokens = opening ++ (between ++ stmt ++ (rest ++ (c.body ++ (after ++ l.tail)))) := by
      calc l.tokens = l.before i ++ c.lead ++ (c.body ++ (after ++ l.tail)) := by
            simp [Layout.tokens, Layout.before, hafter, ← c.lead_append_body]
        _ = _ := by rw [hat]; simp
    have hheader := hparts.header_of_contiguous hopening hrun htokens
    rw [List.append_assoc, ← List.append_assoc] at hheader
    exact exists_render_of_header hcode (by rw [hl.header, hheader])
  · rcases leading_cases hc with ⟨rfl, hgap⟩ | ⟨j, c', rfl, hc', happend⟩
    · rw [Layout.before, hgap, List.append_assoc] at hat
      rcases List.append_eq_append_iff.1 hat with ⟨mid, -, hlead⟩ | ⟨mid, hheader, hmid⟩
      · obtain ⟨more, hmore⟩ := hstmt.in_lead hsound hlead
        exact exists_render_of_lead hcode hmore
      · by_cases hnil : mid = []
        · rw [hnil, List.nil_append] at hmid
          obtain ⟨more, hmore⟩ := hstmt.in_lead hsound (show c.gap ++ c.lead = [] ++ _ from hmid.symm)
          exact exists_render_of_lead hcode hmore
        · obtain ⟨after, hafter⟩ := hparts.import_in_header hstmt hheader hnil hmid
          exact exists_render_of_header hcode (by rw [hl.header, hafter])
    · obtain ⟨mid, hmid⟩ := hnext j (Nat.lt_succ_self j) c' hc'
      have hlead : c.gap ++ c.lead = mid ++ (stmt ++ rest) := by
        rw [← hmid, Layout.before, happend] at hat
        simpa [Layout.before] using hat
      obtain ⟨more, hmore⟩ := hstmt.in_lead hsound hlead
      exact exists_render_of_lead hcode hmore

/-- The statement holds of the second class of the sample, for the import of the header and its own. -/
theorem exists_imports_in_force : ∃ d c, Sample.file.declarations[1]? = some d ∧
    Sample.layout.cuts[1]? = some c ∧ IsImport (importOf "B\\C") ∧ IsImport (importOf "E\\F") ∧
      (∃ x y, Sample.file.render d = x ++ (text (importOf "B\\C") ++ (y ++ text c.body))) ∧
        ∃ x y, Sample.file.render d = x ++ (text (importOf "E\\F") ++ (y ++ text c.body)) := by
  let c : Cut := ⟨[], importOf "E\\F" ++ classOf 'G'⟩
  have hfirst := isImport_importOf "B\\C"
  have hsecond := isImport_importOf "E\\F"
  have hrun : Contiguous ([] ++ importOf "B\\C") := by
    have hrun := Contiguous.cons (show ∀ t ∈ ([] : List Token), t.significant = false by simp) hfirst .nil
    rwa [List.append_nil] at hrun
  have hat : Sample.layout.before 1 ++ c.lead =
      Sample.opening ++ [] ++ (importOf "B\\C" ++ (classOf 'D' ++ importOf "E\\F")) := by decide
  have hat' : Sample.layout.before 1 ++ c.lead =
      Sample.opening ++ (importOf "B\\C" ++ classOf 'D') ++ (importOf "E\\F" ++ []) := by decide
  have hnext : ∀ j < 1, ∀ c', Sample.layout.cuts[j]? = some c' →
      Sample.layout.before j ++ c'.piece <+: Sample.opening ++ (importOf "B\\C" ++ classOf 'D') := by
    intro j hj c' hc'
    obtain rfl : j = 0 := Nat.lt_one_iff.1 hj
    obtain rfl := Option.some.inj hc'
    exact ⟨[], by decide⟩
  refine ⟨_, c, rfl, rfl, hfirst, hsecond, ?_, ?_⟩
  · exact imports_in_force Sample.split_source Sample.fits_layout rfl rfl Sample.endsNamespace_opening
      hfirst hat (.inl hrun)
  · exact imports_in_force Sample.split_source Sample.fits_layout rfl rfl Sample.endsNamespace_opening
      hsecond hat' (.inr hnext)

/-- Braces opened less braces closed. -/
def depth (ts : List Token) : Int := ts.foldl (fun n t => n + t.braceDelta) 0

/-- An import behind the first class, outside of all braces, stands in front of the third class and is
not written out with it. -/
theorem late_import_lost : ∃ d c between rest, split ⟨"a.php"⟩ Sample.source = .ok Sample.file ∧
    Sample.layout.Fits Sample.source Sample.file ∧ Sample.file.declarations[2]? = some d ∧
      Sample.layout.cuts[2]? = some c ∧ EndsNamespace Sample.opening ∧ IsImport (importOf "E\\F") ∧
        Sample.layout.before 2 ++ c.lead =
          Sample.opening ++ between ++ (importOf "E\\F" ++ rest) ∧
        depth (Sample.opening ++ between) = 0 ∧
          ¬ ∃ x y, Sample.file.render d = x ++ (text (importOf "E\\F") ++ (y ++ text c.body)) := by
  refine ⟨_, _, importOf "B\\C" ++ classOf 'D', classOf 'G', Sample.split_source, Sample.fits_layout,
    rfl, rfl, Sample.endsNamespace_opening, isImport_importOf _, by decide, by decide, ?_⟩
  rintro ⟨x, y, h⟩
  have hinfix : text (importOf "E\\F") <:+: Sample.file.render ⟨0, ['H'], text (classOf 'H')⟩ :=
    ⟨x, _, by rw [List.append_assoc]; exact h.symm⟩
  exact absurd hinfix (by decide +kernel)

end PluginShading.Source
