import Mathlib.Data.List.Forall2
import PluginShading.Proofs.Source.Machine
import PluginShading.Source.Split

/-!
How a source lies in the file that it is split into.

`split_lossless` is the main statement: the header and the declarations are stretches of the source, one
behind the other, with nothing but white space and plain comments between them and behind the last, and
the line of a declaration counts the line feeds in front of it. There is only one such layout
(`Layout.Fits.unique`).
-/
namespace PluginShading.Source

/-! ### Tokens and their text -/

theorem text_of_tokenize {source : List Char} {ts : List Token} (h : tokenize source = .ok ts) :
    text ts = source := by
  obtain ⟨m, hm, hrest, -⟩ := tokenize_eq_ok_iff.1 h
  have htext := hm.text
  rwa [hrest, List.append_nil] at htext

theorem ne_nil_of_tokenize {source : List Char} {ts : List Token} (h : tokenize source = .ok ts) :
    ∀ t ∈ ts, t.text ≠ [] := by
  obtain ⟨m, hm, -⟩ := tokenize_eq_ok_iff.1 h
  exact hm.forall_tokens fun _ _ _ hn => (Machine.next_reads hn).ne_nil

/-- Tokens are cut in one way only where the text is cut. -/
theorem eq_of_text_eq {a b c d : List Token} (hne : ∀ t ∈ a ++ b, t.text ≠ [])
    (happend : a ++ b = c ++ d) (htext : text a = text c) : a = c ∧ b = d := by
  induction a generalizing c with
  | nil =>
    cases c with
    | nil => exact ⟨rfl, happend⟩
    | cons t rest =>
      have ht : t ∈ [] ++ b := by
        rw [happend]
        exact List.mem_cons_self
      rw [text_nil, text_cons, eq_comm, List.append_eq_nil_iff] at htext
      exact absurd htext.1 (hne t ht)
  | cons s more ih =>
    have hs : s.text ≠ [] := hne s List.mem_cons_self
    cases c with
    | nil =>
      rw [text_nil, text_cons, List.append_eq_nil_iff] at htext
      exact absurd htext.1 hs
    | cons t rest =>
      obtain ⟨rfl, hmore⟩ := List.cons_eq_cons.1 happend
      obtain ⟨rfl, rfl⟩ := ih (fun t ht => hne t (List.mem_cons_of_mem s ht)) hmore
        (List.append_cancel_left htext)
      exact ⟨rfl, rfl⟩

/-- Before something significant, what is not significant ends in one place only. -/
theorem eq_of_insignificant {a b c d : List Token} (happend : a ++ b = c ++ d)
    (ha : ∀ t ∈ a, t.significant = false) (hc : ∀ t ∈ c, t.significant = false)
    (hb : ∀ t ∈ b.head?, t.significant = true) (hd : ∀ t ∈ d.head?, t.significant = true) :
    a = c ∧ b = d := by
  have hskip : ∀ {gap more : List Token}, (∀ t ∈ gap, t.significant = false) →
      (∀ t ∈ more.head?, t.significant = true) → skipInsignificant (gap ++ more) = more := by
    intro gap more hgap hmore
    rw [skipInsignificant, List.dropWhile_append_of_pos (by simpa using hgap)]
    cases more with
    | nil => rfl
    | cons t rest => simp [hmore t rfl]
  have hbd : b = d := by rw [← hskip ha hb, happend, hskip hc hd]
  exact ⟨List.append_cancel_right (hbd ▸ happend), hbd⟩

/-! ### Layouts -/

/-- The token is a keyword that opens a declaration. -/
def Token.declares (t : Token) : Bool :=
  match t.kind with
  | .keyword word => word.declares
  | _ => false

/-- The tokens of a declaration, with what stands between them and the declaration before. -/
structure Cut where
  gap : List Token
  piece : List Token
  deriving DecidableEq, Repr

namespace Cut

def tokens (c : Cut) : List Token := c.gap ++ c.piece

/-- What a declaration has in front of its keyword. -/
def lead (c : Cut) : List Token := c.piece.takeWhile (!·.declares)

/-- A declaration from its keyword on. -/
def body (c : Cut) : List Token := c.piece.dropWhile (!·.declares)

theorem lead_append_body (c : Cut) : c.lead ++ c.body = c.piece := List.takeWhile_append_dropWhile

/-- A declaration begins with its first significant token and has a keyword. -/
structure Sound (c : Cut) : Prop where
  gap : ∀ t ∈ c.gap, t.significant = false
  head : c.piece.head?.any Token.significant = true
  body : c.body ≠ []

instance (c : Cut) : Decidable c.Sound :=
  decidable_of_iff ((∀ t ∈ c.gap, t.significant = false) ∧
    c.piece.head?.any Token.significant = true ∧ c.body ≠ [])
    ⟨fun h => ⟨h.1, h.2.1, h.2.2⟩, fun h => ⟨h.gap, h.head, h.body⟩⟩

theorem Sound.head_append {c : Cut} (h : c.Sound) (after : List Token) :
    ∀ t ∈ (c.piece ++ after).head?, t.significant = true := by
  have hhead := h.head
  cases hpiece : c.piece with
  | nil => simp [hpiece] at hhead
  | cons t rest => simpa [hpiece] using hhead

end Cut

/-- What stands before the `i`th piece. -/
def leading : List Cut → Nat → List Token
  | [], _ => []
  | c :: _, 0 => c.gap
  | c :: rest, i + 1 => c.tokens ++ leading rest i

theorem exists_eq_leading_append {cuts : List Cut} {i : Nat} {c : Cut} (h : cuts[i]? = some c) :
    ∃ after, cuts.flatMap Cut.tokens = leading cuts i ++ (c.piece ++ after) := by
  induction cuts generalizing i with
  | nil => simp at h
  | cons d rest ih =>
    cases i with
    | zero =>
      obtain rfl : d = c := by simpa using h
      exact ⟨rest.flatMap Cut.tokens, by simp [leading, Cut.tokens]⟩
    | succ i =>
      obtain ⟨after, hafter⟩ := ih (by simpa using h)
      exact ⟨after, by simp [leading, hafter]⟩

/-- A source in tokens: the header, the declarations, what follows the last. -/
structure Layout where
  header : List Token
  cuts : List Cut
  tail : List Token
  deriving DecidableEq, Repr

namespace Layout

def tokens (l : Layout) : List Token := l.header ++ (l.cuts.flatMap Cut.tokens ++ l.tail)

/-- All that stands in the source before the `i`th declaration. -/
def before (l : Layout) (i : Nat) : List Token := l.header ++ leading l.cuts i

/-- The source lies like this in the file. -/
structure Fits (l : Layout) (source : List Char) (f : File) : Prop where
  tokens : tokenize source = .ok l.tokens
  header : f.header = text l.header
  codes : f.declarations.map Declaration.code = l.cuts.map fun c => text c.piece
  cuts : ∀ c ∈ l.cuts, c.Sound
  tail : ∀ t ∈ l.tail, t.significant = false

instance (l : Layout) (source : List Char) (f : File) : Decidable (l.Fits source f) :=
  decidable_of_iff (tokenize source = .ok l.tokens ∧ f.header = text l.header ∧
    f.declarations.map Declaration.code = l.cuts.map (fun c => text c.piece) ∧
    (∀ c ∈ l.cuts, c.Sound) ∧ ∀ t ∈ l.tail, t.significant = false)
    ⟨fun h => ⟨h.1, h.2.1, h.2.2.1, h.2.2.2.1, h.2.2.2.2⟩,
      fun h => ⟨h.tokens, h.header, h.codes, h.cuts, h.tail⟩⟩

end Layout

/-! ### What splitting leaves behind -/

theorem significant_of_skip {ts rest : List Token} {t : Token} (h : skipInsignificant ts = t :: rest) :
    t.significant = true := by
  have hhead := List.head?_dropWhile_not (!·.significant) ts
  rw [show ts.dropWhile (!·.significant) = t :: rest from h] at hhead
  simpa using hhead

theorem findDeclaration_declares {ts : List Token} {found : List Token × Keyword × List Token}
    (h : findDeclaration ts = some found) : ∃ t ∈ found.2.2.head?, t.declares = true := by
  induction ts generalizing found with
  | nil => cases h
  | cons t rest ih =>
    simp only [findDeclaration] at h
    repeat' split at h
    · rename_i hk hdeclares
      cases h
      exact ⟨t, rfl, by rw [Token.declares, hk]; exact hdeclares⟩
    all_goals
      obtain ⟨inner, hinner, rfl⟩ := Option.map_eq_some_iff.1 h
      obtain ⟨s, hs, hdeclares⟩ := ih hinner
      exact ⟨s, hs, hdeclares⟩

theorem nextPiece_declares {first : Token} {rest : List Token} {piece : Piece}
    (h : nextPiece first rest = .ok piece) : ∃ t ∈ piece.tokens, t.declares = true := by
  obtain ⟨lead, word, after, name, head, body, hf, -, hh, -, rfl⟩ := nextPiece_eq_ok_iff.1 h
  obtain ⟨t, ht, hdeclares⟩ := findDeclaration_declares hf
  have hmem : t ∈ head.1 := by
    have happend := cutThrough_append hh
    obtain ⟨s, more, hs⟩ := List.exists_cons_of_ne_nil (cutThrough_ne_nil hh)
    rw [hs] at happend ⊢
    rw [show after = s :: (more ++ head.2) from happend.symm] at ht
    obtain rfl : s = t := by simpa using ht
    exact List.mem_cons_self
  exact ⟨t, by simp [hmem], hdeclares⟩

/-- The piece that splitting cuts off, behind what is skipped. -/
theorem sound_nextPiece {ts rest : List Token} {first : Token} {piece : Piece}
    (hs : skipInsignificant ts = first :: rest) (h : nextPiece first rest = .ok piece) :
    (Cut.mk (ts.takeWhile (!·.significant)) piece.tokens).Sound where
  gap t ht := by simpa using List.mem_takeWhile_imp ht
  head := by
    obtain ⟨happend, hne⟩ := nextPiece_append h
    obtain ⟨t, more, ht⟩ := List.exists_cons_of_ne_nil hne
    rw [ht, List.cons_append, List.cons.injEq] at happend
    simp [ht, happend.1, significant_of_skip hs]
  body := by
    obtain ⟨t, ht, hdeclares⟩ := nextPiece_declares h
    intro hnil
    have hnone := List.dropWhile_eq_nil_iff.1 hnil t ht
    simp [hdeclares] at hnone

/-- The piece is one that was cut off somewhere in the tokens. -/
def CutOff (ts piece : List Token) : Prop :=
  ∃ first rest cut, first :: rest <:+ ts ∧ nextPiece first rest = .ok cut ∧ cut.tokens = piece

/-- The declaration is what was cut off there. -/
def CutAs (ts : List Token) (d : Declaration) (c : Cut) : Prop :=
  ∃ first rest piece, first :: rest <:+ ts ∧ nextPiece first rest = .ok piece ∧
    piece.tokens = c.piece ∧ piece.name = d.name

theorem CutAs.mono {ts ts' : List Token} {d : Declaration} {c : Cut} (h : CutAs ts d c) (hts : ts <:+ ts') :
    CutAs ts' d c := by
  obtain ⟨first, rest, piece, hsuffix, hpiece⟩ := h
  exact ⟨first, rest, piece, hsuffix.trans hts, hpiece⟩

theorem exists_cuts {line : Nat} {ts : List Token} {ds : List Declaration}
    (h : declarations line ts = .ok ds) : ∃ cuts tail, ts = cuts.flatMap Cut.tokens ++ tail ∧
      ds.map Declaration.code = cuts.map (fun c => text c.piece) ∧ (∀ c ∈ cuts, c.Sound) ∧
        (∀ t ∈ tail, t.significant = false) ∧ (∀ c ∈ cuts, CutOff ts c.piece) ∧
          (∀ (i : Nat) (d : Declaration), ds[i]? = some d →
            d.line = line + Text.newlines (text (leading cuts i))) ∧
          List.Forall₂ (CutAs ts) ds cuts := by
  fun_induction declarations line ts generalizing ds with
  | case1 line ts hs =>
    cases h
    refine ⟨[], ts, rfl, rfl, by simp, fun t ht => ?_, by simp, by simp, .nil⟩
    simpa using List.dropWhile_eq_nil_iff.1 hs t ht
  | case2 => simp at h
  | case3 => simp at h
  | case4 line ts first rest hs piece hpiece hlt start code more hmore =>
    rename_i ih
    simp only [Except.ok.injEq] at h
    subst h
    have hskip := takeWhile_append_skip ts
    rw [hs] at hskip
    obtain ⟨cuts, tail, happend, hcodes, hsound, htail, hcut, hlines, hnamed⟩ := ih hmore
    have hfirst : first :: rest <:+ ts := ⟨_, hskip⟩
    have hbehind : piece.rest <:+ ts := List.IsSuffix.trans ⟨piece.tokens, (nextPiece_append hpiece).1⟩ hfirst
    refine ⟨⟨ts.takeWhile (!·.significant), piece.tokens⟩ :: cuts, tail, ?_, ?_, ?_, htail, ?_, ?_,
      .cons ⟨first, rest, piece, hfirst, hpiece, rfl, rfl⟩ (hnamed.imp fun _ _ h => h.mono hbehind)⟩
    · calc ts = ts.takeWhile (!·.significant) ++ first :: rest := hskip.symm
        _ = ts.takeWhile (!·.significant) ++ (piece.tokens ++ piece.rest) := by
          rw [(nextPiece_append hpiece).1]
        _ = _ := by simp [happend, Cut.tokens]
    · simp [hcodes, code]
    · intro c hc
      rcases List.mem_cons.1 hc with rfl | hc
      · exact sound_nextPiece hs hpiece
      · exact hsound c hc
    · intro c hc
      rcases List.mem_cons.1 hc with rfl | hc
      · exact ⟨first, rest, piece, hfirst, hpiece, rfl⟩
      · obtain ⟨s, more, cut, hmem, hnext⟩ := hcut c hc
        exact ⟨s, more, cut, hmem.trans hbehind, hnext⟩
    · intro i d hd
      cases i with
      | zero =>
        obtain rfl := Option.some.inj hd
        rfl
      | succ i =>
        rw [hlines i d (by simpa using hd)]
        simp [leading, Cut.tokens, start, code]
        omega

theorem locate_append {ts : List Token} {found : Located} (h : locate ts = .ok found) :
    found.before ++ found.statement = ts := by
  induction ts generalizing found with
  | nil => cases h
  | cons t rest ih =>
    simp only [locate] at h
    repeat' split at h
    all_goals cases h
    · rfl
    · rename_i inner hinner
      simp [ih hinner]

/-- What splitting comes to: the namespace statement, the imports behind it, and the declarations. -/
structure Parts (source : List Char) (f : File) (found : Located)
    (statement : List Token × List Token) (l : Layout) : Prop where
  located : locate l.tokens = .ok found
  cut : cutThrough isSemicolon found.statement = some statement
  header : l.header = found.before ++ statement.1 ++ (imports statement.2).1
  rest : l.cuts.flatMap Cut.tokens ++ l.tail = (imports statement.2).2
  fits : l.Fits source f
  pieces : ∀ c ∈ l.cuts, CutOff l.tokens c.piece
  lines : ∀ (i : Nat) (d : Declaration), f.declarations[i]? = some d →
    d.line = Text.newlines (text (l.before i))

theorem exists_parts {path : Path} {source : List Char} {f : File} (h : split path source = .ok f) :
    ∃ found statement l, Parts source f found statement l := by
  unfold split at h
  split at h
  · cases h
  · rename_i ts hts
    unfold splitTokens at h
    split at h
    · cases h
    · rename_i found hfound
      split at h
      · cases h
      · rename_i statement hstatement
        dsimp only at h
        split at h
        · cases h
        · rename_i ds hds
          cases h
          obtain ⟨cuts, tail, hrest, hcodes, hsound, htail, hcut, hlines, -⟩ := exists_cuts hds
          have htokens : found.before ++ statement.1 ++ (imports statement.2).1 ++
              (cuts.flatMap Cut.tokens ++ tail) = ts := by
            rw [← hrest, List.append_assoc, imports_append, List.append_assoc,
              cutThrough_append hstatement, locate_append hfound]
          refine ⟨found, statement,
            ⟨found.before ++ statement.1 ++ (imports statement.2).1, cuts, tail⟩, ?_⟩
          exact {
            located := by rw [Layout.tokens, htokens, hfound]
            cut := hstatement
            header := rfl
            rest := hrest.symm
            fits := ⟨by rw [Layout.tokens, htokens, hts], rfl, hcodes, hsound, htail⟩
            pieces := fun c hc => by
              obtain ⟨first, rest, cut, hmem, hnext⟩ := hcut c hc
              refine ⟨first, rest, cut, hmem.trans ⟨found.before ++ statement.1 ++ (imports statement.2).1, ?_⟩,
                hnext⟩
              rw [hrest]
              rfl
            lines := fun i d hd => by
              rw [hlines i d hd, ← Text.newlines_append, ← text_append]
              rfl }

/-! ### Layouts of a source -/

namespace Layout

theorem Fits.text {l : Layout} {source : List Char} {f : File} (h : l.Fits source f) :
    source = f.header ++ (l.cuts.flatMap fun c => Source.text c.gap ++ Source.text c.piece) ++
      Source.text l.tail := by
  have hcuts : ∀ cuts : List Cut, Source.text (cuts.flatMap Cut.tokens) =
      cuts.flatMap fun c => Source.text c.gap ++ Source.text c.piece := by
    intro cuts
    induction cuts with
    | nil => rfl
    | cons c rest ih => rw [List.flatMap_cons, List.flatMap_cons, text_append, ih, Cut.tokens, text_append]
  rw [← text_of_tokenize h.tokens, Layout.tokens, text_append, text_append, hcuts, h.header,
    List.append_assoc]

/-- The `i`th declaration stands in the source behind all that is before it. -/
theorem Fits.exists_eq_before_append {l : Layout} {source : List Char} {f : File}
    (h : l.Fits source f) {i : Nat} {d : Declaration} (hd : f.declarations[i]? = some d) :
    ∃ after, source = Source.text (l.before i) ++ (d.code ++ after) := by
  have hcode : (l.cuts.map fun c => Source.text c.piece)[i]? = some d.code := by
    rw [← h.codes, List.getElem?_map, hd]
    rfl
  obtain ⟨c, hc, hcode⟩ : ∃ c, l.cuts[i]? = some c ∧ Source.text c.piece = d.code := by
    simpa using hcode
  obtain ⟨after, hafter⟩ := exists_eq_leading_append hc
  refine ⟨Source.text (after ++ l.tail), ?_⟩
  rw [← text_of_tokenize h.tokens, Layout.tokens, hafter, before]
  simp [hcode]

theorem eq_of_cuts {cuts cuts' : List Cut} {tail tail' : List Token}
    (hne : ∀ t ∈ cuts.flatMap Cut.tokens ++ tail, t.text ≠ [])
    (happend : cuts.flatMap Cut.tokens ++ tail = cuts'.flatMap Cut.tokens ++ tail')
    (hcodes : cuts.map (fun c => Source.text c.piece) = cuts'.map fun c => Source.text c.piece)
    (hcuts : ∀ c ∈ cuts, c.Sound) (hcuts' : ∀ c ∈ cuts', c.Sound) : cuts = cuts' ∧ tail = tail' := by
  induction cuts generalizing cuts' with
  | nil =>
    obtain rfl : cuts' = [] := by simpa using hcodes.symm
    exact ⟨rfl, happend⟩
  | cons c rest ih =>
    cases cuts' with
    | nil => simp at hcodes
    | cons c' rest' =>
      obtain ⟨hcode, hcodes⟩ := List.cons_eq_cons.1 hcodes
      simp only [List.flatMap_cons, Cut.tokens, List.append_assoc] at happend hne
      have hc := hcuts c List.mem_cons_self
      have hc' := hcuts' c' List.mem_cons_self
      obtain ⟨hgap, happend⟩ := eq_of_insignificant happend hc.gap hc'.gap (hc.head_append _)
        (hc'.head_append _)
      obtain ⟨hpiece, happend⟩ := eq_of_text_eq (fun t ht => hne t (List.mem_append_right _ ht))
        happend hcode
      obtain ⟨rfl, rfl⟩ := ih
        (fun t ht => hne t (List.mem_append_right _ (List.mem_append_right _ ht))) happend hcodes
        (fun d hd => hcuts d (List.mem_cons_of_mem c hd))
        (fun d hd => hcuts' d (List.mem_cons_of_mem c' hd))
      obtain ⟨gap, piece⟩ := c
      obtain ⟨gap', piece'⟩ := c'
      obtain rfl : gap = gap' := hgap
      obtain rfl : piece = piece' := hpiece
      exact ⟨rfl, rfl⟩

/-- **A source lies in a file in one way.** -/
theorem Fits.unique {l l' : Layout} {source : List Char} {f : File} (h : l.Fits source f)
    (h' : l'.Fits source f) : l = l' := by
  have htokens : l.tokens = l'.tokens := Except.ok.inj (h.tokens.symm.trans h'.tokens)
  have hne := ne_nil_of_tokenize h.tokens
  obtain ⟨hheader, hrest⟩ := eq_of_text_eq hne htokens (h.header.symm.trans h'.header)
  obtain ⟨hcuts, htail⟩ := eq_of_cuts (fun t ht => hne t (List.mem_append_right _ ht)) hrest
    (h.codes.symm.trans h'.codes) h.cuts h'.cuts
  obtain ⟨header, cuts, tail⟩ := l
  obtain ⟨header', cuts', tail'⟩ := l'
  simp only at hheader hcuts htail
  rw [hheader, hcuts, htail]

end Layout

/-! ### Lines -/

/-- **Splitting loses nothing and counts lines exactly.** A source is the header and the declarations of
its file, with white space and plain comments between and behind them, and the line of a declaration is
the number of line feeds in the source before it. -/
theorem split_lossless {path : Path} {source : List Char} {f : File} (h : split path source = .ok f) :
    ∃ l : Layout, l.Fits source f ∧
      source = f.header ++ (l.cuts.flatMap fun c => text c.gap ++ text c.piece) ++ text l.tail ∧
        ∀ (i : Nat) (d : Declaration), f.declarations[i]? = some d →
          (∃ after, source = text (l.before i) ++ (d.code ++ after)) ∧
            d.line = Text.newlines (text (l.before i)) := by
  obtain ⟨found, statement, l, hparts⟩ := exists_parts h
  refine ⟨l, hparts.fits, hparts.fits.text, fun i d hd => ⟨?_, hparts.lines i d hd⟩⟩
  exact hparts.fits.exists_eq_before_append hd

/-- The statement holds of two classes with comments around them, one of them over two lines. -/
theorem exists_split_lossless : ∃ source f, split ⟨"a.php"⟩ source = .ok f ∧
    f.declarations.map Declaration.line = [4, 6] ∧ ∃ l : Layout, l.Fits source f ∧
      source = f.header ++ (l.cuts.flatMap fun c => text c.gap ++ text c.piece) ++ text l.tail ∧
        ∀ (i : Nat) (d : Declaration), f.declarations[i]? = some d →
          (∃ after, source = text (l.before i) ++ (d.code ++ after)) ∧
            d.line = Text.newlines (text (l.before i)) := by
  let source :=
    "<?php\nnamespace A;\nuse B\\C;\n// one\nclass D \x7b\n\x7d /* two\n*/ enum E \x7b\x7d\n".toList
  let f : File := ⟨⟨"a.php"⟩, "<?php\nnamespace A;\nuse B\\C;".toList, ['A'],
    [⟨4, ['D'], "class D \x7b\n\x7d".toList⟩, ⟨6, ['E'], "enum E \x7b\x7d".toList⟩]⟩
  have hsplit : split ⟨"a.php"⟩ source = .ok f := by decide +kernel
  exact ⟨source, f, hsplit, by decide +kernel, split_lossless hsplit⟩

end PluginShading.Source
