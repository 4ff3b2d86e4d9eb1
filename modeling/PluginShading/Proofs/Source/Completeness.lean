import PluginShading.Proofs.Source.Braces
import PluginShading.Proofs.Source.Imports

/-!
Which declarations are whole.

Splitting looks for the word of a declaration without regard to braces, and from there for the next opening
brace. So the body is the block that begins with that brace, but what stands in front of it may be anything
(`Anatomy`): a block that another declaration closes, or a declaration without a body. A declaration is
complete exactly if what it has in front of its body is, and where all are, they are the declarations of the
file that stand outside of braces (`complete_iff`).
-/
namespace PluginShading.Source

/-! ### Braces that belong together -/

/-- Every brace that is closed was opened, and all that were opened are closed. -/
structure Balanced (ts : List Token) : Prop where
  sane : ∀ front, front <+: ts → 0 ≤ braces front
  settled : braces ts = 0

instance (ts : List Token) : Decidable (Balanced ts) :=
  decidable_of_iff ((∀ front ∈ ts.inits, 0 ≤ braces front) ∧ braces ts = 0)
    ⟨fun h => ⟨fun front hfront => h.1 front ((List.mem_inits _ _).2 hfront), h.2⟩,
      fun h => ⟨fun front hfront => h.sane front ((List.mem_inits _ _).1 hfront), h.settled⟩⟩

namespace Balanced

variable {a b : List Token}

theorem append (ha : Balanced a) (hb : Balanced b) : Balanced (a ++ b) where
  sane front hfront := by
    obtain ⟨back, hsplit⟩ := hfront
    rcases List.append_eq_append_iff.1 hsplit with ⟨more, ha', -⟩ | ⟨more, rfl, hb'⟩
    · exact ha.sane front ⟨more, ha'.symm⟩
    · rw [braces_append, ha.settled, zero_add]
      exact hb.sane more ⟨back, hb'.symm⟩
  settled := by rw [braces_append, ha.settled, hb.settled, zero_add]

theorem of_append (h : Balanced (a ++ b)) (hb : Balanced b) : Balanced a where
  sane front hfront := h.sane front (hfront.trans (List.prefix_append a b))
  settled := by
    have hsettled := h.settled
    rwa [braces_append, hb.settled, add_zero] at hsettled

/-- Tokens without braces. -/
theorem of_braceDelta {ts : List Token} (h : ∀ t ∈ ts, t.braceDelta = 0) : Balanced ts := by
  have hzero : ∀ us : List Token, (∀ t ∈ us, t.braceDelta = 0) → braces us = 0 := by
    intro us hus
    induction us with
    | nil => rfl
    | cons t rest ih =>
      rw [braces_cons, hus t List.mem_cons_self, ih fun s hs => hus s (List.mem_cons_of_mem t hs), add_zero]
  exact ⟨fun front hfront => (hzero front fun t ht => h t (hfront.subset ht)).ge, hzero ts h⟩

end Balanced

/-! ### Declarations outside of braces -/

/-- What stands behind each word that opens a declaration where no brace is open, `depth` being open in front. -/
def outer (depth : Int) : List Token → List (List Token)
  | [] => []
  | t :: rest =>
    if depth = 0 ∧ t.declares = true then rest :: outer (depth + t.braceDelta) rest
    else outer (depth + t.braceDelta) rest

/-- The name that tokens begin with, behind white space and plain comments. -/
def nameAhead (ts : List Token) : Option (List Char) :=
  (skipInsignificant ts).head?.bind fun t => if t.kind = .identifier then some (Text.trim t.text) else none

/-- The tokens are one declaration of that name: outside of braces only one word opens a declaration, and the name
stands behind it. -/
structure Complete (name : List Char) (ts : List Token) : Prop where
  balanced : Balanced ts
  declared : (outer 0 ts).map nameAhead = [some name]

instance (name : List Char) (ts : List Token) : Decidable (Complete name ts) :=
  decidable_of_iff (Balanced ts ∧ (outer 0 ts).map nameAhead = [some name])
    ⟨fun h => ⟨h.1, h.2⟩, fun h => ⟨h.balanced, h.declared⟩⟩

theorem outer_append (depth : Int) (a b : List Token) :
    outer depth (a ++ b) = (outer depth a).map (· ++ b) ++ outer (depth + braces a) b := by
  induction a generalizing depth with
  | nil => simp [outer]
  | cons t rest ih =>
    rw [List.cons_append, outer, outer, ih, braces_cons, add_assoc]
    split <;> rfl

theorem outer_of_declares {depth : Int} {ts : List Token} (h : ∀ t ∈ ts, t.declares = false) :
    outer depth ts = [] := by
  induction ts generalizing depth with
  | nil => rfl
  | cons t rest ih =>
    rw [outer, if_neg (by simp [h t List.mem_cons_self]), ih fun s hs => h s (List.mem_cons_of_mem t hs)]

/-- Where some brace stays open, there is nothing outside of braces. -/
theorem outer_of_pos {depth : Int} {ts : List Token}
    (h : ∀ front back, ts = front ++ back → back ≠ [] → 0 < depth + braces front) : outer depth ts = [] := by
  induction ts generalizing depth with
  | nil => rfl
  | cons t rest ih =>
    have hhere := h [] (t :: rest) rfl (List.cons_ne_nil _ _)
    rw [braces_nil, add_zero] at hhere
    rw [outer, if_neg fun hzero => hhere.ne' hzero.1]
    refine ih fun front back hsplit hback => ?_
    have hfront := h (t :: front) back (by rw [hsplit, List.cons_append]) hback
    rwa [braces_cons, ← add_assoc] at hfront

theorem nameAhead_append {a b : List Token} {name : List Char} (h : nameAhead a = some name) :
    nameAhead (a ++ b) = some name := by
  unfold nameAhead at h ⊢
  unfold skipInsignificant at h ⊢
  rw [List.dropWhile_append]
  cases hskip : a.dropWhile (!·.significant) with
  | nil => simp [hskip] at h
  | cons t rest => simpa [hskip] using h

theorem nameAhead_append_of_none {a b : List Token} (hb : nameAhead b = none) :
    nameAhead (a ++ b) = nameAhead a := by
  unfold nameAhead at hb ⊢
  unfold skipInsignificant at hb ⊢
  rw [List.dropWhile_append]
  cases hskip : a.dropWhile (!·.significant) with
  | nil => simpa using hb
  | cons t rest => simp

/-- A block behind it makes a declaration neither complete nor incomplete. -/
theorem complete_append_iff {name : List Char} {a b : List Token} (hb : Balanced b) (houter : outer 0 b = [])
    (hname : nameAhead b = none) : Complete name (a ++ b) ↔ Complete name a := by
  have hsame : braces a = 0 → (outer 0 (a ++ b)).map nameAhead = (outer 0 a).map nameAhead := by
    intro ha
    rw [outer_append, ha, add_zero, houter, List.append_nil, List.map_map]
    exact List.map_congr_left fun after _ => nameAhead_append_of_none hname
  constructor
  · intro h
    have ha := h.balanced.of_append hb
    exact ⟨ha, (hsame ha.settled).symm.trans h.declared⟩
  · intro h
    exact ⟨h.balanced.append hb, (hsame h.balanced.settled).trans h.declared⟩

/-! ### What splitting cuts off -/

/-- A declaration from its first token to the brace that closes its body. -/
structure Anatomy where
  lead : List Token
  word : Token
  between : List Token
  brace : Token
  body : List Token

namespace Anatomy

/-- What the declaration has in front of its body. -/
def front (a : Anatomy) : List Token := a.lead ++ a.word :: a.between

/-- The body, with the brace that opens it. -/
def block (a : Anatomy) : List Token := a.brace :: a.body

def tokens (a : Anatomy) : List Token := a.front ++ a.block

/-- The word is the first one that opens a declaration, the brace the first one behind it. -/
structure Sound (a : Anatomy) (name : List Char) : Prop where
  lead : ∀ t ∈ a.lead, t.declares = false
  word : a.word.declares = true
  named : nameAhead a.between = some name
  between : ∀ t ∈ a.between, isOpeningBrace t = false
  brace : isOpeningBrace a.brace = true
  closed : braces a.block = 0
  inside : ∀ front back, a.body = front ++ back → back ≠ [] → 0 ≤ braces front

end Anatomy

theorem kind_of_isOpeningBrace {t : Token} (h : isOpeningBrace t = true) :
    t.kind = .punctuation ∧ t.braceDelta = 1 := by
  obtain ⟨kind, text⟩ := t
  obtain ⟨hkind, htext⟩ := Bool.and_eq_true_iff.1 h
  obtain rfl : kind = .punctuation := by simpa using hkind
  obtain rfl : text = ['{'] := by simpa using htext
  exact ⟨rfl, rfl⟩

theorem declares_of_isOpeningBrace {t : Token} (h : isOpeningBrace t = true) : t.declares = false := by
  simp [Token.declares, (kind_of_isOpeningBrace h).1]

theorem nameAhead_of_isOpeningBrace {t : Token} (h : isOpeningBrace t = true) (rest : List Token) :
    nameAhead (t :: rest) = none := by
  have hkind := (kind_of_isOpeningBrace h).1
  have hsignificant : t.significant = true := by simp [Token.significant, hkind]
  simp [nameAhead, skipInsignificant, hsignificant, hkind]

theorem nameAhead_of_declaredName {word : Keyword} {after : List Token} {name : List Char}
    (h : declaredName word after = .ok name) : nameAhead after = some name := by
  unfold declaredName at h
  unfold nameAhead
  split at h
  · cases h
  · rename_i t rest hskip
    split at h
    · rename_i hkind
      cases h
      simp [hskip, hkind]
    · cases h

theorem findDeclaration_lead {ts : List Token} {found : List Token × Keyword × List Token}
    (h : findDeclaration ts = some found) : ∀ t ∈ found.1, t.declares = false := by
  induction ts generalizing found with
  | nil => cases h
  | cons t rest ih =>
    simp only [findDeclaration] at h
    split at h
    · rename_i word hkind
      split at h
      · cases h
        simp
      · rename_i hword
        obtain ⟨inner, hinner, rfl⟩ := Option.map_eq_some_iff.1 h
        exact List.forall_mem_cons.2 ⟨by simpa [Token.declares, hkind] using hword, ih hinner⟩
    · rename_i hkind
      obtain ⟨inner, hinner, rfl⟩ := Option.map_eq_some_iff.1 h
      refine List.forall_mem_cons.2 ⟨?_, ih hinner⟩
      unfold Token.declares
      split
      · exact absurd ‹_› (hkind _)
      · rfl

/-- Braces are open until all are closed. -/
theorem closeBraces_encloses {depth : Int} {ts : List Token} {cut : List Token × List Token} (hd : 1 ≤ depth)
    (hts : ∀ t ∈ ts, isMarkToken t) (h : closeBraces depth ts = some cut) : depth + braces cut.1 = 0 ∧
      ∀ front back, cut.1 = front ++ back → back ≠ [] → 1 ≤ depth + braces front := by
  induction ts generalizing depth cut with
  | nil => cases h
  | cons t rest ih =>
    have hdelta := braceDelta_of_isMarkToken (hts t List.mem_cons_self)
    simp only [closeBraces] at h
    split at h
    · rename_i hzero
      cases h
      refine ⟨by simpa using hzero, fun front back hsplit hback => ?_⟩
      rcases List.cons_eq_append_iff.1 hsplit with ⟨rfl, -⟩ | ⟨more, -, hmore⟩
      · simpa using hd
      · exact absurd (List.append_eq_nil_iff.1 hmore.symm).2 hback
    · rename_i hopen
      obtain ⟨inner, hinner, rfl⟩ := Option.map_eq_some_iff.1 h
      obtain ⟨hclosed, hinside⟩ := ih (show 1 ≤ depth + t.braceDelta by omega)
        (fun s hs => hts s (List.mem_cons_of_mem t hs)) hinner
      refine ⟨by rwa [braces_cons, ← add_assoc], fun front back hsplit hback => ?_⟩
      rcases List.cons_eq_append_iff.1 hsplit with ⟨rfl, -⟩ | ⟨more, rfl, hmore⟩
      · simpa using hd
      · rw [braces_cons, ← add_assoc]
        exact hinside more back hmore hback

theorem exists_anatomy {first : Token} {rest : List Token} {piece : Piece}
    (hts : ∀ t ∈ first :: rest, isMarkToken t) (h : nextPiece first rest = .ok piece) :
    ∃ a : Anatomy, a.tokens = piece.tokens ∧ a.Sound piece.name := by
  obtain ⟨lead, word, after, name, head, body, hf, hname, hh, hb, rfl⟩ := nextPiece_eq_ok_iff.1 h
  obtain ⟨t, ht, hword⟩ := findDeclaration_declares hf
  obtain ⟨more, rfl⟩ : ∃ more, after = t :: more := by
    cases after with
    | nil => cases ht
    | cons s more =>
      obtain rfl : s = t := by simpa using ht
      exact ⟨more, rfl⟩
  obtain ⟨front, brace, hhead, hfront, hbrace⟩ := cutThrough_eq_some hh
  have happend := cutThrough_append hh
  rw [hhead, List.append_assoc] at happend
  -- The word itself is no brace, so it is in front of the brace.
  obtain ⟨between, rfl⟩ : ∃ between, front = t :: between := by
    cases front with
    | nil =>
      obtain ⟨rfl, -⟩ := List.cons_eq_cons.1 happend
      rw [declares_of_isOpeningBrace hbrace] at hword
      cases hword
    | cons s between => exact ⟨between, congrArg (· :: between) (List.cons_eq_cons.1 happend).1⟩
  have hmore : between ++ ([brace] ++ head.2) = more := (List.cons_eq_cons.1 happend).2
  have hmarks : ∀ t ∈ head.2, isMarkToken t := by
    intro s hs
    refine hts s ?_
    rw [← findDeclaration_append hf, ← hmore]
    simp [hs]
  obtain ⟨hclosed, hinside⟩ := closeBraces_encloses le_rfl hmarks hb
  refine ⟨⟨lead, t, between, brace, body.1⟩, ?_, ?_⟩
  · simp [Anatomy.tokens, Anatomy.front, Anatomy.block, hhead]
  · exact {
      lead := findDeclaration_lead hf
      word := hword
      named := by
        have hnamed := nameAhead_of_declaredName hname
        rw [List.tail_cons, ← hmore] at hnamed
        exact (nameAhead_append_of_none (nameAhead_of_isOpeningBrace hbrace _)).symm.trans hnamed
      between := fun s hs => hfront s (List.mem_cons_of_mem t hs)
      brace := hbrace
      closed := by rw [Anatomy.block, braces_cons, (kind_of_isOpeningBrace hbrace).2, hclosed]
      inside := fun front back hsplit hback => by
        have := hinside front back hsplit hback
        omega }

namespace Anatomy.Sound

variable {a : Anatomy} {name : List Char}

theorem balanced_block (h : a.Sound name) : Balanced a.block where
  settled := h.closed
  sane front hfront := by
    have hdelta := (kind_of_isOpeningBrace h.brace).2
    obtain ⟨back, hsplit⟩ := hfront
    rcases List.cons_eq_append_iff.1 hsplit.symm with ⟨rfl, -⟩ | ⟨more, rfl, hmore⟩
    · simp
    by_cases hback : back = []
    · rw [hback, List.append_nil] at hsplit
      rw [hsplit, h.closed]
    · have hinside := h.inside more back hmore hback
      rw [braces_cons]
      omega

theorem outer_block (h : a.Sound name) : outer 0 a.block = [] := by
  have hdelta := (kind_of_isOpeningBrace h.brace).2
  rw [block, outer, if_neg (by simp [declares_of_isOpeningBrace h.brace])]
  refine outer_of_pos fun front back hsplit hback => ?_
  have hinside := h.inside front back hsplit hback
  omega

/-- The body has no part in whether a declaration is complete. -/
theorem complete_iff_front (h : a.Sound name) : Complete name a.tokens ↔ Complete name a.front :=
  complete_append_iff h.balanced_block h.outer_block (nameAhead_of_isOpeningBrace h.brace a.body)

/-- Without braces in front of its body and without a second word, a declaration is complete. -/
theorem complete (h : a.Sound name) (hbraces : ∀ t ∈ a.front, t.braceDelta = 0)
    (hwords : ∀ t ∈ a.between, t.declares = false) : Complete name a.tokens := by
  refine h.complete_iff_front.2 ⟨.of_braceDelta hbraces, ?_⟩
  have hlead : Balanced a.lead := .of_braceDelta fun t ht => hbraces t (List.mem_append_left _ ht)
  rw [front, outer_append, outer_of_declares h.lead, hlead.settled, outer, if_pos ⟨by simp, h.word⟩,
    outer_of_declares hwords]
  simp [h.named]

end Anatomy.Sound

/-! ### Files -/

theorem declares_of_insignificant {t : Token} (h : t.significant = false) : t.declares = false := by
  unfold Token.significant at h
  unfold Token.declares
  split at h
  · simp [*]
  · simp [*]
  · cases h

theorem braceDelta_of_insignificant {t : Token} (h : t.significant = false) : t.braceDelta = 0 := by
  refine Token.braceDelta_of_kind fun hkind => ?_
  simp [Token.significant, hkind] at h

/-- All that stands in the source behind the header. -/
def Layout.rest (l : Layout) : List Token := l.cuts.flatMap Cut.tokens ++ l.tail

/-- Each declaration of the file is what was cut off for it. -/
theorem Parts.named {path : Path} {source : List Char} {f : File} {found : Located}
    {statement : List Token × List Token} {l : Layout} (hparts : Parts source f found statement l)
    (h : split path source = .ok f) : List.Forall₂ (CutAs l.tokens) f.declarations l.cuts := by
  simp only [split, hparts.fits.tokens, splitTokens, hparts.located, hparts.cut, ← hparts.rest] at h
  split at h
  · cases h
  · rename_i ds hds
    cases h
    obtain ⟨cuts, tail, happend, hcodes, hsound, -, -, -, hnamed⟩ := exists_cuts hds
    have hne : ∀ t ∈ l.cuts.flatMap Cut.tokens ++ l.tail, t.text ≠ [] := fun t ht =>
      ne_nil_of_tokenize hparts.fits.tokens t (List.mem_append_right _ ht)
    obtain ⟨rfl, -⟩ := Layout.eq_of_cuts hne happend (hparts.fits.codes.symm.trans hcodes) hparts.fits.cuts hsound
    exact hnamed.imp fun _ _ h => h.mono (List.suffix_append _ _)

theorem balanced_of_insignificant {ts : List Token} (h : ∀ t ∈ ts, t.significant = false) : Balanced ts :=
  .of_braceDelta fun t ht => braceDelta_of_insignificant (h t ht)

theorem outer_of_insignificant {ts : List Token} (h : ∀ t ∈ ts, t.significant = false) : outer 0 ts = [] :=
  outer_of_declares fun t ht => declares_of_insignificant (h t ht)

/-- Complete declarations are all that stands outside of braces. -/
theorem outer_of_complete {ds : List Declaration} {cuts : List Cut} {tail : List Token}
    (h : List.Forall₂ (fun d c => Complete d.name c.piece) ds cuts) (hcuts : ∀ c ∈ cuts, c.Sound)
    (htail : ∀ t ∈ tail, t.significant = false) : Balanced (cuts.flatMap Cut.tokens ++ tail) ∧
      (outer 0 (cuts.flatMap Cut.tokens ++ tail)).map nameAhead = ds.map fun d => some d.name := by
  induction h with
  | nil => exact ⟨balanced_of_insignificant htail, by simp [outer_of_insignificant htail]⟩
  | @cons d c ds cuts hpiece _ ih =>
    obtain ⟨hbalanced, houter⟩ := ih fun c hc => hcuts c (List.mem_cons_of_mem _ hc)
    have hgap := (hcuts c List.mem_cons_self).gap
    have hgapped := balanced_of_insignificant hgap
    rw [List.flatMap_cons, Cut.tokens, List.append_assoc, List.append_assoc]
    refine ⟨hgapped.append (hpiece.balanced.append hbalanced), ?_⟩
    obtain ⟨after, hafter, hname⟩ := List.map_eq_singleton_iff.1 hpiece.declared
    rw [outer_append, outer_of_insignificant hgap, hgapped.settled, zero_add, outer_append, hafter,
      hpiece.balanced.settled, zero_add, List.map_append, List.map_append, houter]
    simp [nameAhead_append hname]

/-- **What a declaration of a split file is made of, and when it is complete.** It has all through the next word that
opens a declaration, and through the block behind it. The block never is in the way: a declaration is complete
exactly if it is so without it, as one is that has no braces and no second word in front of the block. Where all are
complete, they are the declarations that stand outside of braces in the source, in order. -/
theorem complete_iff {path : Path} {source : List Char} {f : File} (h : split path source = .ok f) :
    ∃ l : Layout, l.Fits source f ∧
      List.Forall₂ (fun d c => ∃ a : Anatomy, a.tokens = c.piece ∧ a.Sound d.name ∧
        (Complete d.name c.piece ↔ Complete d.name a.front) ∧
        ((∀ t ∈ a.front, t.braceDelta = 0) → (∀ t ∈ a.between, t.declares = false) →
          Complete d.name c.piece)) f.declarations l.cuts ∧
      (List.Forall₂ (fun d c => Complete d.name c.piece) f.declarations l.cuts → Balanced l.rest ∧
        (outer 0 l.rest).map nameAhead = f.declarations.map fun d => some d.name) := by
  obtain ⟨found, statement, l, hparts⟩ := exists_parts h
  obtain ⟨m, hm, -, -⟩ := tokenize_eq_ok_iff.1 hparts.fits.tokens
  have hmarks := hm.forall_tokens (P := isMarkToken) fun _ _ _ => Machine.next_isMarkToken
  refine ⟨l, hparts.fits, (hparts.named h).imp fun d c hcut => ?_,
    fun hall => outer_of_complete hall hparts.fits.cuts hparts.fits.tail⟩
  obtain ⟨first, rest, piece, hsuffix, hpiece, htokens, hname⟩ := hcut
  obtain ⟨a, ha, hsound⟩ := exists_anatomy (fun t ht => hmarks t (hsuffix.subset ht)) hpiece
  rw [hname] at hsound
  rw [← htokens, ← ha]
  exact ⟨a, rfl, hsound, hsound.complete_iff_front, hsound.complete⟩

/-- The statement holds of a class with an attribute, in which braces open and close. -/
theorem exists_complete_iff : ∃ source f l, split ⟨"a.php"⟩ source = .ok f ∧ Layout.Fits l source f ∧
    List.Forall₂ (fun d c => ∃ a : Anatomy, a.tokens = c.piece ∧ a.Sound d.name ∧
      (Complete d.name c.piece ↔ Complete d.name a.front) ∧
      ((∀ t ∈ a.front, t.braceDelta = 0) → (∀ t ∈ a.between, t.declares = false) →
        Complete d.name c.piece)) f.declarations l.cuts ∧
    Balanced l.rest ∧ (outer 0 l.rest).map nameAhead = [some ['D']] := by
  let source := "<?php namespace A;#[\"\x7b$c\x7d\"]class D\x7b\x7d".toList
  let f : File := ⟨⟨"a.php"⟩, "<?php namespace A;".toList, ['A'], [⟨0, ['D'], "#[\"\x7b$c\x7d\"]class D\x7b\x7d".toList⟩]⟩
  let ts := (tokenize source).toOption.getD []
  let l : Layout := ⟨ts.take 5, [⟨[], ts.drop 5⟩], []⟩
  have hsplit : split ⟨"a.php"⟩ source = .ok f := by decide +kernel
  have hl : l.Fits source f := by decide +kernel
  obtain ⟨l', hfits, hparts, hall⟩ := complete_iff hsplit
  obtain rfl : l' = l := hfits.unique hl
  exact ⟨source, f, l, hsplit, hl, hparts, hall (by decide +kernel)⟩

/-- A class in a block and the one behind it share the block between them, and a class without a body takes
the next one in: none of the three declarations is complete. -/
theorem declarations_not_complete : ∃ source f l, split ⟨"a.php"⟩ source = .ok f ∧ Layout.Fits l source f ∧
    f.declarations.length = 3 ∧ List.Forall₂ (fun d c => ¬ Complete d.name c.piece) f.declarations l.cuts := by
  let source := "<?php namespace A;if(x)\x7bclass B\x7b\x7d\x7dclass C\x7b\x7dclass D;class E\x7b\x7d".toList
  let f : File := ⟨⟨"a.php"⟩, "<?php namespace A;".toList, ['A'], [⟨0, ['B'], "if(x)\x7bclass B\x7b\x7d".toList⟩,
    ⟨0, ['C'], "\x7dclass C\x7b\x7d".toList⟩, ⟨0, ['D'], "class D;class E\x7b\x7d".toList⟩]⟩
  let ts := (tokenize source).toOption.getD []
  let l : Layout :=
    ⟨ts.take 5, [⟨[], (ts.drop 5).take 10⟩, ⟨[], (ts.drop 15).take 6⟩, ⟨[], ts.drop 21⟩], []⟩
  exact ⟨source, f, l, by decide +kernel, by decide +kernel, rfl, by decide +kernel⟩

end PluginShading.Source
