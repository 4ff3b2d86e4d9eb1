import PluginShading.Proofs.Shading.Fragment

/-!
How fragments open, before and after a rule.

A fragment is read from an open tag of its own if it begins with one, and otherwise as code. A rule leaves
that as it is (`Steady.opensCode_eq`), unless a name that stands behind `<?` moves behind a target that
makes an open tag of the two.
-/
namespace PluginShading.Shading

open Source

variable {r : Rule}

/-! ### Sources that open code -/

theorem eq_of_opensCode {code : List Char} (h : opensCode code = true) :
    ∃ p q s rest, code = '<' :: '?' :: p :: q :: s :: rest ∧ spells "php" [p, q, s] = true := by
  obtain ⟨p, q, s, hword⟩ := spells_openTag h
  refine ⟨p, q, s, code.drop 5, ?_, ?_⟩
  · have := List.take_append_drop 5 code
    rw [hword] at this
    exact this.symm
  · have h : spells "<?php" (code.take 5) = true := h
    rw [hword] at h
    simpa [spells] using h

theorem opensCode_cons {p q s : Char} {rest : List Char} (h : spells "php" [p, q, s] = true) :
    opensCode ('<' :: '?' :: p :: q :: s :: rest) = true := by
  simpa [opensCode, spells] using h

theorem opensCode_append {a : List Char} (h : opensCode a = true) (b : List Char) :
    opensCode (a ++ b) = true := by
  obtain ⟨p, q, s, rest, rfl, hspells⟩ := eq_of_opensCode h
  exact opensCode_cons hspells

theorem isSome_openTag_of_ne {c : Char} {rest : List Char} (hc : c ≠ '<') :
    (openTag (c :: rest)).isSome = false := by
  rw [isSome_openTag]
  cases ht : tagAhead (c :: rest) with
  | false => rfl
  | true =>
    exfalso
    simp only [tagAhead, Bool.or_eq_true, beq_iff_eq, Bool.and_eq_true] at ht
    rcases ht with ht | ⟨ht, -⟩
    · exact hc (by simpa using congrArg List.head? ht)
    · obtain ⟨p, q, s, hword⟩ := spells_openTag ht
      exact hc (by simpa using congrArg List.head? hword)

/-- The first token of a source that opens code opens it. -/
theorem opensCode_first {source : List Char} {t : Token} {m : Machine}
    (h : (Machine.start source).next = .ok (some (t, m))) (ho : opensCode source = true) :
    opensCode t.text = true ∧ isNameKind t.kind = false := by
  obtain ⟨p, q, s, rest, rfl, hspells⟩ := eq_of_opensCode ho
  have hp : p ≠ '<' ∧ p ≠ '=' ∧ q ≠ '<' ∧ s ≠ '<' := by
    simp only [spells, List.map_cons, List.map_nil, beq_iff_eq] at hspells
    refine ⟨?_, ?_, ?_, ?_⟩ <;> rintro rfl <;> exact absurd hspells (by simp)
  rw [Machine.next_of_outside rfl rfl (by simp [Machine.start]), Except.ok.injEq,
    Option.some.injEq] at h
  have hkind := (Machine.start ('<' :: '?' :: p :: q :: s :: rest)).readOutside_kind
  rw [h] at hkind
  refine ⟨?_, hkind⟩
  unfold Machine.readOutside at h
  split at h
  · rename_i cut hcut
    simp only [Prod.mk.injEq] at h
    rw [← h.1]
    have hcut : openTag ('<' :: '?' :: p :: q :: s :: rest) = some cut := hcut
    unfold openTag at hcut
    split at hcut
    · rename_i heq
      simp only [List.cons.injEq, true_and] at heq
      exact absurd heq.1 hp.2.1
    · rename_i heq
      simp only [List.cons.injEq, true_and] at heq
      obtain ⟨rfl, rfl, rfl, rfl⟩ := heq
      rw [if_pos hspells] at hcut
      repeat' split at hcut
      all_goals simp only [Option.some.injEq, reduceCtorEq] at hcut
      all_goals
        rw [← hcut]
        exact opensCode_cons hspells
    · cases hcut
  · rename_i hnone
    simp only [Prod.mk.injEq] at h
    rw [← h.1]
    have hnone : openTag ('<' :: '?' :: p :: q :: s :: rest) = none := hnone
    have hinline : (inlineText ('<' :: '?' :: p :: q :: s :: rest)).1 =
        '<' :: '?' :: p :: q :: s :: (inlineText rest).1 := by
      simp [inlineText, hnone, isSome_openTag_of_ne hp.1, isSome_openTag_of_ne hp.2.2.1,
        isSome_openTag_of_ne hp.2.2.2, isSome_openTag_of_ne (show '?' ≠ '<' by decide)]
    show opensCode (inlineText ('<' :: '?' :: p :: q :: s :: rest)).1 = true
    rw [hinline]
    exact opensCode_cons hspells

theorem opensCode_shaded {source : List Char} {ts : List Token} {m : Machine}
    (h : Machine.Steps (Machine.start source) ts m) (hne : ts ≠ []) (ho : opensCode source = true) :
    opensCode (ts.flatMap (shadeToken r)) = true := by
  cases h with
  | refl => exact absurd rfl hne
  | next hn _ =>
    have hfirst := opensCode_first hn ho
    rw [List.flatMap_cons, shadeToken_of_kind r hfirst.2]
    exact opensCode_append hfirst.1 _

/-! ### What a rule leaves of a fragment -/

/-- What a rule makes of a fragment looks like the fragment from in front. -/
theorem alike_shadeCode {code : List Char} {ts : List Token} (ht : Fronts False r.target.text)
    (hts : fragmentTokens code = .ok ts) :
    Alike False false code (ts.flatMap (shadeToken r)) := by
  obtain ⟨m, hm, hrest, -⟩ := fragmentTokens_eq_ok_iff.1 hts
  have hmoved : ∀ t ∈ ts, Moved False t (shadeToken r t) :=
    fun t _ => moved_shadeToken ht (by simp) t
  have hend : Machine.Ends ts m.rest [] := .inl ⟨hrest, rfl⟩
  have halike : Alike False false (fragmentStart code).rest (ts.flatMap (shadeToken r) ++ []) :=
    hm.alike (sound_fragmentStart code) hmoved hend (by simp)
  rwa [fragmentStart_rest, List.append_nil] at halike

/-- The code begins with the mark of a tag. -/
def startsTag (code : List Char) : Bool := ['<', '?'].isPrefixOf code

theorem startsTag_of_opensCode {code : List Char} (h : opensCode code = true) :
    startsTag code = true := by
  obtain ⟨p, q, s, rest, rfl, -⟩ := eq_of_opensCode h
  rfl

theorem opensCode_of_not_startsTag {code : List Char} (h : startsTag code = false) : opensCode code = false := by
  refine Bool.eq_false_iff.2 fun ho => ?_
  rw [startsTag_of_opensCode ho] at h
  cases h

theorem startsTag_shaded {code : List Char} {ts : List Token} (ht : Fronts False r.target.text)
    (hts : fragmentTokens code = .ok ts) (h : startsTag code = false) :
    startsTag (ts.flatMap (shadeToken r)) = false := by
  cases hs : startsTag (ts.flatMap (shadeToken r)) with
  | false => rfl
  | true =>
    have hmarks : ∀ c ∈ ['<', '?'], isMark c = true := by
      intro c hc
      simp only [List.mem_cons, List.not_mem_nil, or_false] at hc
      rcases hc with rfl | rfl <;> decide
    have hway := (alike_shadeCode ht hts).isPrefix_of_marks hmarks (List.isPrefixOf_iff_prefix.1 hs)
    rw [startsTag, List.isPrefixOf_iff_prefix.2 hway] at h
    cases h

/-! ### Fragments that look like a tag -/

/-- The name begins with the word of an open tag. -/
def startsPhp (name : List Char) : Bool := spells "php" (name.take 3)

/-- A word in front of what the tokens become was there before, or it runs into the first token that
changes. -/
theorem prefix_flatMap_cases {g : Token → List Char} {ts : List Token} {word : List Char}
    (h : word <+: ts.flatMap g) : word <+: Source.text ts ∨
      ∃ front t back tail, ts = front ++ t :: back ∧ word = Source.text front ++ tail ∧ tail ≠ [] ∧
        g t ≠ t.text ∧ tail <+: g t ++ back.flatMap g := by
  induction ts generalizing word with
  | nil => exact .inl h
  | cons t rest ih =>
    by_cases hword : word = []
    · exact .inl (hword ▸ List.nil_prefix)
    · by_cases hg : g t = t.text
      · rw [List.flatMap_cons, hg] at h
        rw [text_cons]
        rcases List.prefix_or_prefix_of_prefix h (List.prefix_append _ _) with hin | ⟨more, rfl⟩
        · exact .inl (hin.trans (List.prefix_append _ _))
        · rw [List.prefix_append_right_inj] at h ⊢
          refine (ih h).imp_right ?_
          rintro ⟨front, u, back, tail, rfl, rfl, hne, hmoved, htail⟩
          exact ⟨t :: front, u, back, tail, rfl, by simp [text_cons], hne, hmoved, htail⟩
      · exact .inr ⟨[], t, rest, word, rfl, rfl, hword, hg, by rwa [List.flatMap_cons] at h⟩

theorem isNameChar_of_spells {word : List Char} (h : spells "php" word = true) :
    ∀ c ∈ word, isNameChar c = true := by
  intro c hc
  have hmem : c.toLower ∈ ['p', 'h', 'p'] := by
    have hword : word.map Char.toLower = ['p', 'h', 'p'] := by simpa [spells] using h
    rw [← hword]
    exact List.mem_map_of_mem hc
  have halpha : c.isAlpha = true := by
    simp only [List.mem_cons, List.not_mem_nil, or_false] at hmem
    unfold Char.toLower at hmem
    split at hmem
    · rename_i hupper
      have hupper : c.isUpper = true := decide_eq_true hupper
      exact Bool.or_eq_true_iff.2 (.inl hupper)
    · rcases hmem with rfl | rfl | rfl <;> rfl
  simp [isNameChar, isNameStart, halpha]

theorem startsPhp_of_isPrefix {p q s : Char} {target name : List Char} (h : spells "php" [p, q, s] = true)
    (hpre : [p, q, s] <+: target ++ '\\' :: name) : startsPhp target = true := by
  have hchars := isNameChar_of_spells h
  have hseparator : isNameChar '\\' = false := by decide
  obtain ⟨more, hmore⟩ := hpre
  match target with
  | [] | [_] | [_, _] =>
    simp only [List.cons_append, List.nil_append, List.cons.injEq] at hmore
    simp_all
  | a :: b :: c :: rest =>
    simp only [List.cons_append, List.nil_append, List.cons.injEq] at hmore
    obtain ⟨rfl, rfl, rfl, -⟩ := hmore
    exact h

/-- A name that moves does not go on with a word. -/
theorem endsInWord_of_movable {code : List Char} {front back : List Token} {t : Token} {m : Machine}
    (h : Machine.Steps (fragmentStart code) (front ++ t :: back) m) (ht : Movable False t.text) :
    endsInWord (Source.text front) = false := by
  refine Bool.eq_false_iff.2 fun hends => ?_
  obtain ⟨k, hfront, hback⟩ := h.split
  have hnumeral := hfront.headIs_isNumeral (sound_fragmentStart code) hends
  have hbegins := ht.numeral
  cases hback with
  | next hn _ =>
    rw [← (Machine.next_reads hn).text] at hnumeral
    cases ht : t.text with
    | nil =>
      rw [ht] at hbegins
      cases hbegins
    | cons c rest =>
      rw [ht] at hbegins hnumeral
      exact absurd (hbegins.symm.trans hnumeral) (by decide)

/-- A name behind `<?` makes an open tag of it only where the target begins like one. -/
theorem opensCode_of_shaded {code : List Char} {ts : List Token}
    (ht : Fronts False r.target.text) (hts : fragmentTokens code = .ok ts)
    (hphp : startsPhp r.target.text = false) (h : opensCode (ts.flatMap (shadeToken r)) = true) :
    opensCode code = true := by
  obtain ⟨m, hm, -⟩ := fragmentTokens_eq_ok_iff.1 hts
  have htext := text_of_fragmentTokens hts
  obtain ⟨p, q, s, rest, hshaded, hspells⟩ := eq_of_opensCode h
  have hword : ['<', '?', p, q, s] <+: ts.flatMap (shadeToken r) := ⟨rest, by rw [hshaded]; rfl⟩
  have hchars := isNameChar_of_spells hspells
  rcases prefix_flatMap_cases hword with hold | ⟨front, t, back, tail, rfl, hcut, hne, hmoved, htail⟩
  · obtain ⟨more, hmore⟩ := htext ▸ hold
    rw [← hmore]
    exact opensCode_cons hspells
  · exfalso
    obtain ⟨first, more, rfl⟩ := List.exists_cons_of_ne_nil hne
    have hfirst : first ∈ ['<', '?', p, q, s] := by simp [hcut]
    rcases shadeToken_cases r t with hsame | ⟨-, hunder, heq⟩ | ⟨name, -, -, heq⟩
    · exact hmoved hsame
    · obtain ⟨d, after, htarget, hd⟩ := ht.head
      have hrelocate : r.relocate t.text = r.target.text ++ '\\' :: t.text := rfl
      rw [heq, hrelocate] at htail
      have hd' : first = d := by
        rw [htarget] at htail
        exact (List.cons_prefix_cons.1 htail).1
      -- The name begins at the tag, right behind it, or within the word, which no name continues.
      match htag : Source.text front with
      | [] =>
        rw [htag] at hcut
        rw [← hd', ← (List.cons_eq_cons.1 hcut).1] at hd
        cases hd
      | [_] =>
        rw [htag] at hcut
        simp only [List.cons_append, List.nil_append, List.cons.injEq] at hcut
        rw [← hd', ← hcut.2.1] at hd
        cases hd
      | [_, _] =>
        rw [htag] at hcut
        simp only [List.cons_append, List.nil_append, List.cons.injEq] at hcut
        rw [← hcut.2.2.1, ← hcut.2.2.2, List.append_assoc] at htail
        rw [startsPhp_of_isPrefix hspells htail] at hphp
        cases hphp
      | x :: y :: z :: w =>
        rw [htag] at hcut
        simp only [List.cons_append, List.cons.injEq] at hcut
        have hword : ∀ c ∈ z :: w, isNameChar c = true := by
          intro c hc
          refine hchars c ?_
          rw [show [p, q, s] = (z :: w) ++ first :: more from by simp [hcut]]
          exact List.mem_append_left _ hc
        have hends := endsInWord_of_movable hm (movable_of_under hunder (by simp))
        rw [htag, show x :: y :: z :: w = [x, y] ++ z :: w from rfl,
          endsInWord_append_of_ne_nil _ (by simp), endsInWord_of_all (by simp) hword] at hends
        cases hends
    · rw [heq] at htail
      rw [show first = '\\' from (List.cons_prefix_cons.1 htail).1] at hfirst
      simp only [List.mem_cons, Char.reduceEq, List.not_mem_nil, or_false, false_or] at hfirst
      have : isNameChar '\\' = true := by
        rcases hfirst with h | h | h <;> rw [h] <;> exact hchars _ (by simp)
      cases this

/-- The fragment opens the same way whatever moves behind the target: one that begins with the mark of a
tag is one that opens code, or the target does not begin with the word of that tag. -/
def Steady (target code : List Char) : Prop :=
  startsTag code = true → opensCode code = true ∨ startsPhp target = false

/-- **A rule leaves it to a steady fragment how to open.** -/
theorem Steady.opensCode_eq {code : List Char} {ts : List Token} (hs : Steady r.target.text code)
    (ht : Fronts False r.target.text) (hts : fragmentTokens code = .ok ts) :
    opensCode (ts.flatMap (shadeToken r)) = opensCode code := by
  cases ho : opensCode code with
  | true =>
    obtain ⟨m, hm, hrest, -⟩ := fragmentTokens_eq_ok_iff.1 hts
    rw [fragmentStart_of_opensCode ho] at hm
    refine opensCode_shaded hm ?_ ho
    rintro rfl
    cases hm
    rw [show code = [] from hrest] at ho
    cases ho
  | false =>
    cases hnew : opensCode (ts.flatMap (shadeToken r)) with
    | false => rfl
    | true =>
      cases htag : startsTag code with
      | false =>
        have := startsTag_shaded ht hts htag
        rw [startsTag_of_opensCode hnew] at this
        cases this
      | true =>
        rcases hs htag with hopens | hphp
        · rw [ho] at hopens
          cases hopens
        · rw [opensCode_of_shaded ht hts hphp hnew] at ho
          cases ho

theorem Steady.shade {code : List Char} {ts : List Token} (hs : Steady r.target.text code)
    (ht : Fronts False r.target.text) (hts : fragmentTokens code = .ok ts) :
    Steady r.target.text (ts.flatMap (shadeToken r)) := by
  intro htag
  rw [hs.opensCode_eq ht hts]
  cases hold : startsTag code with
  | true => exact hs hold
  | false =>
    rw [startsTag_shaded ht hts hold] at htag
    cases htag

end PluginShading.Shading
