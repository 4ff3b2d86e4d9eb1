import PluginShading.Proofs.Source.Machine
import PluginShading.Proofs.Source.Renaming

/-!
Two machines in lockstep.

Machines resemble each other when they differ in the text they read and in lines only. If one of them
reads a token, the other reads what became of that token (`Resembles.next`), provided the texts behind look
alike; and that they do follows, from the end of the run backwards, from what became of the tokens behind
(`Steps.alike`). Hence a run is repeated on the text of the moved tokens (`Steps.moved`), and also on a
text that is cut off behind a stop.
-/
namespace PluginShading.Source

variable {strict : Prop} {inWord : Bool}

/-! ### What became of a token -/

/-- `t'` is what became of `t`. -/
structure Renames (strict : Prop) (t t' : Token) : Prop where
  kind : SameKind strict t.kind t'.kind
  text : Moved strict t t'.text

theorem Renames.refl (t : Token) : Renames strict t t := ⟨.refl t.kind, .same⟩

theorem SameKind.eq_iff {k l kind : TokenKind} (h : SameKind strict k l)
    (hne : kind ≠ .identifier ∧ kind ≠ .keyword .enumWord) : l = kind ↔ k = kind := by
  rcases h with rfl | ⟨-, hk, hl⟩
  · rfl
  · simp only [List.mem_cons, List.not_mem_nil, or_false] at hk hl
    rcases hk with rfl | rfl <;> rcases hl with rfl | rfl <;> simp [hne.1.symm, hne.2.symm]

theorem namesMember_of_head {t : Token} {c : Char} {rest : List Char} (ht : t.text = c :: rest)
    (hc : c ∉ ['-', '?', ':']) : namesMember (some t) = t.isKeyword .functionWord := by
  simp only [List.mem_cons, List.not_mem_nil, or_false, not_or] at hc
  simp [namesMember, ht, hc.1, hc.2.1, hc.2.2]

namespace Renames

variable {t t' : Token}

theorem significant (h : Renames strict t t') : t'.significant = t.significant := by
  rcases h.kind with hk | ⟨-, hk, hl⟩
  · simp only [Token.significant, hk]
  · simp only [List.mem_cons, List.not_mem_nil, or_false] at hk hl
    rcases hk with hk | hk <;> rcases hl with hl | hl <;> simp [Token.significant, hk, hl]

/-- Only names move. -/
theorem text_eq (h : Renames strict t t') (hk : isNameKind t.kind = false) : t'.text = t.text :=
  h.text.eq_of_kind hk

theorem isPunctuation (h : Renames strict t t') (mark : List Char) :
    t'.isPunctuation mark = t.isPunctuation mark := by
  have hkind : t'.kind = .punctuation ↔ t.kind = .punctuation := h.kind.eq_iff (by decide)
  rw [Bool.eq_iff_iff]
  simp only [Token.isPunctuation, Bool.and_eq_true, beq_iff_eq, hkind]
  constructor <;> rintro ⟨hk, hmark⟩
  · exact ⟨hk, by rw [← h.text_eq (by rw [hk]; rfl), hmark]⟩
  · exact ⟨hk, by rw [h.text_eq (by rw [hk]; rfl), hmark]⟩

theorem isKeyword (h : Renames strict t t') {word : Keyword} (hw : word ≠ .enumWord) :
    t'.isKeyword word = t.isKeyword word := by
  have hkind : t'.kind = .keyword word ↔ t.kind = .keyword word := h.kind.eq_iff (by simpa using hw)
  rw [Bool.eq_iff_iff]
  simp [Token.isKeyword, hkind]

theorem unlined_count (h : Renames strict t t') {level level' : Level}
    (hl : level'.unlined = level.unlined) : (level'.count t').unlined = (level.count t).unlined := by
  cases level <;> cases level' <;> simp only [Level.unlined, reduceCtorEq] at hl
  · exact hl
  · exact hl
  · simp only [Level.interpolation.injEq, and_true] at hl
    simp only [Level.count, h.isPunctuation, hl]
    repeat' split
    all_goals rfl

theorem namesMember (h : Renames strict t t') : namesMember (some t') = namesMember (some t) := by
  have hword : t'.isKeyword .functionWord = t.isKeyword .functionWord := h.isKeyword (by decide)
  obtain ⟨-, htext⟩ := h
  generalize hu : t'.text = u at htext
  cases htext with
  | same => simp only [Source.namesMember, hword, hu]
  | @qualified target ht hk hm =>
    obtain ⟨c, rest, rfl, hc⟩ := ht.head
    have hnew : c ∉ ['-', '?', ':'] := by
      intro hmem
      simp only [List.mem_cons, List.not_mem_nil, or_false] at hmem
      rcases hmem with rfl | rfl | rfl <;> exact absurd hc (by decide)
    have hnumeral := hm.numeral
    cases ho : t.text with
    | nil =>
      rw [ho] at hnumeral
      cases hnumeral
    | cons d more =>
      rw [ho] at hnumeral
      have hd : isNumeral d = true := hnumeral
      have hold : d ∉ ['-', '?', ':'] := by
        intro hmem
        simp only [List.mem_cons, List.not_mem_nil, or_false] at hmem
        rcases hmem with rfl | rfl | rfl <;> exact absurd hd (by decide)
      rw [namesMember_of_head hu hnew, namesMember_of_head ho hold, hword]
  | fullyQualified ht hk htext hm =>
    rw [namesMember_of_head hu (by decide), namesMember_of_head htext (by decide), hword]

end Renames

/-! ### One step -/

/-- A mark that is a token whatever surrounds it. -/
def isStopToken (t : Token) : Bool := t.isPunctuation [';'] || t.isPunctuation ['}']

/-- What follows the token in the other text: anything behind a stop, else what looks alike. -/
def Fits (strict : Prop) (t : Token) (a b : List Char) : Prop :=
  isStopToken t = true ∨ Alike strict (endsInWord t.text) a b

theorem Fits.alike {t : Token} {a b : List Char} (h : Fits strict t a b)
    (hs : isStopToken t = false) : Alike strict (endsInWord t.text) a b :=
  h.resolve_left (by simp [hs])

theorem isStopToken_iff {t : Token} :
    isStopToken t = true ↔ t.kind = .punctuation ∧ ∃ c, isStop c = true ∧ t.text = [c] := by
  simp only [isStopToken, Token.isPunctuation, Bool.or_eq_true, Bool.and_eq_true, beq_iff_eq,
    isStop_iff]
  constructor
  · rintro (⟨hk, ht⟩ | ⟨hk, ht⟩)
    · exact ⟨hk, ';', .inl rfl, ht⟩
    · exact ⟨hk, '}', .inr rfl, ht⟩
  · rintro ⟨hk, c, rfl | rfl, ht⟩
    · exact .inl ⟨hk, ht⟩
    · exact .inr ⟨hk, ht⟩

/-- A moved name does not begin with a brace. -/
theorem Moved.head {t : Token} {u b rest rest' : List Char} {c c' : Char} (hu : Moved strict t u)
    (ht : t.text = c :: rest) (h : u ++ b = c' :: rest') : c' = '}' → c = '}' := by
  rintro rfl
  cases hu with
  | same =>
    rw [ht] at h
    exact (List.cons.inj h).1
  | qualified htarget _ _ =>
    obtain ⟨d, more, rfl, hd⟩ := htarget.head
    rw [(List.cons.inj h).1] at hd
    exact absurd hd (by decide)
  | fullyQualified => exact absurd (List.cons.inj h).1 (by decide)

theorem readCode_fits {last last' : Option Token} {line : Nat} {c : Char} {rest u b : List Char}
    {r : Reading} (hl : namesMember last' = namesMember last) (h : readCode last line c rest = .ok r)
    (hu : Moved strict r.token u) (hb : Fits strict r.token r.rest b) (line' : Nat) :
    ∃ c' rest' r', u ++ b = c' :: rest' ∧ (c' = '}' → c = '}') ∧
      readCode last' line' c' rest' = .ok r' ∧ Reading.Like strict u b r r' := by
  obtain ⟨d, more, htext⟩ := List.exists_cons_of_ne_nil (readCode_ne_nil h)
  have hhead : d = c := by
    have happend := readCode_append h
    rw [htext] at happend
    exact (List.cons.inj happend).1
  rw [hhead] at htext
  cases hc : isStop c with
  | true =>
    rw [readCode_of_stop _ _ hc] at h
    cases h
    obtain rfl : u = [c] := hu.eq_of_kind rfl
    exact ⟨c, b, _, rfl, id, readCode_of_stop last' line' hc b, .plain b .punctuation ([c], rest)⟩
  | false =>
    have hb : Alike strict (endsInWord r.token.text) r.rest b := by
      refine hb.resolve_left fun hstop => ?_
      obtain ⟨-, x, hx, hxt⟩ := isStopToken_iff.1 hstop
      rw [htext, List.cons.injEq] at hxt
      rw [hxt.1, hx] at hc
      cases hc
    obtain ⟨c', rest', r', hsplit, hread, hlike⟩ := readCode_moved hc hl h hu hb line'
    exact ⟨c', rest', r', hsplit, hu.head htext hsplit, hread, hlike⟩

namespace Machine

/-- The same state, apart from the text and from lines. -/
structure Resembles (m n : Machine) : Prop where
  outside : n.outside = m.outside
  stack : n.stack.map Level.unlined = m.stack.map Level.unlined
  member : namesMember n.last = namesMember m.last

theorem Resembles.pass {m n : Machine} {t t' : Token} {rest rest' : List Char}
    {left left' : List Level} {opened opened' : Option Level}
    (h : m.Resembles n) (ht : Renames strict t t')
    (hleft : left'.map Level.unlined = left.map Level.unlined)
    (hopened : opened'.map Level.unlined = opened.map Level.unlined) :
    Resembles (m.pass t rest left opened) (n.pass t' rest' left' opened') := by
  refine ⟨h.outside, ?_, ?_⟩
  · have hcount : (left'.map (Level.count t')).map Level.unlined =
        (left.map (Level.count t)).map Level.unlined := by
      rw [List.map_map, List.map_map]
      induction left generalizing left' with
      | nil =>
        rw [List.map_nil, List.map_eq_nil_iff] at hleft
        rw [hleft]
        rfl
      | cons level below ih =>
        cases left' with
        | nil => cases hleft
        | cons level' below' =>
          rw [List.map_cons, List.map_cons, List.cons.injEq] at hleft
          rw [List.map_cons, List.map_cons, ih hleft.2]
          exact congrArg (· :: _) (ht.unlined_count hleft.1)
    have hopen : opened'.toList.map Level.unlined = opened.toList.map Level.unlined := by
      cases opened <;> cases opened' <;> simp_all
    show (opened'.toList ++ left'.map (Level.count t')).map Level.unlined =
      (opened.toList ++ left.map (Level.count t)).map Level.unlined
    rw [List.map_append, List.map_append, hopen, hcount]
  · show namesMember (if t'.significant then some t' else n.last) =
      namesMember (if t.significant then some t else m.last)
    rw [ht.significant]
    split
    · exact ht.namesMember
    · exact h.member

theorem Resembles.withOutside {m n : Machine} (h : m.Resembles n) (outside : Bool) :
    Resembles {m with outside := outside} {n with outside := outside} :=
  ⟨rfl, h.stack, h.member⟩

/-- In `n`, which reads code, the token becomes `u`. -/
theorem Resembles.readCode {m n m' : Machine} {c : Char} {rest u b : List Char} {t : Token}
    (hn : m.Resembles n) (h : m.readCode c rest = .ok (some (t, m'))) (hu : Moved strict t u)
    (hb : Fits strict t m'.rest b) :
    ∃ c' rest' t' n', u ++ b = c' :: rest' ∧ (c' = '}' → c = '}') ∧
      n.readCode c' rest' = .ok (some (t', n')) ∧ Renames strict t t' ∧ t'.text = u ∧
      n'.rest = b ∧ m'.Resembles n' := by
  unfold Machine.readCode at h
  split at h
  · simp at h
  · rename_i r hr
    simp only [Except.ok.injEq, Option.some.injEq, Prod.mk.injEq] at h
    obtain ⟨rfl, rfl⟩ := h
    obtain ⟨c', rest', r', hsplit, hbrace, hread, hlike⟩ :=
      readCode_fits hn.member hr hu hb n.line
    have hrenames : Renames strict r.token r'.token := ⟨hlike.kind, hlike.text.symm ▸ hu⟩
    refine ⟨c', rest', r'.token,
      {n.pass r'.token r'.rest n.stack r'.opens with outside := n.outside || r'.closesCode},
      hsplit, hbrace, ?_, hrenames, hlike.text, hlike.rest, ?_⟩
    · unfold Machine.readCode
      rw [hread]
    · rw [hn.outside, hlike.closes]
      exact (hn.pass hrenames hn.stack hlike.opens).withOutside _

theorem isLiteral_of_unlined {level level' : Level} (h : level'.unlined = level.unlined) :
    level'.isLiteral = level.isLiteral := by
  cases level <;> cases level' <;> first | rfl | cases h

theorem stretch_of_unlined {level level' : Level} (h : level'.unlined = level.unlined) :
    level'.stretch = level.stretch := by
  cases level <;> cases level' <;> cases h <;> rfl

theorem stack_eq_cons {stack below : List Level} {level : Level}
    (h : stack.map Level.unlined = (level :: below).map Level.unlined) :
    ∃ level' below', stack = level' :: below' ∧ level'.unlined = level.unlined ∧
      below'.map Level.unlined = below.map Level.unlined := by
  cases stack with
  | nil => cases h
  | cons level' below' => exact ⟨level', below', rfl, List.cons.inj h⟩

theorem Resembles.readsCode {m n : Machine} (hn : m.Resembles n) : n.readsCode = m.readsCode := by
  have hstack := hn.stack
  unfold Machine.readsCode
  cases hs : m.stack with
  | nil =>
    rw [hs, List.map_nil, List.map_eq_nil_iff] at hstack
    rw [hstack, hn.outside]
  | cons level below =>
    rw [hs] at hstack
    obtain ⟨level', below', hs', hlevel, -⟩ := stack_eq_cons hstack
    rw [hs']
    exact congrArg not (isLiteral_of_unlined hlevel)

/-- In a literal the same token is read in front of a text that looks alike. -/
theorem Resembles.readText {m n m' : Machine} {level : Level} {below : List Level} {t : Token} {b : List Char}
    (hm : m.Sound) (hn : m.Resembles n) (hs : m.stack = level :: below) (hl : level.isLiteral = true)
    (h : m.next = .ok (some (t, m'))) (hrest : n.rest = t.text ++ b) (hb : Fits strict t m'.rest b) :
    ∃ n', n.next = .ok (some (t, n')) ∧ n'.rest = b ∧ m'.Resembles n' := by
  obtain ⟨level', below', hs', hlevel, hbelow⟩ := stack_eq_cons (hs ▸ hn.stack)
  have hl' : level'.isLiteral = true := (isLiteral_of_unlined hlevel).trans hl
  have hsame : Renames strict t t := .refl t
  rcases next_text_cases hs hl h with ⟨cut, ho, rfl, rfl⟩ | ⟨ho, s, hstretch, rfl, rfl⟩
  · have hstop : isStopToken ⟨.punctuation, cut.1⟩ = false := by
      unfold opener at ho
      split at ho <;> cases ho <;> rfl
    have hopen : opener n.rest = some (cut.1, b) := hrest ▸ opener_swap ho (hb.alike hstop)
    exact ⟨n.pass ⟨.punctuation, cut.1⟩ b n.stack (some (.interpolation 0 n.line)),
      next_of_opener (by simp [readsText, hs', hl']) hopen, rfl, hn.pass hsame hn.stack rfl⟩
  · have halike : Alike strict (endsInWord s.text) s.rest b := hb.alike rfl
    have hnone : opener n.rest = none := by
      obtain ⟨c, more, hc⟩ := List.exists_cons_of_ne_nil (Level.stretch_ne_nil hstretch ho)
      have hold : (opener (c :: (more ++ s.rest))).isSome = false := by
        rw [← List.cons_append, ← hc, Level.stretch_append hstretch, ho]
        rfl
      rw [hrest, hc, List.cons_append]
      simpa using opener_append_eq halike c more hold
    have hread : level'.stretch n.rest = some {s with rest := b} := by
      rw [hrest, stretch_of_unlined hlevel]
      exact (hm.levels level (by simp [hs])).stretch_inPlace hstretch halike.inPlace
    refine ⟨n.pass ⟨.other, s.text⟩ b (if s.closed then below' else n.stack) none,
      next_of_stretch hs' hl' hnone hread, rfl, hn.pass hsame ?_ rfl⟩
    cases s.closed with
    | true => exact hbelow
    | false => exact hn.stack

theorem Resembles.readOutside {m n : Machine} {b : List Char} (hn : m.Resembles n)
    (hrest : n.rest = m.readOutside.1.text ++ b)
    (hb : Fits strict m.readOutside.1 m.readOutside.2.rest b)
    (htag : m.readOutside.1.kind = .other → Tagged m.readOutside.2.rest b) :
    n.readOutside.1 = m.readOutside.1 ∧ n.readOutside.2.rest = b ∧
      m.readOutside.2.Resembles n.readOutside.2 := by
  unfold Machine.readOutside at hrest hb htag ⊢
  cases ho : openTag m.rest with
  | some cut =>
    rw [ho] at hrest hb htag
    have hopen : openTag n.rest = some (cut.1, b) := by
      rw [hrest]
      exact openTag_swap ho (hb.alike rfl)
    rw [hopen]
    have hsame : Renames strict ⟨.openTag, cut.1⟩ ⟨.openTag, cut.1⟩ := .refl _
    exact ⟨rfl, rfl, (hn.pass hsame hn.stack rfl).withOutside _⟩
  | none =>
    rw [ho] at hrest hb htag
    have htag : Tagged (inlineText m.rest).2 b := htag rfl
    have hrest : n.rest = (inlineText m.rest).1 ++ b := hrest
    have hopen : openTag n.rest = none := by
      cases hm : m.rest with
      | nil =>
        rw [hrest, hm]
        rw [hm] at htag
        rcases htag with ⟨-, rfl⟩ | ⟨o, a', b', htag, -⟩
        · rfl
        · cases htag
      | cons c more =>
        have hne : (inlineText m.rest).1 ≠ [] := by
          rw [hm] at ho ⊢
          exact inlineText_ne_nil ho
        have heq := openTag_append_isSome hne htag
        rw [inlineText_append, ho, ← hrest] at heq
        simpa using heq
    have hinline : inlineText n.rest = ((inlineText m.rest).1, b) := by
      rw [hrest, inlineText_swap htag]
    rw [hopen]
    simp only [hinline]
    have hsame : ∀ t, Renames strict t t := .refl
    exact ⟨trivial, rfl, hn.pass (hsame _) hn.stack rfl⟩

theorem readOutside_kind (m : Machine) : isNameKind m.readOutside.1.kind = false := by
  unfold readOutside
  split <;> rfl

theorem next_of_outside {m : Machine} (hs : m.stack = []) (ho : m.outside = true)
    (hr : m.rest ≠ []) : m.next = .ok (some m.readOutside) := by
  obtain ⟨c, rest, hc⟩ := List.exists_cons_of_ne_nil hr
  unfold Machine.next
  rw [hs, hc, ho]
  rfl

/-- **What one machine reads, a machine that resembles it reads in what became of the text.** Outside
code the texts behind must begin with the same tag. -/
theorem Resembles.next {m n m' : Machine} {t : Token} {u b : List Char} (hm : m.Sound)
    (hn : m.Resembles n) (h : m.next = .ok (some (t, m'))) (hrest : n.rest = u ++ b)
    (hu : Moved strict t u) (hb : Fits strict t m'.rest b)
    (htag : m.stack = [] → m.outside = true → t.kind = .other → Tagged m'.rest b) :
    ∃ t' n', n.next = .ok (some (t', n')) ∧ Renames strict t t' ∧ t'.text = u ∧ n'.rest = b ∧
      m'.Resembles n' := by
  have hliteral : ∀ {level below}, m.stack = level :: below → level.isLiteral = true → isNameKind t.kind = false →
      ∃ t' n', n.next = .ok (some (t', n')) ∧ Renames strict t t' ∧ t'.text = u ∧ n'.rest = b ∧ m'.Resembles n' := by
    intro level below hs hl hkind
    obtain rfl := hu.eq_of_kind hkind
    obtain ⟨n', hread, hrest', hafter⟩ := hn.readText hm hs hl h hrest hb
    exact ⟨t, n', hread, .refl t, rfl, hrest', hafter⟩
  have hne := (next_reads h).ne_nil
  cases next_move h with
  | outside hs ho =>
    obtain rfl := hu.eq_of_kind m.readOutside_kind
    obtain ⟨htoken, hrest', hafter⟩ := hn.readOutside hrest hb (htag hs ho)
    have hstack : n.stack = [] := by simpa [hs] using hn.stack
    have hnext : n.next = .ok (some n.readOutside) :=
      next_of_outside hstack (hn.outside.trans ho) (by simp [hrest, hne])
    exact ⟨m.readOutside.1, n.readOutside.2, htoken ▸ hnext, .refl _, rfl, hrest', hafter⟩
  | code hcode hsplit hbrace hr =>
    rw [next_of_readsCode hcode hsplit hbrace] at h
    obtain ⟨c', rest', t', n', hsplit', hbrace', hread, htoken⟩ := hn.readCode h hu hb
    refine ⟨t', n', ?_, htoken⟩
    rw [next_of_readsCode (hn.readsCode.trans hcode) (hrest.trans hsplit') fun line' below' hs' hc => ?_, hread]
    obtain ⟨level, below, hs, hlevel, -⟩ := stack_eq_cons (hs' ▸ hn.stack).symm
    cases level with
    | interpolation depth line =>
      cases hlevel
      exact hbrace line below hs (hbrace' hc)
    | _ => cases hlevel
  | @closing line below rest hs _ =>
    obtain rfl : u = ['}'] := hu.eq_of_kind rfl
    obtain ⟨level', below', hs', hlevel, hbelow⟩ := stack_eq_cons (hs ▸ hn.stack)
    cases level' with
    | interpolation depth' line' =>
      cases hlevel
      have hsame : Renames strict ⟨.punctuation, ['}']⟩ ⟨.punctuation, ['}']⟩ := .refl _
      refine ⟨⟨.punctuation, ['}']⟩, n.pass ⟨.punctuation, ['}']⟩ b below' none, ?_, hsame, rfl, rfl,
        hn.pass hsame hbelow rfl⟩
      unfold Machine.next
      rw [hs', hrest]
      rfl
    | _ => cases hlevel
  | opening hs hl => exact hliteral hs hl rfl
  | text hs hl => exact hliteral hs hl rfl

/-! ### What follows a token in a run -/

theorem readCode_token {m m' : Machine} {c : Char} {rest : List Char} {t : Token}
    (h : m.readCode c rest = .ok (some (t, m'))) :
    ∃ r, Source.readCode m.last m.line c rest = .ok r ∧ t = r.token ∧ m'.rest = r.rest := by
  unfold Machine.readCode at h
  split at h
  · simp at h
  · rename_i r hr
    simp only [Except.ok.injEq, Option.some.injEq, Prod.mk.injEq] at h
    exact ⟨r, hr, h.1.symm, h.2 ▸ rfl⟩

theorem next_nameEnds {m m' : Machine} {t : Token} (h : m.next = .ok (some (t, m'))) :
    NameEnds t m'.rest := by
  cases next_move h with
  | outside => exact .of_kind _ m.readOutside_kind
  | code _ _ _ hr => exact readCode_nameEnds hr
  | closing | opening | text => exact .of_kind _ rfl

theorem headIs_of_isSome_openTag {cs : List Char} (h : (openTag cs).isSome = true) :
    headIs isNameChar cs = false := by
  obtain ⟨cut, hcut⟩ := Option.isSome_iff_exists.1 h
  obtain ⟨more, hmore⟩ := openTag_shape hcut
  rw [← openTag_append hcut, hmore]
  rfl

theorem openTag_rest {cs : List Char} {cut : List Char × List Char} (h : openTag cs = some cut) :
    cut.2 = [] ∨ endsInWord cut.1 = false := by
  unfold openTag at h
  repeat' split at h
  all_goals simp only [Option.some.injEq, reduceCtorEq] at h
  all_goals subst h
  · exact .inr rfl
  · exact .inl rfl
  · exact .inr rfl
  · rename_i c more _ hblank
    exact .inr (isNameChar_of_isBlank hblank)

/-- Where a token ends in a word, no number goes on behind it. -/
theorem next_rest {m m' : Machine} {t : Token} (hm : m.Sound) (h : m.next = .ok (some (t, m')))
    (he : endsInWord t.text = true) : headIs isNumeral m'.rest = false := by
  cases next_move h with
  | outside =>
    unfold readOutside at he ⊢
    split at he
    · rename_i cut ho
      rcases openTag_rest ho with hnil | hends
      · exact (congrArg (headIs isNumeral) hnil).trans rfl
      · exact absurd (he.symm.trans hends) (by simp)
    · rcases inlineText_rest m.rest with hnil | htag
      · exact (congrArg (headIs isNumeral) hnil).trans rfl
      · exact headIs_isNumeral_of_stop (headIs_of_isSome_openTag htag)
  | code _ _ _ hr => exact readCode_rest hr he
  | closing => cases he
  | opening _ _ ho =>
    unfold opener at ho
    split at ho <;> cases ho <;> cases he
  | text hs hl =>
    rcases next_text_cases hs hl h with ⟨_, _, ht, _⟩ | ⟨_, s, hstretch, ht, hm'⟩
    · cases ht
    · rw [ht] at he
      rw [hm']
      rcases (hm.levels _ (by simp [hs])).stretch_rest hstretch with hrest | hends
      · exact headIs_isNumeral_of_stop hrest
      · exact absurd (he.symm.trans hends) (by simp)

end Machine

end PluginShading.Source
