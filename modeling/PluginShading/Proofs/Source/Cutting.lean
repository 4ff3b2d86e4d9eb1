import PluginShading.Proofs.Source.Braces
import PluginShading.Proofs.Source.Rerun
import PluginShading.Proofs.Source.Shortening

/-!
Runs on the beginning of a text.

A run that ends in code, with nothing open, is repeated on the text of its tokens alone (`Steps.repeated`). Step by
step the lexer asks for little behind a token (`Machine.Cuttable`), and the tokens that follow have what it asks for
(`Steps.cuttable`): the mark of an interpolation, the tag behind a comment, the tag behind text outside code, the word
behind `enum`. At the end of the run the word behind `enum` may be missing; then it is a name.
-/
namespace PluginShading.Source

/-- Behind a token of code that opens a literal and does not close it stands an interpolation. -/
theorem readCode_opens_rest {last : Option Token} {line : Nat} {c : Char} {rest : List Char} {r : Reading}
    (h : readCode last line c rest = .ok r) (ho : r.opens ≠ none) : (opener r.rest).isSome = true := by
  obtain ⟨level, hlevel⟩ := Option.ne_none_iff_exists'.1 ho
  rcases readCode_opens_cases h hlevel with ⟨s, -, hs, hc, -, rfl⟩ | ⟨more, header, s, -, -, hs, hc, -, rfl⟩
  · exact quotedStretch_opens hs hc
  · exact heredocStretch_opens hs hc

theorem Level.count_of_kind {t : Token} (hk : t.kind ≠ .punctuation) (level : Level) : level.count t = level := by
  cases level with
  | interpolation depth line => rw [Level.count_interpolation, Token.count_of_kind hk]
  | _ => rfl

namespace Machine

variable {m m' k : Machine} {t : Token} {ts : List Token} {b : List Char}

/-- The machine in front of another text. -/
def withRest (m : Machine) (b : List Char) : Machine := {m with rest := b}

@[simp] theorem withRest_rest (m : Machine) (b : List Char) : (m.withRest b).rest = b := rfl

@[simp] theorem withRest_line (m : Machine) (b : List Char) : (m.withRest b).line = m.line := rfl

@[simp] theorem withRest_outside (m : Machine) (b : List Char) : (m.withRest b).outside = m.outside := rfl

@[simp] theorem withRest_stack (m : Machine) (b : List Char) : (m.withRest b).stack = m.stack := rfl

@[simp] theorem withRest_last (m : Machine) (b : List Char) : (m.withRest b).last = m.last := rfl

/-- What a step asks for behind its token, if the text behind is cut down to `b`. -/
structure Cuttable (m : Machine) (t : Token) (m' : Machine) (b : List Char) : Prop where
  front : b <+: m'.rest
  opens : m'.readsText = true → (opener m'.rest).isSome = true → (opener b).isSome = true
  mark : m.readsText = true → t.kind = .punctuation → b ≠ []
  comment : m.readsCode = true → t.kind = .comment → b ≠ [] → ['?', '>'] <+: m'.rest → ['?', '>'] <+: b
  tag : m.stack = [] → m.outside = true → t.kind = .other → Tagged m'.rest b
  enum : t.kind ∈ [.identifier, .keyword .enumWord] → EnumCut m'.rest b

/-- The step in front of `b`: the same, or the keyword `enum` has become a name. -/
def StepCut (m : Machine) (t : Token) (m' : Machine) (b : List Char) : Prop :=
  (m.withRest (t.text ++ b)).next = .ok (some (t, m'.withRest b)) ∨
    t.kind = .keyword .enumWord ∧ (∀ c ∈ b, isBlank c = true) ∧
      (m.withRest (t.text ++ b)).next =
        .ok (some (⟨.identifier, t.text⟩, {m'.withRest b with last := some ⟨.identifier, t.text⟩}))

theorem stepCut_of_readCode {c : Char} {rest : List Char} {r : Reading} (hm : m.readsCode = true)
    (hc : ∀ line below, m.stack = .interpolation 0 line :: below → c ≠ '}')
    (h : Source.readCode m.last m.line c rest = .ok r)
    (hb : m.Cuttable r.token {m.pass r.token r.rest m.stack r.opens with outside := m.outside || r.closesCode} b) :
    m.StepCut r.token {m.pass r.token r.rest m.stack r.opens with outside := m.outside || r.closesCode} b := by
  have hopens : r.opens ≠ none → (opener b).isSome = true := by
    intro ho
    obtain ⟨level, hlevel⟩ := Option.ne_none_iff_exists'.1 ho
    refine hb.opens ?_ (readCode_opens_rest h ho)
    simp [readsText, Machine.pass, hlevel, (readCode_opens h hlevel).2]
  obtain ⟨d, more, htext⟩ := List.exists_cons_of_ne_nil (readCode_ne_nil h)
  have happend := readCode_append h
  rw [htext, List.cons_append, List.cons.injEq] at happend
  obtain ⟨rfl, -⟩ := happend
  obtain ⟨r', hread, hr'⟩ := readCode_cut h ⟨hb.front, hopens, hb.comment hm, hb.enum⟩
    (show d :: (more ++ b) = r.token.text ++ b by rw [htext, List.cons_append])
  have hnext : (m.withRest (r.token.text ++ b)).next = .ok (some (r'.token,
      {m.pass r'.token r'.rest m.stack r'.opens with outside := m.outside || r'.closesCode})) := by
    rw [htext, List.cons_append,
      next_of_readsCode (m := m.withRest (d :: (more ++ b))) hm rfl hc]
    unfold Machine.readCode
    simp only [withRest_last, withRest_line, hread]
    rfl
  rcases hr' with rfl | ⟨hkind, hblank, rfl⟩
  · exact .inl hnext
  · have hcount : Level.count ⟨.identifier, r.token.text⟩ = Level.count r.token := by
      funext level
      rw [Level.count_of_kind (by simp), Level.count_of_kind (by simp [hkind])]
    refine .inr ⟨hkind, hblank, hnext.trans ?_⟩
    simp only [Machine.pass, hcount, withRest]
    rfl

theorem opener_of_cut {cs : List Char} {cut : List Char × List Char} (h : opener cs = some cut) (hb : b <+: cut.2)
    (hne : b ≠ []) : opener (cut.1 ++ b) = some (cut.1, b) := by
  unfold opener at h
  split at h <;> cases h
  · obtain ⟨z, hz⟩ := hb
    cases b with
    | nil => exact absurd rfl hne
    | cons c more =>
      obtain rfl := (List.cons.inj hz).1
      rfl
  · rfl

theorem readText_cut {level : Level} {below : List Level} (hm : m.Sound) (hs : m.stack = level :: below)
    (hl : level.isLiteral = true) (h : m.next = .ok (some (t, m'))) (hb : m.Cuttable t m' b) :
    (m.withRest (t.text ++ b)).next = .ok (some (t, m'.withRest b)) := by
  have htext : m.readsText = true := by simp [readsText, hs, hl]
  rcases next_text_cases hs hl h with ⟨cut, ho, rfl, rfl⟩ | ⟨ho, s, hstretch, rfl, rfl⟩
  · exact next_of_opener (m := m.withRest (cut.1 ++ b)) htext (opener_of_cut ho hb.front (hb.mark htext rfl))
  · have hshorter : s.text ++ b <+: m.rest := front_cut (Level.stretch_append hstretch) hb.front
    have hnone : opener (s.text ++ b) = none := by simpa using opener_cut hshorter (by rw [ho]; rfl)
    have hopens : s.closed = false → (opener b).isSome = true := by
      intro hc
      refine hb.opens ?_ (Level.stretch_opens hstretch hc)
      simp [readsText, Machine.pass, hc, hs, hl]
    have hsound : level.Sound := hm.levels level (by simp [hs])
    exact next_of_stretch (m := m.withRest (s.text ++ b)) hs hl hnone
      (hsound.stretch_inPlace hstretch (inPlace_cut hb.front hopens))

theorem readOutside_cut (hs : m.stack = []) (ho : m.outside = true) (hne : m.rest ≠ [])
    (hb : m.Cuttable m.readOutside.1 m.readOutside.2 b) : m.StepCut m.readOutside.1 m.readOutside.2 b := by
  obtain ⟨c, more, hrest⟩ := List.exists_cons_of_ne_nil hne
  have hreads := readOutside_reads hrest
  have hnext : (m.withRest (m.readOutside.1.text ++ b)).next =
      .ok (some (m.withRest (m.readOutside.1.text ++ b)).readOutside) :=
    next_of_outside hs ho (by simp [withRest, hreads.ne_nil])
  refine .inl (hnext.trans ?_)
  unfold Machine.readOutside at hb ⊢
  cases htag : openTag m.rest with
  | some cut =>
    rw [htag] at hb
    simp only
    rw [show openTag (m.withRest _).rest = _ from openTag_cut htag hb.front]
    rfl
  | none =>
    rw [htag] at hb
    simp only
    have htagged : Tagged (inlineText m.rest).2 b := hb.tag hs ho rfl
    have hne : (inlineText m.rest).1 ≠ [] := by
      rw [hrest] at htag ⊢
      exact inlineText_ne_nil htag
    have hnone : openTag ((inlineText m.rest).1 ++ b) = none := by
      have heq := openTag_append_isSome hne htagged
      rw [inlineText_append, htag] at heq
      simpa using heq
    rw [show openTag (m.withRest _).rest = _ from hnone]
    simp only [withRest, inlineText_swap htagged]
    rfl

/-- **A step in front of the beginning of what is behind it.** -/
theorem next_cut (hm : m.Sound) (h : m.next = .ok (some (t, m'))) (hb : m.Cuttable t m' b) : m.StepCut t m' b := by
  cases next_move h with
  | outside hs ho =>
    refine readOutside_cut hs ho (fun hnil => ?_) hb
    have hreads := (next_reads h).length_lt
    simp [hnil] at hreads
  | code hcode hrest hc hr => exact stepCut_of_readCode hcode hc hr hb
  | @closing line below rest hs hrest =>
    refine .inl ?_
    unfold Machine.next
    simp [withRest, hs, Machine.pass]
  | opening hs hl => exact .inl (readText_cut hm hs hl h hb)
  | text hs hl => exact .inl (readText_cut hm hs hl h hb)

/-! ### What the tokens behind begin with -/

theorem Steps.front (h : Steps m ts m') : Source.text ts <+: m.rest := ⟨m'.rest, h.text⟩

/-- Where something is open that is closed at the end, more is read. -/
theorem Steps.text_ne_nil (h : Steps m ts m') (hm : m.stack ≠ []) (hs : m'.stack = []) : Source.text ts ≠ [] := by
  cases h with
  | refl => exact absurd hs hm
  | next hn _ =>
    rw [text_cons]
    simp [(next_reads hn).ne_nil]

/-- The mark of an interpolation is a token or begins two. -/
theorem Steps.opener (h : Steps m ts m') (hs : m'.stack = []) (hm : m.readsText = true)
    (ho : (opener m.rest).isSome = true) : (Source.opener (Source.text ts)).isSome = true := by
  obtain ⟨cut, hcut⟩ := Option.isSome_iff_exists.1 ho
  have hnext := next_of_opener hm hcut
  cases h with
  | refl =>
    unfold readsText at hm
    rw [hs] at hm
    cases hm
  | next hn hrest =>
    rw [hnext] at hn
    cases hn
    rw [text_cons, opener_of_cut hcut hrest.front (hrest.text_ne_nil (List.cons_ne_nil _ _) hs)]
    rfl

theorem readsCode_of_pass (hm : m.readsCode = true) (t : Token) (rest : List Char) :
    (m.pass t rest m.stack none).readsCode = true := by
  unfold readsCode at hm ⊢
  cases hs : m.stack with
  | nil => simpa [hs, Machine.pass] using hm
  | cons level below => simpa [hs, Machine.pass] using hm

/-- Behind a token of code that opens nothing and closes no code, code goes on. -/
theorem next_readsCode (hm : m.readsCode = true) (h : m.next = .ok (some (t, k)))
    (hr : ∀ c rest r, Source.readCode m.last m.line c rest = .ok r → t = r.token →
      r.closesCode = false ∧ r.opens = none) (ht : t.kind ≠ .punctuation) : k.readsCode = true := by
  cases next_move h with
  | outside hs ho => simp [readsCode, hs, ho] at hm
  | @code c rest r _ _ _ hread =>
    obtain ⟨hcloses, hopens⟩ := hr c rest r hread rfl
    have hpass := readsCode_of_pass hm r.token r.rest
    rw [hcloses, hopens, Bool.or_false]
    exact hpass
  | closing => exact absurd rfl ht
  | opening => exact absurd rfl ht
  | text hs hl => simp [readsCode, hs, hl] at hm

/-- Words are read in code, and code goes on behind them. -/
theorem next_word (h : m.next = .ok (some (t, k))) (ht : t.kind ∈ [.identifier, .keyword .enumWord]) :
    k.readsCode = true := by
  simp only [List.mem_cons, List.not_mem_nil, or_false] at ht
  have hm : m.readsCode = true := by
    cases next_move h with
    | outside =>
      unfold readOutside at ht
      split at ht <;> simp at ht
    | code hcode => exact hcode
    | closing | opening | text => simp at ht
  refine next_readsCode hm h (fun c rest r hr heq => ?_) (by rcases ht with hk | hk <;> simp [hk])
  subst heq
  rcases readCode_cases hr with ⟨-, rfl⟩ | ⟨-, -, rfl⟩ | hmark | hk
  · exact ⟨rfl, rfl⟩
  · exact ⟨rfl, rfl⟩
  · simp [hmark] at ht
  · simp only [List.mem_cons, List.not_mem_nil, or_false] at hk
    rcases ht with ht | ht <;> simp [ht] at hk

/-- A closing tag behind a comment is a token. -/
theorem Steps.closeTag (h : Steps m ts m') (hm : m.readsCode = true) (hne : Source.text ts ≠ [])
    (htag : ['?', '>'] <+: m.rest) : ['?', '>'] <+: Source.text ts := by
  obtain ⟨more, hmore⟩ := htag
  cases h with
  | refl => exact absurd rfl hne
  | next hn hrest =>
    rw [next_of_readsCode hm hmore.symm fun _ _ _ => by decide] at hn
    cases hn
    rw [text_cons]
    refine List.IsPrefix.trans ?_ (List.prefix_append _ _)
    show ['?', '>'] <+: (Source.closeTag more).1
    unfold Source.closeTag
    split <;> exact ⟨_, rfl⟩

/-- Behind text outside code, code is opened by the same tag. -/
theorem Steps.tag (hn : m.next = .ok (some (t, k))) (h : Steps k ts m') (hs : m.stack = []) (ho : m.outside = true)
    (hk : t.kind = .other) (hend : m'.outside = false) : Tagged k.rest (Source.text ts) := by
  obtain ⟨hstack, houtside, hrest⟩ := next_inline hn hs ho hk
  cases h with
  | refl =>
    rw [houtside] at hend
    cases hend
  | next hn' hsteps =>
    have hne : k.rest ≠ [] := by
      rw [← (next_reads hn').text]
      simp [(next_reads hn').ne_nil]
    have htag : (openTag k.rest).isSome = true := by
      rw [hrest] at hne ⊢
      exact (inlineText_rest m.rest).resolve_left hne
    obtain ⟨cut, hcut⟩ := Option.isSome_iff_exists.1 htag
    have hread := next_of_outside hstack houtside hne
    rw [hn'] at hread
    unfold readOutside at hread
    rw [hcut] at hread
    cases hread
    exact .inr ⟨cut.1, cut.2, _, hcut, openTag_cut hcut hsteps.front⟩

theorem headIs_of_prefix {p : Char → Bool} {a b : List Char} (h : b <+: a) (hb : b ≠ []) : headIs p b = headIs p a := by
  obtain ⟨z, rfl⟩ := h
  cases b with
  | nil => exact absurd rfl hb
  | cons c rest => rfl

/-- A word of code is in a token as a whole. -/
theorem Steps.word (h : Steps m ts m') (hm : m.readsCode = true) (hne : Source.text ts ≠ [])
    (hstart : headIs isNameStart m.rest = true) :
    (Source.text ts).takeWhile isNameChar = m.rest.takeWhile isNameChar := by
  cases h with
  | refl => exact absurd rfl hne
  | @next _ k _ t ts hn hsteps =>
    obtain ⟨c, rest, hrest⟩ := List.exists_cons_of_ne_nil (show m.rest ≠ [] by
      intro hnil
      rw [hnil] at hstart
      cases hstart)
    rw [hrest] at hstart ⊢
    have hc : isNameStart c = true := hstart
    have hbrace : c ≠ '}' := by
      rintro rfl
      cases hc
    rw [next_of_readsCode hm hrest fun _ _ _ => hbrace] at hn
    obtain ⟨r, hr, rfl, hafter⟩ := readCode_token hn
    rw [readCode_of_nameStart _ _ _ hc] at hr
    cases hr
    have hfront := hsteps.front
    rw [hafter] at hfront
    have hstop := headIs_dropWhile isNameChar (c :: rest)
    have hsegments : headIs isNameChar ((nameSegments ((c :: rest).dropWhile isNameChar)).1 ++ Source.text ts) = false :=
      headIs_cut (front_cut (nameSegments_append _) hfront) hstop
    rw [text_cons]
    simp only [readWord, Reading.plain, List.append_assoc]
    exact takeWhile_swap hsegments

theorem enumDeclares_congr {a b : List Char} (hblank : headIs isBlank b = headIs isBlank a)
    (hstart : headIs isNameStart (b.dropWhile isBlank) = headIs isNameStart (a.dropWhile isBlank))
    (hword : headIs isNameStart (a.dropWhile isBlank) = true →
      (b.dropWhile isBlank).takeWhile isNameChar = (a.dropWhile isBlank).takeWhile isNameChar) :
    enumDeclares b = enumDeclares a := by
  simp only [enumDeclares, hblank, hstart]
  cases hs : headIs isNameStart (a.dropWhile isBlank) with
  | false => simp
  | true => rw [hword hs]

/-- The step that reads white space. -/
theorem next_of_blank {c : Char} {rest : List Char} (hm : m.readsCode = true) (hrest : m.rest = c :: rest)
    (hc : isBlank c = true) : m.next = .ok (some (⟨.whitespace, c :: rest.takeWhile isBlank⟩,
      m.pass ⟨.whitespace, c :: rest.takeWhile isBlank⟩ (rest.dropWhile isBlank) m.stack none)) := by
  have hbrace : c ≠ '}' := by
    rintro rfl
    cases hc
  rw [next_of_readsCode hm hrest fun _ _ _ => hbrace]
  unfold Machine.readCode
  rw [readCode_of_blank _ _ hc]
  simp only [Reading.plain, Bool.or_false]
  rfl

/-- The word behind `enum` is the same, unless only blanks are left. -/
theorem Steps.enumCut (h : Steps m ts m') (hm : m.readsCode = true) : EnumCut m.rest (Source.text ts) := by
  by_cases hall : ∀ c ∈ Source.text ts, isBlank c = true
  · exact .inr hall
  have hne : Source.text ts ≠ [] := by
    intro hnil
    simp [hnil] at hall
  have hhead : headIs isBlank (Source.text ts) = headIs isBlank m.rest := headIs_of_prefix h.front hne
  refine .inl ?_
  cases hblank : headIs isBlank m.rest with
  | false => simp [enumDeclares, hhead, hblank]
  | true =>
    obtain ⟨c, rest, hrest⟩ := List.exists_cons_of_ne_nil (show m.rest ≠ [] by
      intro hnil
      rw [hnil] at hblank
      cases hblank)
    rw [hrest] at hblank
    have hc : isBlank c = true := hblank
    cases h with
    | refl => exact absurd rfl hne
    | @next _ k _ t ts hn hsteps =>
      rw [next_of_blank hm hrest hc] at hn
      cases hn
      have hcode := readsCode_of_pass hm ⟨.whitespace, c :: rest.takeWhile isBlank⟩ (rest.dropWhile isBlank)
      have hfront : Source.text ts <+: rest.dropWhile isBlank := hsteps.front
      have hstop : headIs isBlank (Source.text ts) = false := headIs_cut hfront (headIs_dropWhile _ _)
      have hblanks : ∀ x ∈ c :: rest.takeWhile isBlank, isBlank x = true := by
        intro x hx
        rcases List.mem_cons.1 hx with rfl | hx
        · exact hc
        · exact List.mem_takeWhile_imp hx
      have hdrop : (Source.text (⟨.whitespace, c :: rest.takeWhile isBlank⟩ :: ts)).dropWhile isBlank = Source.text ts :=
        dropWhile_append_stop hblanks hstop
      have hdrop' : m.rest.dropWhile isBlank = rest.dropWhile isBlank := by rw [hrest, List.dropWhile_cons_of_pos hc]
      have hmore : Source.text ts ≠ [] := by
        intro hnil
        rw [text_cons, hnil, List.append_nil] at hall
        exact hall hblanks
      refine enumDeclares_congr hhead ?_ fun hstart => ?_
      · rw [hdrop, hdrop', headIs_of_prefix hfront hmore]
      · rw [hdrop'] at hstart
        rw [hdrop, hdrop']
        exact hsteps.word hcode hmore hstart

/-- **The tokens that follow have what a step asks for.** -/
theorem Steps.cuttable (hn : m.next = .ok (some (t, k))) (h : Steps k ts m') (hs : m'.stack = [])
    (ho : m'.outside = false) : m.Cuttable t k (Source.text ts) where
  front := h.front
  opens hk hopen := h.opener hs hk hopen
  mark hm hkind := by
    refine h.text_ne_nil ?_ hs
    cases next_move hn with
    | outside hs => simp [readsText, hs] at hm
    | @code c rest r hcode =>
      unfold readsText at hm
      unfold readsCode at hcode
      cases hstack : m.stack <;> simp_all
    | closing hs => simp [readsText, hs, Level.isLiteral] at hm
    | opening => exact List.cons_ne_nil _ _
    | text => cases hkind
  comment hm hkind hne htag := by
    refine h.closeTag (next_readsCode hm hn (fun c rest r hr heq => ?_) (by simp [hkind])) hne htag
    exact readCode_insignificant hr (by simp [Token.significant, ← heq, hkind])
  tag hstack houtside hkind := h.tag hn hstack houtside hkind ho
  enum hkind := h.enumCut (next_word hn hkind)

/-! ### Runs -/

theorem Steps.eq_nil_of_text (h : Steps m ts m') (htext : Source.text ts = []) : ts = [] := by
  cases h with
  | refl => rfl
  | next hn _ =>
    rw [text_cons, List.append_eq_nil_iff] at htext
    exact absurd htext.1 (next_reads hn).ne_nil

/-- White space at the end is read as it is, whatever the last significant token was. -/
theorem Steps.blanks (h : Steps m ts m') (hm : m.readsCode = true) (hs : m'.stack = [])
    (hall : ∀ c ∈ Source.text ts, isBlank c = true) (last : Option Token) : (∀ t ∈ ts, t.kind = .whitespace) ∧
      ∃ n, Steps {m.withRest (Source.text ts) with last := last} ts n ∧ n.rest = [] ∧ n.stack = [] := by
  cases h with
  | refl => exact ⟨by simp, _, .refl _, rfl, hs⟩
  | @next _ k _ t ts hn hsteps =>
    obtain ⟨c, rest, hrest⟩ := List.exists_cons_of_ne_nil (show m.rest ≠ [] by
      rw [← (next_reads hn).text]
      simp [(next_reads hn).ne_nil])
    have htext := (next_reads hn).text
    obtain ⟨d, more, ht⟩ := List.exists_cons_of_ne_nil (next_reads hn).ne_nil
    rw [hrest, ht, List.cons_append, List.cons.injEq] at htext
    obtain ⟨rfl, -⟩ := htext
    have hc : isBlank d = true := hall d (by simp [ht])
    rw [next_of_blank hm hrest hc] at hn
    cases hn
    have hfront : Source.text ts <+: rest.dropWhile isBlank := hsteps.front
    have hnil : Source.text ts = [] := by
      have hstop : headIs isBlank (Source.text ts) = false := headIs_cut hfront (headIs_dropWhile _ _)
      cases hts : Source.text ts with
      | nil => rfl
      | cons x xs =>
        rw [hts] at hstop
        exact absurd (hall x (by simp [hts])) (by simpa [headIs] using hstop)
    obtain rfl := hsteps.eq_nil_of_text hnil
    cases hsteps
    have hall : ∀ x ∈ rest.takeWhile isBlank, isBlank x = true := fun x hx => List.mem_takeWhile_imp hx
    have hagain := next_of_blank (m := {m.withRest (d :: rest.takeWhile isBlank) with last := last}) hm rfl hc
    rw [List.takeWhile_eq_self_iff.2 hall, List.dropWhile_eq_nil_iff.2 hall] at hagain
    rw [text_cons, text_nil, List.append_nil]
    exact ⟨by simp, _, .next hagain (.refl _), rfl, hs⟩

/-- **A run that ends in code with nothing open is repeated on the text of its tokens alone.** Where only white space
follows on a keyword `enum`, that becomes a name. -/
theorem Steps.repeated (h : Steps m ts m') (hm : m.Sound) (hs : m'.stack = []) (ho : m'.outside = false) :
    ∃ ts' n, Steps (m.withRest (Source.text ts)) ts' n ∧ n.rest = [] ∧ n.stack = [] ∧
      (ts' = ts ∨ ∃ front word blanks, ts = front ++ ⟨.keyword .enumWord, word⟩ :: blanks ∧
        (∀ t ∈ blanks, t.kind = .whitespace) ∧ ts' = front ++ ⟨.identifier, word⟩ :: blanks) := by
  induction h with
  | refl m => exact ⟨[], m.withRest [], .refl _, rfl, hs, .inl rfl⟩
  | @next m k m' t ts hn hsteps ih =>
    rcases next_cut hm hn (hsteps.cuttable hn hs ho) with hnext | ⟨hkind, hblank, hnext⟩
    · obtain ⟨ts', n, hrun, hrest, hstack, hts⟩ := ih (hm.next hn) hs ho
      refine ⟨t :: ts', n, .next hnext hrun, hrest, hstack, ?_⟩
      rcases hts with rfl | ⟨front, word, blanks, rfl, hblanks, rfl⟩
      · exact .inl rfl
      · exact .inr ⟨t :: front, word, blanks, rfl, hblanks, rfl⟩
    · have hcode := next_word hn (by simp [hkind])
      obtain ⟨hblanks, n, hrun, hrest, hstack⟩ := hsteps.blanks hcode hs hblank (some ⟨.identifier, t.text⟩)
      refine ⟨⟨.identifier, t.text⟩ :: ts, n, .next hnext hrun, hrest, hstack, .inr ⟨[], t.text, ts, ?_, hblanks, rfl⟩⟩
      rw [List.nil_append, ← hkind]

end Machine

end PluginShading.Source
