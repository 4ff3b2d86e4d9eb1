import PluginShading.Proofs.Source.Reading

/-!
Runs of the lexer, step by step.

A machine that runs from the start of a source is sound: the literals on its stack were opened by a quote
or a label, and the lowest level is a literal (`Sound.next`). `Steps m ts m'` is a run cut short, which is
what a run is put together from (`Steps.run`).
-/
namespace PluginShading.Source

/-- Runs on fixed sources are compared with what is expected of them. -/
instance decidableEqExcept {ε α : Type} [DecidableEq ε] [DecidableEq α] : DecidableEq (Except ε α)
  | .ok x, .ok y => decidable_of_iff (x = y) ⟨congrArg Except.ok, Except.ok.inj⟩
  | .error e, .error f => decidable_of_iff (e = f) ⟨congrArg Except.error, Except.error.inj⟩
  | .ok _, .error _ => isFalse nofun
  | .error _, .ok _ => isFalse nofun

/-! ### Sound machines -/

def Level.isLiteral : Level → Bool
  | .interpolation _ _ => false
  | _ => true

/-- The level is one that a token of code can open. -/
def Level.Sound : Level → Prop
  | .quoted quote _ => isQuote quote = true
  | .heredoc label _ => IsLabel label
  | .interpolation _ _ => True

@[simp] theorem Level.isLiteral_count (t : Token) (level : Level) :
    (level.count t).isLiteral = level.isLiteral := by
  unfold Level.count
  split
  · repeat' split
    all_goals rfl
  · rfl

theorem Level.Sound.count {level : Level} (h : level.Sound) (t : Token) : (level.count t).Sound := by
  unfold Level.count
  split
  · repeat' split
    all_goals trivial
  · exact h

/-- The levels are sound, and interpolations are open in literals only. -/
structure Machine.Sound (m : Machine) : Prop where
  levels : ∀ level ∈ m.stack, level.Sound
  ground : ∀ level, m.stack.getLast? = some level → level.isLiteral = true

theorem Machine.sound_of_stack_eq_nil {m : Machine} (h : m.stack = []) : m.Sound := by
  constructor <;> simp [h]

theorem Machine.sound_start (source : List Char) : (Machine.start source).Sound :=
  sound_of_stack_eq_nil rfl

theorem readCode_opens {last : Option Token} {line : Nat} {c : Char} {rest : List Char}
    {r : Reading} {level : Level} (h : readCode last line c rest = .ok r)
    (hl : r.opens = some level) : level.Sound ∧ level.isLiteral = true := by
  rcases readCode_opens_cases h hl with ⟨s, hquote, -, -, rfl, -⟩ | ⟨more, header, s, -, hheader, -, -, rfl, -⟩
  · exact ⟨isQuote_iff.2 hquote, rfl⟩
  · exact ⟨heredocHeader_isLabel hheader, rfl⟩

/-! ### The text of a literal -/

/-- The error that reports the level as left open. -/
def Level.fault : Level → LexError
  | .quoted _ line => .unterminatedString line
  | .heredoc label line => .unterminatedHeredoc line label
  | .interpolation _ line => .unterminatedInterpolation line

@[simp] theorem Level.fault_count (t : Token) (level : Level) : (level.count t).fault = level.fault := by
  unfold Level.count
  split
  · repeat' split
    all_goals rfl
  · rfl

/-- The next stretch of text of the level, if it is a literal. -/
def Level.stretch : Level → List Char → Option Stretch
  | .quoted quote _, cs => quotedStretch quote cs
  | .heredoc label _, cs => heredocStretch label false false cs
  | .interpolation _ _, _ => none

section Stretch

variable {level : Level} {cs b : List Char} {s : Stretch}

theorem Level.stretch_append (h : level.stretch cs = some s) : s.text ++ s.rest = cs := by
  cases level with
  | quoted => exact quotedStretch_append h
  | heredoc => exact heredocStretch_append h
  | interpolation => cases h

theorem Level.stretch_ne_nil (h : level.stretch cs = some s) (ho : opener cs = none) : s.text ≠ [] := by
  cases level with
  | quoted => exact quotedStretch_ne_nil h ho
  | heredoc => exact heredocStretch_ne_nil h ho
  | interpolation => cases h

theorem Level.stretch_opens (h : level.stretch cs = some s) (hc : s.closed = false) :
    (opener s.rest).isSome = true := by
  cases level with
  | quoted => exact quotedStretch_opens h hc
  | heredoc => exact heredocStretch_opens h hc
  | interpolation => cases h

theorem Level.Sound.stretch_inPlace (hl : level.Sound) (h : level.stretch cs = some s)
    (hb : InPlace s.closed s.rest b) : level.stretch (s.text ++ b) = some {s with rest := b} := by
  cases level with
  | quoted => exact quotedStretch_inPlace hl h hb
  | heredoc => exact heredocStretch_inPlace hl h hb
  | interpolation => cases h

/-- Behind a stretch that ends in a word, no word goes on. -/
theorem Level.Sound.stretch_rest (hl : level.Sound) (h : level.stretch cs = some s) :
    headIs isNameChar s.rest = false ∨ endsInWord s.text = false := by
  cases level with
  | quoted => exact (quotedStretch_rest hl h).imp_right And.right
  | heredoc => exact .inl (heredocStretch_rest h)
  | interpolation => cases h

end Stretch

/-! ### Tokens of the lexer -/

/-- The punctuation that the lexer reads. -/
def isMarkToken (t : Token) : Prop :=
  t.kind = .punctuation → (∃ c, t.text = [c]) ∨ t.text = ['$', '{']

theorem readWord_kind (last : Option Token) (cs : List Char) :
    (readWord last cs).token.kind ∈ [.other, .qualifiedName, .identifier] ∨
      ∃ word, (readWord last cs).token.kind = .keyword word := by
  simp only [readWord, Reading.plain, wordKind]
  repeat' split
  all_goals simp

theorem readCode_isMarkToken {last : Option Token} {line : Nat} {c : Char} {rest : List Char}
    {r : Reading} (h : readCode last line c rest = .ok r) : isMarkToken r.token := by
  intro hk
  rcases readCode_cases h with ⟨-, rfl⟩ | ⟨-, -, rfl⟩ | ht | hk'
  · rcases readWord_kind last (c :: rest) with hk' | ⟨word, hk'⟩ <;> simp [hk] at hk'
  · cases hk
  · exact .inl ⟨c, by rw [ht]⟩
  · simp [hk] at hk'

/-- An identifier is one word. -/
def isWordToken (t : Token) : Prop := t.kind = .identifier → ∀ c ∈ t.text, isNameChar c = true

theorem readCode_isWordToken {last : Option Token} {line : Nat} {c : Char} {rest : List Char}
    {r : Reading} (h : readCode last line c rest = .ok r) : isWordToken r.token := by
  intro hk
  rcases readCode_cases h with ⟨-, rfl⟩ | ⟨-, -, rfl⟩ | ht | hk'
  · have hsegments : (nameSegments ((c :: rest).dropWhile isNameChar)).1 = [] := by
      simp only [readWord, Reading.plain, wordKind] at hk
      split at hk
      · split at hk <;> cases hk
      · rename_i hs
        simpa using hs
    intro x hx
    simp only [readWord, Reading.plain, hsegments, List.append_nil] at hx
    exact List.mem_takeWhile_imp hx
  · cases hk
  · rw [ht] at hk
    cases hk
  · simp [hk] at hk'

namespace Machine

/-- Code is read next: nothing is open and this is no text outside code, or an interpolation is on top. -/
def readsCode (m : Machine) : Bool :=
  match m.stack with
  | [] => !m.outside
  | level :: _ => !level.isLiteral

/-- The text of a literal is read next. -/
def readsText (m : Machine) : Bool :=
  match m.stack with
  | [] => false
  | level :: _ => level.isLiteral

/-- Everything that one step can do. -/
inductive Move (m : Machine) : Token → Machine → Prop
  | outside : m.stack = [] → m.outside = true → Move m m.readOutside.1 m.readOutside.2
  | code {c : Char} {rest : List Char} {r : Reading} :
      m.readsCode = true → m.rest = c :: rest →
      (∀ line below, m.stack = .interpolation 0 line :: below → c ≠ '}') →
      Source.readCode m.last m.line c rest = .ok r →
      Move m r.token {m.pass r.token r.rest m.stack r.opens with outside := m.outside || r.closesCode}
  | closing {line : Nat} {below : List Level} {rest : List Char} :
      m.stack = .interpolation 0 line :: below → m.rest = '}' :: rest →
      Move m ⟨.punctuation, ['}']⟩ (m.pass ⟨.punctuation, ['}']⟩ rest below none)
  | opening {level : Level} {below : List Level} {cut : List Char × List Char} :
      m.stack = level :: below → level.isLiteral = true → opener m.rest = some cut →
      Move m ⟨.punctuation, cut.1⟩
        (m.pass ⟨.punctuation, cut.1⟩ cut.2 (level :: below) (some (.interpolation 0 m.line)))
  | text {level : Level} {below : List Level} {s : Stretch} :
      m.stack = level :: below → level.isLiteral = true →
      Move m ⟨.other, s.text⟩
        (m.pass ⟨.other, s.text⟩ s.rest (if s.closed then below else level :: below) none)

theorem move_of_readCode {m m' : Machine} {t : Token} {c : Char} {rest : List Char} (hm : m.readsCode = true)
    (hrest : m.rest = c :: rest) (hc : ∀ line below, m.stack = .interpolation 0 line :: below → c ≠ '}')
    (h : m.readCode c rest = .ok (some (t, m'))) : Move m t m' := by
  unfold Machine.readCode at h
  split at h
  · cases h
  · rename_i r hr
    cases h
    exact .code hm hrest hc hr

theorem next_of_literal {m : Machine} {level : Level} {below : List Level} (hs : m.stack = level :: below)
    (hl : level.isLiteral = true) : m.next = m.readText level below (level.stretch m.rest) level.fault := by
  unfold Machine.next
  rw [hs]
  cases level with
  | interpolation => cases hl
  | _ => rfl

theorem next_of_opener {m : Machine} {cut : List Char × List Char} (hm : m.readsText = true)
    (ho : opener m.rest = some cut) :
    m.next = .ok (some (⟨.punctuation, cut.1⟩,
      m.pass ⟨.punctuation, cut.1⟩ cut.2 m.stack (some (.interpolation 0 m.line)))) := by
  unfold readsText at hm
  cases hs : m.stack with
  | nil => simp [hs] at hm
  | cons level below =>
    rw [next_of_literal hs (by simpa [hs] using hm)]
    unfold Machine.readText
    rw [ho]

theorem next_of_stretch {m : Machine} {level : Level} {below : List Level} {s : Stretch}
    (hs : m.stack = level :: below) (hl : level.isLiteral = true) (ho : opener m.rest = none)
    (h : level.stretch m.rest = some s) :
    m.next = .ok (some (⟨.other, s.text⟩,
      m.pass ⟨.other, s.text⟩ s.rest (if s.closed then below else m.stack) none)) := by
  rw [next_of_literal hs hl]
  unfold Machine.readText
  rw [ho, h, hs]

/-- In a literal the mark of an interpolation is read, or a stretch of text. -/
theorem next_text_cases {m m' : Machine} {t : Token} {level : Level} {below : List Level}
    (hs : m.stack = level :: below) (hl : level.isLiteral = true) (h : m.next = .ok (some (t, m'))) :
    (∃ cut, opener m.rest = some cut ∧ t = ⟨.punctuation, cut.1⟩ ∧
      m' = m.pass ⟨.punctuation, cut.1⟩ cut.2 m.stack (some (.interpolation 0 m.line))) ∨
    opener m.rest = none ∧ ∃ s, level.stretch m.rest = some s ∧ t = ⟨.other, s.text⟩ ∧
      m' = m.pass ⟨.other, s.text⟩ s.rest (if s.closed then below else m.stack) none := by
  cases ho : opener m.rest with
  | some cut =>
    rw [next_of_opener (by simp [readsText, hs, hl]) ho] at h
    cases h
    exact .inl ⟨cut, rfl, rfl, rfl⟩
  | none =>
    cases hstretch : level.stretch m.rest with
    | none =>
      rw [next_of_literal hs hl] at h
      unfold Machine.readText at h
      rw [ho, hstretch] at h
      cases h
    | some s =>
      rw [next_of_stretch hs hl ho hstretch] at h
      cases h
      exact .inr ⟨rfl, s, rfl, rfl, rfl⟩

theorem move_of_literal {m m' : Machine} {t : Token} {level : Level} {below : List Level}
    (hs : m.stack = level :: below) (hl : level.isLiteral = true) (h : m.next = .ok (some (t, m'))) :
    Move m t m' := by
  rcases next_text_cases hs hl h with ⟨cut, ho, rfl, rfl⟩ | ⟨-, s, -, rfl, rfl⟩
  · rw [hs]
    exact .opening hs hl ho
  · rw [hs]
    exact .text hs hl

theorem next_move {m m' : Machine} {t : Token} (h : m.next = .ok (some (t, m'))) : Move m t m' := by
  have hnext := h
  unfold Machine.next at h
  split at h
  · cases h
  · rename_i c rest hs hrest
    split at h
    · rename_i ho
      simp only [Except.ok.injEq, Option.some.injEq] at h
      have hmove := Move.outside hs ho
      rwa [h] at hmove
    · rename_i ho
      exact move_of_readCode (by simpa [readsCode, hs] using ho) hrest (fun _ _ hs' => by simp [hs] at hs') h
  · cases h
  · rename_i depth line below c rest hs hrest
    split at h
    · rename_i hclose
      obtain ⟨rfl, rfl⟩ := hclose
      cases h
      exact .closing hs hrest
    · rename_i hopen
      refine move_of_readCode (by simp [readsCode, hs, Level.isLiteral]) hrest (fun line' below' hs' hc => ?_) h
      rw [hs] at hs'
      cases hs'
      exact hopen ⟨rfl, hc⟩
  · rename_i hs
    exact move_of_literal hs rfl hnext
  · rename_i hs
    exact move_of_literal hs rfl hnext

theorem next_of_readsCode {m : Machine} {c : Char} {rest : List Char} (hm : m.readsCode = true) (hrest : m.rest = c :: rest)
    (hc : ∀ line below, m.stack = .interpolation 0 line :: below → c ≠ '}') : m.next = m.readCode c rest := by
  obtain ⟨text, line, outside, stack, last⟩ := m
  cases hrest
  cases stack with
  | nil =>
    cases outside with
    | false => rfl
    | true => cases hm
  | cons level below =>
    cases level with
    | interpolation depth start =>
      unfold Machine.next
      exact if_neg fun h => hc start below (by rw [h.1]) h.2
    | _ => cases hm

/-- What a step comes to on a fixed text is read off its value. -/
theorem exists_next {m : Machine} {α : Type} {f : Token × Machine → α} {x : α} (h : m.next.toOption.join.map f = some x) :
    ∃ t k, m.next = .ok (some (t, k)) ∧ f (t, k) = x := by
  obtain ⟨⟨t, k⟩, hk, hx⟩ := Option.map_eq_some_iff.1 h
  refine ⟨t, k, ?_, hx⟩
  cases hnext : m.next with
  | error e => simp [hnext, Except.toOption] at hk
  | ok read => simpa [hnext, Except.toOption] using hk

/-- What holds of every token of code, of text and of the marks of interpolations holds of every
token. -/
theorem next_token {P : Token → Prop} {m m' : Machine} {t : Token}
    (hcode : ∀ last line c rest r, Source.readCode last line c rest = .ok r → P r.token)
    (htext : ∀ kind text, kind = .other ∨ kind = .openTag → P ⟨kind, text⟩)
    (hmark : ∀ mark, mark ∈ [['{'], ['$', '{'], ['}']] → P ⟨.punctuation, mark⟩)
    (h : m.next = .ok (some (t, m'))) : P t := by
  cases next_move h with
  | outside =>
    unfold readOutside
    split
    · exact htext _ _ (.inr rfl)
    · exact htext _ _ (.inl rfl)
  | code _ _ _ hr => exact hcode _ _ _ _ _ hr
  | closing => exact hmark _ (by simp)
  | opening _ _ ho =>
    apply hmark
    unfold opener at ho
    split at ho <;> cases ho <;> simp
  | text => exact htext _ _ (.inl rfl)

theorem next_isMarkToken {m m' : Machine} {t : Token} (h : m.next = .ok (some (t, m'))) :
    isMarkToken t := by
  refine next_token (fun _ _ _ _ _ => readCode_isMarkToken) (fun kind text hk hp => ?_)
    (fun mark hm _ => ?_) h
  · rcases hk with rfl | rfl <;> cases hp
  · simp only [List.mem_cons, List.not_mem_nil, or_false] at hm
    rcases hm with rfl | rfl | rfl
    · exact .inl ⟨'{', rfl⟩
    · exact .inr rfl
    · exact .inl ⟨'}', rfl⟩

theorem next_isWordToken {m m' : Machine} {t : Token} (h : m.next = .ok (some (t, m'))) :
    isWordToken t := by
  refine next_token (fun _ _ _ _ _ => readCode_isWordToken) (fun kind text hk hp => ?_)
    (fun mark _ hp => ?_) h
  · rcases hk with rfl | rfl <;> cases hp
  · cases hp

theorem next_last {m m' : Machine} {t : Token} (h : m.next = .ok (some (t, m'))) :
    m'.last = if t.significant then some t else m.last := by
  cases next_move h with
  | outside =>
    unfold readOutside
    split <;> rfl
  | _ => rfl

theorem Sound.pass {m : Machine} {t : Token} {rest : List Char} {left : List Level}
    {opened : Option Level} (hleft : ∀ level ∈ left, level.Sound)
    (hopened : ∀ level, opened = some level → level.Sound)
    (hground : ∀ level, left.getLast? = some level → level.isLiteral = true)
    (hfirst : ∀ level, left = [] → opened = some level → level.isLiteral = true) (outside : Bool) :
    Sound {m.pass t rest left opened with outside := outside} := by
  constructor
  · intro level h
    rcases List.mem_append.1 h with h | h
    · exact hopened level (by simpa using h)
    · obtain ⟨old, ho, rfl⟩ := List.mem_map.1 h
      exact (hleft old ho).count t
  · intro level h
    have h : (opened.toList ++ left.map (Level.count t)).getLast? = some level := h
    rw [List.getLast?_append, List.getLast?_map] at h
    cases hl : left.getLast? with
    | none =>
      rw [hl] at h
      rw [List.getLast?_eq_none_iff] at hl
      exact hfirst level hl (by cases opened <;> simp_all)
    | some old =>
      rw [hl] at h
      have h : old.count t = level := by simpa using h
      rw [← h, Level.isLiteral_count]
      exact hground old hl

theorem Sound.below {m : Machine} {level : Level} {below : List Level} (hm : m.Sound)
    (hs : m.stack = level :: below) :
    (∀ l ∈ below, l.Sound) ∧ ∀ l, below.getLast? = some l → l.isLiteral = true := by
  refine ⟨fun l hl => hm.levels l (by rw [hs]; exact List.mem_cons_of_mem _ hl), fun l hl => ?_⟩
  apply hm.ground
  rw [hs, List.getLast?_cons, hl]
  rfl

theorem Sound.next {m : Machine} {t : Token} {after : Machine} (hm : m.Sound)
    (h : m.next = .ok (some (t, after))) : after.Sound := by
  cases next_move h with
  | outside hs =>
    unfold readOutside
    split
    all_goals exact sound_of_stack_eq_nil (by simp [Machine.pass, hs])
  | code _ _ _ hr =>
    exact .pass hm.levels (fun level hl => (readCode_opens hr hl).1) hm.ground
      (fun level _ hl => (readCode_opens hr hl).2) _
  | closing hs _ =>
    have hbelow := hm.below hs
    exact .pass hbelow.1 (by simp) hbelow.2 (by simp) m.outside
  | opening hs _ _ =>
    have hlevels := hm.levels
    have hground := hm.ground
    rw [hs] at hlevels hground
    exact .pass hlevels (by rintro level ⟨⟩; trivial) hground (by simp) m.outside
  | @text level below s hs _ =>
    have hbelow := hm.below hs
    have hlevels := hm.levels
    have hground := hm.ground
    rw [hs] at hlevels hground
    cases s.closed with
    | true => exact .pass hbelow.1 (by simp) hbelow.2 (by simp) m.outside
    | false => exact .pass hlevels (by simp) hground (by simp) m.outside

/-! ### Runs cut short -/

/-- Reading these tokens leads from one machine to the other. -/
inductive Steps : Machine → List Token → Machine → Prop
  | refl (m : Machine) : Steps m [] m
  | next {m after m' : Machine} {t : Token} {ts : List Token} :
      m.next = .ok (some (t, after)) → Steps after ts m' → Steps m (t :: ts) m'

namespace Steps

variable {m m' : Machine} {ts : List Token}

theorem text (h : Steps m ts m') : Source.text ts ++ m'.rest = m.rest := by
  induction h with
  | refl => rfl
  | next hn _ ih => rw [Source.text_cons, List.append_assoc, ih, (next_reads hn).text]

theorem forall_tokens {P : Token → Prop}
    (hP : ∀ (m m' : Machine) (t : Token), m.next = .ok (some (t, m')) → P t) (h : Steps m ts m') :
    ∀ t ∈ ts, P t := by
  induction h with
  | refl => exact fun t ht => absurd ht List.not_mem_nil
  | next hn _ ih =>
    intro t ht
    rcases List.mem_cons.1 ht with rfl | ht
    · exact hP _ _ _ hn
    · exact ih t ht

/-- At the end of the text nothing more is read. -/
theorem eq_nil (h : Steps m ts m') (hr : m.rest = []) : ts = [] ∧ m' = m := by
  cases h with
  | refl => exact ⟨rfl, rfl⟩
  | next hn _ =>
    have htext := (next_reads hn).text
    rw [hr, List.append_eq_nil_iff] at htext
    exact absurd htext.1 (next_reads hn).ne_nil

theorem sound (h : Steps m ts m') (hm : m.Sound) : m'.Sound := by
  induction h with
  | refl => exact hm
  | next hn _ ih => exact ih (hm.next hn)

theorem append {m'' : Machine} {us : List Token} (h : Steps m ts m') (h' : Steps m' us m'') :
    Steps m (ts ++ us) m'' := by
  induction h with
  | refl => exact h'
  | next hn _ ih => exact .next hn (ih h')

/-- A run through some tokens and then others passes a machine in between. -/
theorem split {a b : List Token} (h : Steps m (a ++ b) m') : ∃ k, Steps m a k ∧ Steps k b m' := by
  induction a generalizing m with
  | nil => exact ⟨m, .refl m, h⟩
  | cons t rest ih =>
    cases h with
    | next hn h =>
      obtain ⟨k, hk, hk'⟩ := ih h
      exact ⟨k, .next hn hk, hk'⟩

/-- Reading the same tokens leads to one machine only. -/
theorem unique {m'' : Machine} (h : Steps m ts m') (h' : Steps m ts m'') : m' = m'' := by
  induction h with
  | refl =>
    cases h'
    rfl
  | next hn _ ih =>
    cases h' with
    | next hn' h' =>
      rw [hn, Except.ok.injEq, Option.some.injEq, Prod.mk.injEq] at hn'
      exact ih (hn'.2 ▸ h')

theorem run (h : Steps m ts m') : m.run = (ts ++ m'.run.1, m'.run.2) := by
  induction h with
  | refl => rfl
  | next hn _ ih =>
    rw [Machine.run]
    split
    · rename_i e he
      rw [hn] at he
      cases he
    · rename_i he
      rw [hn] at he
      cases he
    · rename_i t after he
      rw [hn] at he
      cases he
      simp [ih]

end Steps

/-- A run that ends well is one through all its tokens. -/
theorem steps_of_run {m : Machine} (h : m.run.2 = none) :
    ∃ m', Steps m m.run.1 m' ∧ m'.next = .ok none := by
  fun_induction run m with
  | case1 => simp at h
  | case2 m hn => exact ⟨m, .refl m, hn⟩
  | case3 m t after hn _ tail ih =>
    obtain ⟨m', hm', hend⟩ := ih h
    exact ⟨m', .next hn hm', hend⟩

theorem run_of_next_eq_none {m : Machine} (h : m.next = .ok none) : m.run = ([], none) := by
  rw [run]
  split
  · rename_i e he
    rw [h] at he
    cases he
  · rfl
  · rename_i t after he
    rw [h] at he
    cases he

/-- A run ends well where the text does, with nothing left open. -/
theorem next_eq_none_iff {m : Machine} : m.next = .ok none ↔ m.rest = [] ∧ m.stack = [] := by
  constructor
  · intro h
    refine ⟨rest_eq_nil_of_next h, ?_⟩
    have hrest := rest_eq_nil_of_next h
    unfold next at h
    split at h
    · assumption
    · rename_i hc
      rw [hrest] at hc
      cases hc
    · cases h
    · rename_i hc
      rw [hrest] at hc
      cases hc
    all_goals
      unfold readText at h
      repeat' split at h
      all_goals cases h
  · rintro ⟨hrest, hstack⟩
    unfold next
    rw [hrest, hstack]

end Machine

theorem tokenize_eq_ok_iff {source : List Char} {ts : List Token} :
    tokenize source = .ok ts ↔
      ∃ m, Machine.Steps (Machine.start source) ts m ∧ m.rest = [] ∧ m.stack = [] := by
  constructor
  · intro h
    unfold tokenize at h
    split at h
    · rename_i us hrun
      cases h
      obtain ⟨m, hm, hend⟩ := Machine.steps_of_run (m := Machine.start source) (by rw [hrun])
      rw [hrun] at hm
      exact ⟨m, hm, Machine.next_eq_none_iff.1 hend⟩
    · cases h
  · rintro ⟨m, hm, hend⟩
    have hrun := hm.run
    rw [Machine.run_of_next_eq_none (Machine.next_eq_none_iff.2 hend), List.append_nil] at hrun
    unfold tokenize
    rw [hrun]

end PluginShading.Source
