import Mathlib
import PluginShading.Proofs.Source.Nesting

/-!
Where the lexer gives up.

An error names a construct that is left open, and the line on which it begins. Every level on the stack was
opened further back in the run and remembers the line (`Steps.opened`), so the error of a run leads back to a
machine that stood in front of the construct (`exists_begins`). All that opened behind it was read to its end. For
the lexer, that is: what it takes for the end of an interpolation may belong to a closure in it (`exists_fault`).
-/
namespace PluginShading.Source

/-! ### What an error names -/

/-- The first line of a heredoc with this label: blanks, the label with or without quotes, the end of the line. -/
def OpensHeredoc (label cs : List Char) : Prop :=
  ∃ indent quote tail rest, cs = '<' :: '<' :: '<' :: (indent ++ (quote ++ (label ++ (quote ++ (tail ++ rest))))) ∧
    (∀ c ∈ indent, isIndent c = true) ∧ (quote = [] ∨ quote = ['\''] ∨ quote = ['"']) ∧
    (headIs isNameStart label = true ∧ ∀ c ∈ label, isNameChar c = true) ∧ (tail = ['\n'] ∨ tail = ['\r', '\n'])

namespace LexError

/-- The construct that the error names is in front of the text. -/
def Opens : LexError → List Char → Prop
  | unterminatedString _, cs => ∃ quote ∈ ['\'', '"', '\u0060'], [quote] <+: cs
  | unterminatedComment _, cs => ['/', '*'] <+: cs
  | unterminatedHeredoc _ label, cs => OpensHeredoc label cs
  | invalidHeredoc _, cs => ['<', '<', '<'] <+: cs ∧ ∀ label, ¬ OpensHeredoc label cs
  | unterminatedInterpolation _, cs => ['{', '$'] <+: cs ∨ ['$', '{'] <+: cs

/-- The construct stands in the text of a literal, and not in code. -/
def inText : LexError → Bool
  | unterminatedInterpolation _ => true
  | _ => false

end LexError

theorem lineEnd_cases {cs : List Char} {cut : List Char × List Char} (h : lineEnd cs = some cut) :
    cut.1 = ['\n'] ∨ cut.1 = ['\r', '\n'] := by
  unfold lineEnd at h
  split at h <;> cases h
  · exact .inr rfl
  · exact .inl rfl

theorem opensHeredoc_of_header {cs : List Char} {header : HeredocHeader} (h : heredocHeader cs = some header) :
    OpensHeredoc header.label ('<' :: '<' :: '<' :: cs) := by
  simp only [heredocHeader] at h
  split at h
  · rename_i hq
    obtain ⟨cut, hcut, rfl⟩ := Option.map_eq_some_iff.1 h
    simp only [Bool.and_eq_true, List.isPrefixOf_iff_prefix] at hq
    obtain ⟨hstart, after, hafter⟩ := hq
    have hend := lineEnd_append hcut
    rw [← hafter, List.drop_left] at hend
    have hquote := labelQuote_append (cs.dropWhile isIndent)
    refine ⟨cs.takeWhile isIndent, (labelQuote (cs.dropWhile isIndent)).1, cut.1, cut.2, ?_,
      fun c hc => List.mem_takeWhile_imp hc, labelQuote_fst _, ⟨?_, fun c hc => List.mem_takeWhile_imp hc⟩,
      lineEnd_cases hcut⟩
    · rw [hend, hafter, List.takeWhile_append_dropWhile, hquote, List.takeWhile_append_dropWhile]
    · generalize (labelQuote (cs.dropWhile isIndent)).2 = word at hstart ⊢
      cases word with
      | nil => cases hstart
      | cons c rest =>
        have hc : isNameStart c = true := hstart
        simp [isNameChar_of_isNameStart hc, headIs, hc]
  · cases h

/-- A first line with a label is read as one. -/
theorem heredocHeader_ne_none {label cs : List Char} (h : OpensHeredoc label ('<' :: '<' :: '<' :: cs)) :
    heredocHeader cs ≠ none := by
  obtain ⟨indent, quote, tail, rest, hcs, hindent, hquote, ⟨hstart, hword⟩, htail⟩ := h
  simp only [List.cons.injEq, true_and] at hcs
  have hend : headIs isNameChar (quote ++ (tail ++ rest)) = false := by
    rcases hquote with rfl | rfl | rfl <;> rcases htail with rfl | rfl <;> rfl
  have hlabel : ∀ x, headIs isNameStart (label ++ x) = true := by
    intro x
    cases label with
    | nil => cases hstart
    | cons c more => exact hstart
  have hopen : headIs isIndent (quote ++ (label ++ (quote ++ (tail ++ rest)))) = false := by
    rcases hquote with rfl | rfl | rfl
    · cases label with
      | nil => cases hstart
      | cons c more => exact isIndent_of_isNameChar (hword c List.mem_cons_self)
    · rfl
    · rfl
  have hline : lineEnd (tail ++ rest) = some (tail, rest) := by
    rcases htail with rfl | rfl <;> rfl
  simp only [heredocHeader, hcs]
  rw [takeWhile_append_stop hindent hopen, dropWhile_append_stop hindent hopen,
    labelQuote_append_label hquote (hlabel _)]
  simp only []
  rw [takeWhile_append_stop hword hend, dropWhile_append_stop hword hend, hlabel]
  simp [hline]

/-- The braces that are open in the level, as the lexer counts them. -/
def Level.depth : Level → Nat
  | .interpolation depth _ => depth
  | _ => 0

theorem Level.depth_of_isLiteral {level : Level} (h : level.isLiteral = true) : level.depth = 0 := by
  cases level <;> first | rfl | cases h

theorem Level.depth_count_le (t : Token) (level : Level) : (level.count t).depth ≤ t.count level.depth := by
  cases level with
  | interpolation depth line =>
    rw [count_interpolation]
    exact le_rfl
  | _ => exact Nat.zero_le _

theorem Level.depth_behind_le (ts : List Token) (level : Level) : (level.behind ts).depth ≤ tally ts level.depth := by
  induction ts generalizing level with
  | nil => exact le_rfl
  | cons t rest ih => exact (ih (level.count t)).trans (tally_mono rest (level.depth_count_le t))

theorem Token.count_le (t : Token) (n : Nat) : t.count n ≤ n + 1 := by
  unfold Token.count
  split
  · omega
  · split <;> omega

/-! ### Constructs of code -/

theorem readHeredoc_error {line : Nat} {rest : List Char} {e : LexError} (h : readHeredoc line rest = .error e) :
    e.line = line ∧ e.Opens ('<' :: '<' :: '<' :: rest) ∧ e.inText = false := by
  unfold readHeredoc at h
  split at h
  · rename_i hnone
    cases h
    exact ⟨rfl, ⟨⟨rest, rfl⟩, fun label hlabel => heredocHeader_ne_none hlabel hnone⟩, rfl⟩
  · rename_i header hheader
    split at h
    · cases h
      exact ⟨rfl, opensHeredoc_of_header hheader, rfl⟩
    · cases h

/-- The error of a token of code names the construct that the token would be. -/
theorem readCode_error {last : Option Token} {line : Nat} {c : Char} {rest : List Char} {e : LexError}
    (h : readCode last line c rest = .error e) :
    e.line = line ∧ e.Opens (c :: rest) ∧ e.inText = false := by
  unfold readCode at h
  repeat' split at h
  all_goals first
    | exact readHeredoc_error h
    | cases h
  · exact ⟨rfl, ⟨_, rfl⟩, rfl⟩
  · exact ⟨rfl, ⟨'\'', by decide, rest, rfl⟩, rfl⟩
  · rename_i hquote _ _
    refine ⟨rfl, ⟨c, ?_, rest, rfl⟩, rfl⟩
    simp only [Bool.or_eq_true, beq_iff_eq] at hquote
    rcases hquote with rfl | rfl <;> decide

/-- A level that a token of code opens is reported as what the token begins. -/
theorem readCode_opens_fault {last : Option Token} {line : Nat} {c : Char} {rest : List Char} {r : Reading}
    {level : Level} (h : readCode last line c rest = .ok r) (hl : r.opens = some level) :
    level.fault.line = line ∧ level.fault.Opens (c :: rest) ∧ level.fault.inText = false := by
  rcases readCode_opens_cases h hl with ⟨s, hquote, -, -, rfl, -⟩ | ⟨more, header, s, hrest, hheader, -, -, rfl, -⟩
  · refine ⟨rfl, ⟨c, ?_, rest, rfl⟩, rfl⟩
    rcases hquote with rfl | rfl <;> decide
  · rw [hrest]
    exact ⟨rfl, opensHeredoc_of_header hheader, rfl⟩

namespace Machine

variable {s m m' k : Machine} {t : Token} {ts us : List Token} {e : LexError} {n : Nat} {top : Level}
  {below : List Level}

/-! ### Where a construct begins -/

/-- The construct that an error names begins where the machine stands. -/
structure Begins (k : Machine) (e : LexError) : Prop where
  line : e.line = k.line
  opens : e.Opens k.rest
  place : if e.inText then k.readsText = true else k.readsCode = true

theorem begins_of_code {c : Char} {rest : List Char} (hm : m.readsCode = true) (hrest : m.rest = c :: rest)
    (h : e.line = m.line ∧ e.Opens (c :: rest) ∧ e.inText = false) : m.Begins e where
  line := h.1
  opens := hrest ▸ h.2.1
  place := by simp [h.2.2, hm]

theorem begins_of_opener {level : Level} {below : List Level} {cut : List Char × List Char}
    (hs : m.stack = level :: below) (hl : level.isLiteral = true) (ho : opener m.rest = some cut) :
    m.Begins (.unterminatedInterpolation m.line) where
  line := rfl
  opens := by
    unfold opener at ho
    split at ho
    · rename_i rest hrest
      exact .inl ⟨rest, hrest.symm⟩
    · rename_i rest hrest
      exact .inr ⟨rest, hrest.symm⟩
    · cases ho
  place := by simp [LexError.inText, readsText, hs, hl]

/-- What one step makes of the stack: some of it stays, and a level may come on top, which begins here. -/
theorem next_stack (h : m.next = .ok (some (t, m'))) : ∃ opened gone left,
    m'.stack = opened.toList ++ left.map (Level.count t) ∧ m.stack = gone ++ left ∧
      ∀ level, opened = some level → gone = [] ∧ m.Begins level.fault := by
  cases next_move h with
  | outside hs =>
    refine ⟨none, [], [], ?_, hs, nofun⟩
    unfold readOutside
    split <;> simp [Machine.pass, hs]
  | @code c rest r hcode hrest _ hr =>
    exact ⟨r.opens, [], m.stack, rfl, rfl, fun level hl =>
      ⟨rfl, begins_of_code hcode hrest (readCode_opens_fault hr hl)⟩⟩
  | @closing line below rest hs =>
    exact ⟨none, [.interpolation 0 line], below, rfl, hs, nofun⟩
  | @opening level below cut hs hl ho =>
    refine ⟨some (.interpolation 0 m.line), [], level :: below, rfl, hs, ?_⟩
    rintro _ ⟨⟩
    exact ⟨rfl, begins_of_opener hs hl ho⟩
  | @text level below stretch hs =>
    cases hc : stretch.closed with
    | true => exact ⟨none, [level], below, by simp [Machine.pass], hs, nofun⟩
    | false => exact ⟨none, [], level :: below, by simp [Machine.pass], hs, nofun⟩

/-- A level that is open behind a token was opened by it, or was open before. -/
theorem next_level (h : m.next = .ok (some (t, m'))) {above below : List Level} {level : Level}
    (hm' : m'.stack = above ++ level :: below) :
    (below.length = m.stack.length ∧ m.Begins level.fault) ∨
      ∃ above' old below', m.stack = above' ++ old :: below' ∧ below'.length = below.length ∧
        old.fault = level.fault := by
  obtain ⟨opened, gone, left, hstack, hleft, hopened⟩ := next_stack h
  rw [hm'] at hstack
  have hold : ∀ {front}, left.map (Level.count t) = front ++ level :: below →
      ∃ above' old below', m.stack = above' ++ old :: below' ∧ below'.length = below.length ∧
        old.fault = level.fault := by
    intro front heq
    obtain ⟨kept, rest, rfl, -, hrest⟩ := List.map_eq_append_iff.1 heq
    obtain ⟨old, below', rfl, rfl, rfl⟩ := List.map_eq_cons_iff.1 hrest
    exact ⟨gone ++ kept, old, below', by simp [hleft], by simp, by simp⟩
  cases opened with
  | none => exact .inr (hold hstack.symm)
  | some top =>
    rcases List.cons_eq_append_iff.1 hstack.symm with ⟨rfl, heq⟩ | ⟨front, rfl, heq⟩
    · obtain ⟨rfl, rfl⟩ := List.cons.inj heq
      obtain ⟨rfl, hbegins⟩ := hopened level rfl
      exact .inl ⟨by simp [hleft], hbegins⟩
    · exact .inr (hold heq)

/-! ### Runs -/

theorem Steps.line (h : Steps m ts m') : m'.line = m.line + Text.newlines (Source.text ts) := by
  induction h with
  | refl => rfl
  | next hn _ ih =>
    rw [ih, (next_reads hn).line, Source.text_cons, Text.newlines_append, Nat.add_assoc]
    rfl

theorem Steps.exists_last (h : Steps m (ts ++ [t]) m') : ∃ k, Steps m ts k ∧ k.next = .ok (some (t, m')) := by
  obtain ⟨k, hk, hlast⟩ := h.split
  cases hlast with
  | next hn hrefl =>
    cases hrefl
    exact ⟨k, hk, hn⟩

/-- From `k` on, reading these tokens, more than so many levels are open. -/
def StaysAbove (n : Nat) (k : Machine) (ts : List Token) : Prop :=
  ∀ front back j, ts = front ++ back → front ≠ [] → Steps k front j → n < j.stack.length

theorem StaysAbove.nil (n : Nat) (k : Machine) : StaysAbove n k [] := by
  intro front back j hsplit hne
  exact absurd (List.nil_eq_append_iff.1 hsplit).1 hne

theorem StaysAbove.concat (h : StaysAbove n k ts) (hsteps : Steps k (ts ++ [t]) m') (hn : n < m'.stack.length) :
    StaysAbove n k (ts ++ [t]) := by
  intro front back j hsplit hne hj
  rcases List.eq_nil_or_concat back with rfl | ⟨init, last, rfl⟩
  · rw [List.append_nil] at hsplit
    rw [hj.unique (hsplit ▸ hsteps)]
    exact hn
  · rw [List.concat_eq_append, ← List.append_assoc] at hsplit
    exact h front init j (List.append_inj_left' hsplit rfl) hne hj

theorem StaysAbove.behind (h : StaysAbove n k (ts ++ us)) (hsteps : Steps k ts m) : StaysAbove n m us := by
  intro front back j hsplit hne hj
  exact h (ts ++ front) back j (by simp [hsplit]) (by simp [hne]) (hsteps.append hj)

/-- **Every open level was opened further back**, and is open since. -/
theorem Steps.opened (h : Steps s ts m) (hs : s.stack = []) {above below : List Level} {level : Level}
    (hm : m.stack = above ++ level :: below) : ∃ front back k, ts = front ++ back ∧ Steps s front k ∧
      Steps k back m ∧ k.stack.length = below.length ∧ k.Begins level.fault ∧ StaysAbove below.length k back := by
  induction ts using List.reverseRecOn generalizing m above level below with
  | nil =>
    cases h
    rw [hs] at hm
    exact absurd hm (by simp)
  | append_singleton ts t ih =>
    obtain ⟨l, hl, hn⟩ := h.exists_last
    have hlast : below.length < m.stack.length := by
      rw [hm, List.length_append, List.length_cons]
      omega
    rcases next_level hn hm with ⟨hlength, hbegins⟩ | ⟨above', old, below', hstack, hlength, hfault⟩
    · have hstep : Steps l [t] m := .next hn (.refl m)
      exact ⟨ts, [t], l, rfl, hl, hstep, hlength.symm, hbegins, (StaysAbove.nil _ l).concat hstep hlast⟩
    · obtain ⟨front, back, k, rfl, hk, hback, hheight, hbegins, hstays⟩ := ih hl hstack
      rw [hlength] at hheight hstays
      have hsteps : Steps k (back ++ [t]) m := hback.append (.next hn (.refl m))
      exact ⟨front, back ++ [t], k, by simp, hk, hsteps, hheight, hfault ▸ hbegins, hstays.concat hsteps hlast⟩

/-- Where a run is stuck, no other run from the same machine goes on. -/
theorem Steps.stuck (h : Steps k ts m) (he : m.next = .error e) (h' : Steps k us m') :
    ∃ more, ts = us ++ more ∧ Steps m' more m := by
  induction h' generalizing ts with
  | refl => exact ⟨ts, rfl, h⟩
  | next hn _ ih =>
    cases h with
    | refl =>
      rw [he] at hn
      cases hn
    | next hn' h =>
      rw [hn, Except.ok.injEq, Option.some.injEq, Prod.mk.injEq] at hn'
      obtain ⟨rfl, rfl⟩ := hn'
      obtain ⟨more, rfl, hmore⟩ := ih h
      exact ⟨more, rfl, hmore⟩

theorem down_eq_none (h : Steps k ts m) (he : m.next = .error e) (hstays : StaysAbove n k ts) : k.down n = none := by
  rw [Option.eq_none_iff_forall_ne_some]
  rintro ⟨us, l⟩ hdown
  obtain ⟨hl, hne, hlow⟩ := down_steps hdown
  obtain ⟨more, rfl, -⟩ := h.stuck he hl
  have := hstays us more l rfl hne hl
  omega

/-! ### The error of a run -/

theorem next_error_cases (h : m.next = .error e) :
    m.Begins e ∨ ∃ top below, m.stack = top :: below ∧ top.fault = e := by
  have hcode : ∀ {c rest}, m.readsCode = true → m.rest = c :: rest → m.readCode c rest = .error e → m.Begins e := by
    intro c rest hm hrest hread
    unfold Machine.readCode at hread
    split at hread
    · rename_i e' he
      cases hread
      exact begins_of_code hm hrest (readCode_error he)
    · cases hread
  have hliteral : ∀ {top below}, m.stack = top :: below → top.isLiteral = true → top.fault = e := by
    intro top below hs hl
    rw [next_of_literal hs hl] at h
    unfold Machine.readText at h
    repeat' split at h
    all_goals cases h
    rfl
  unfold Machine.next at h
  split at h
  · cases h
  · rename_i c rest hs hrest
    split at h
    · cases h
    · rename_i ho
      exact .inl (hcode (by simpa [readsCode, hs] using ho) hrest h)
  · rename_i depth line below hs hrest
    cases h
    exact .inr ⟨_, _, hs, rfl⟩
  · rename_i depth line below c rest hs hrest
    split at h
    · cases h
    · exact .inl (hcode (by simp [readsCode, hs, Level.isLiteral]) hrest h)
  · rename_i quote line below hs
    exact .inr ⟨_, _, hs, hliteral hs rfl⟩
  · rename_i label line below hs
    exact .inr ⟨_, _, hs, hliteral hs rfl⟩

/-- A run that is stuck began, somewhere, to read what its error names; it never came to the end of that, and it is
stuck no higher than right inside of it. -/
theorem exists_begins (h : Steps s ts m) (hs : s.stack = []) (he : m.next = .error e) :
    ∃ front back k, ts = front ++ back ∧ Steps s front k ∧ Steps k back m ∧ k.Begins e ∧
      StaysAbove k.stack.length k back ∧ m.stack.length ≤ k.stack.length + 1 := by
  rcases next_error_cases he with hbegins | ⟨top, below, hstack, rfl⟩
  · exact ⟨ts, [], m, by simp, h, .refl m, hbegins, .nil _ m, by omega⟩
  · obtain ⟨front, back, k, rfl, hk, hback, hheight, hbegins, hstays⟩ := h.opened hs (show m.stack = [] ++ top :: below from hstack)
    exact ⟨front, back, k, rfl, hk, hback, hbegins, hheight.symm ▸ hstays, by simp [hstack, hheight]⟩

/-- What began behind that was read to its end. -/
theorem exists_down_behind (hback : Steps k (ts ++ us) m) (hlow : m.stack.length ≤ k.stack.length + 1)
    (hstays : StaysAbove k.stack.length k (ts ++ us)) (hts : ts ≠ []) (hus : us ≠ []) {j : Machine} (hj : Steps k ts j) :
    ∃ inner l rest, j.down j.stack.length = some (inner, l) ∧ us = inner ++ rest := by
  obtain ⟨j', hj', hrun⟩ := hback.split
  obtain rfl := hj.unique hj'
  have habove := hstays ts us j rfl hts hj
  obtain ⟨inner, rest, l, hdown, hsplit⟩ := hrun.exists_down (n := j.stack.length) (by omega) hus
  exact ⟨inner, l, rest, hdown, hsplit⟩

/-! ### Braces of what is open and of what was closed -/

/-- A literal that interpolations may stand in is next, or an interpolation. -/
def atConstruct (m : Machine) : Bool := m.atLiteral || (m.readsText && (opener m.rest).isSome)

theorem braceDelta_of_opener {cs : List Char} {cut : List Char × List Char} (h : opener cs = some cut) :
    (⟨.punctuation, cut.1⟩ : Token).braceDelta = 1 := by
  unfold opener at h
  split at h <;> cases h <;> rfl

/-- What the lexer takes for a whole literal or interpolation opens as many braces as it closes exactly if no literal
in it stands between braces and holds a mark that is not counted. -/
theorem braces_down_eq_zero_iff {inner : List Token} {l : Machine} (hm : m.atConstruct = true)
    (hdown : m.down m.stack.length = some (inner, l)) : braces inner = 0 ↔ m.ClearInside inner := by
  rcases Bool.or_eq_true_iff.1 hm with hlit | hopen
  · obtain ⟨hcode, hmark⟩ := Bool.and_eq_true_iff.1 hlit
    obtain ⟨t, k, us, hn, rfl, hkind, -, hclear⟩ := literal_cases (literal?_eq_some_iff.2 ⟨hcode, hmark, hdown⟩)
    have hplain : t.kind ≠ .punctuation := by simp [hkind]
    rw [clearInside_cons_iff hn, ← hclear, braces_cons, Token.braceDelta_of_kind hplain, Int.zero_add]
  · obtain ⟨htext, hsome⟩ := Bool.and_eq_true_iff.1 hopen
    obtain ⟨cut, ho⟩ := Option.isSome_iff_exists.1 hsome
    have hn := next_of_opener htext ho
    obtain ⟨t, k, hn', hcases⟩ := down_eq_some_iff.1 hdown
    rw [hn] at hn'
    cases hn'
    rcases hcases with ⟨hle, -⟩ | ⟨-, us, hus, rfl⟩
    · simp [Machine.pass] at hle
    · have hstack : (m.pass ⟨.punctuation, cut.1⟩ cut.2 m.stack (some (.interpolation 0 m.line))).stack =
          .interpolation 0 m.line :: m.stack.map (Level.count ⟨.punctuation, cut.1⟩) := rfl
      have hcloses := closes_of_down hstack (by rwa [List.length_map])
      rw [clearInside_cons_iff hn, ← hcloses.clear_iff, braces_cons, braceDelta_of_opener ho]
      rfl

/-- What a step does to the level on top of the stack: it is closed, or it stays open and all braces that are open in it
are counted, or another level is opened, and no brace is counted that is not open. -/
theorem next_top (hs : m.stack = top :: below) (h : m.next = .ok (some (t, m'))) :
    m'.stack.length ≤ below.length ∨
      (m'.stack = m.stack.map (Level.count t) ∧ ∀ y, top.depth ≤ y → (t.count y : Int) = y + t.braceDelta) ∨
      ∃ opened, m'.stack = opened :: m.stack.map (Level.count t) ∧ opened.depth = 0 ∧
        (opened.lift : Int) = t.braceDelta ∧ ∀ y, t.count y ≤ opened.lift + y := by
  have hother : ∀ {s : Token}, s.kind ≠ .punctuation → ∀ y, (s.count y : Int) = y + s.braceDelta := by
    intro s hk y
    rw [Token.count_of_kind hk, Token.braceDelta_of_kind hk, Int.add_zero]
  cases next_move h with
  | outside hnothing =>
    rw [hs] at hnothing
    cases hnothing
  | @code c rest r hcode hrest hbrace hr =>
    cases ho : r.opens with
    | none =>
      refine .inr (.inl ⟨by simp [Machine.pass], fun y hy => ?_⟩)
      refine (counts_code y ((readCode_counts hr).imp_right fun ht => ⟨c, ht, fun hzero => ?_⟩)).1
      cases top with
      | interpolation depth line =>
        obtain rfl : depth = 0 := Nat.le_zero.1 (hzero ▸ hy)
        exact hbrace line below hs
      | _ => simp [readsCode, hs, Level.isLiteral] at hcode
    | some opened =>
      have hkind : r.token.kind ≠ .punctuation := by simp [kind_of_literalMark hr (literalMark_of_opens hr ho)]
      have hliteral := (readCode_opens hr ho).2
      refine .inr (.inr ⟨opened, by simp [Machine.pass], Level.depth_of_isLiteral hliteral, ?_, fun y => ?_⟩)
      · rw [Level.lift_of_isLiteral hliteral, Token.braceDelta_of_kind hkind]
        rfl
      · rw [Token.count_of_kind hkind]
        omega
  | closing hs' =>
    rw [hs] at hs'
    cases hs'
    exact .inl (by simp [Machine.pass])
  | @opening level below' cut hs' _ ho =>
    refine .inr (.inr ⟨.interpolation 0 m.line, by rw [hs']; rfl, rfl, (braceDelta_of_opener ho).symm, fun y => ?_⟩)
    have := Token.count_le ⟨.punctuation, cut.1⟩ y
    simp only [Level.lift]
    omega
  | @text level below' stretch hs' =>
    rw [hs] at hs'
    cases hs'
    cases hc : stretch.closed with
    | true => exact .inl (by simp [Machine.pass])
    | false => exact .inr (.inl ⟨by simp [Machine.pass, hs], fun y _ => hother (by simp) y⟩)

/-- **The count of what is open is never too high**, as long as the level stays open. By induction on what is read: a
level that is opened further in is closed again, or it stays open as well. -/
theorem tally_le_of_staysAbove (hs : m.stack = top :: below) (h : Steps m ts m')
    (hstays : StaysAbove below.length m ts) {y : Nat} (hy : top.depth ≤ y) : (tally ts y : Int) ≤ y + braces ts := by
  induction hsize : ts.length using Nat.strong_induction_on generalizing m ts top below y with
  | _ size ih =>
  cases h with
  | refl => simp
  | @next _ k _ t ts hn hsteps =>
    rw [List.length_cons] at hsize
    rw [tally_cons, braces_cons]
    have habove := hstays [t] ts k rfl (List.cons_ne_nil _ _) (.next hn (.refl k))
    have htail := StaysAbove.behind hstays (.next hn (.refl k))
    have hdepth : (top.count t).depth ≤ t.count y := (top.depth_count_le t).trans (t.count_mono hy)
    rcases next_top hs hn with hclosed | ⟨hstack, hcount⟩ | ⟨opened, hstack, hzero, hlift, hcount⟩
    · omega
    · rw [hs, List.map_cons] at hstack
      have := ih ts.length (by omega) hstack hsteps (by rwa [List.length_map]) hdepth rfl
      have := hcount y hy
      omega
    by_cases hall : StaysAbove m.stack.length k ts
    · have := ih ts.length (by omega) hstack hsteps (by rwa [List.length_map]) (y := t.count y) (by omega) rfl
      have := hcount y
      omega
    · simp only [StaysAbove, not_forall, not_lt] at hall
      obtain ⟨front, back, j, rfl, hne, hfront, hlow⟩ := hall
      obtain ⟨us, more, l, hdown, rfl⟩ := hfront.exists_down hlow hne
      have hcloses := closes_of_down hstack (by rwa [List.length_map])
      have hus := hcloses.settles
      obtain ⟨husteps, -, -⟩ := down_steps hdown
      rw [List.append_assoc] at hsteps htail hsize ⊢
      obtain ⟨l', hl', hrest⟩ := hsteps.split
      obtain rfl := husteps.unique hl'
      have hl : l.stack = (top.count t).behind us :: below.map (Level.behind (t :: us)) := by
        rw [hcloses.stack, hs, List.map_cons, List.map_cons, List.map_map]
        rfl
      have hbehind : ((top.count t).behind us).depth ≤ tally us (t.count y) :=
        ((top.count t).depth_behind_le us).trans (tally_mono us hdepth)
      have hafter := htail.behind husteps
      have := ih (more ++ back).length (by rw [← hsize]; simp) hl hrest (by rwa [List.length_map]) hbehind rfl
      have hlow := (tally_mono us (hcount y)).trans (hus.tally_le y)
      have := hus.total
      rw [tally_append, braces_append]
      omega

/-- An interpolation that is never closed has a brace open, whatever is read of it. -/
theorem braces_pos (hm : m.readsText = true) (ho : (opener m.rest).isSome = true) (h : Steps m ts m') (hne : ts ≠ [])
    (hstays : StaysAbove m.stack.length m ts) : 0 < braces ts := by
  obtain ⟨cut, ho⟩ := Option.isSome_iff_exists.1 ho
  have hn := next_of_opener hm ho
  cases h with
  | refl => exact absurd rfl hne
  | @next _ k _ t ts hn' hsteps =>
    rw [hn] at hn'
    cases hn'
    have hrest := StaysAbove.behind hstays (.next hn (.refl _))
    have hstack : (m.pass ⟨.punctuation, cut.1⟩ cut.2 m.stack (some (.interpolation 0 m.line))).stack =
        .interpolation 0 m.line :: m.stack.map (Level.count ⟨.punctuation, cut.1⟩) := rfl
    have htally := tally_le_of_staysAbove hstack hsteps (by rwa [List.length_map]) (y := 0) le_rfl
    rw [braces_cons, braceDelta_of_opener ho]
    omega

/-! ### Constructs that are read as one token -/

/-- A token of code that opens no level is read to its end. -/
theorem down_of_readCode {c : Char} {rest : List Char} {r : Reading} (hm : m.readsCode = true)
    (hrest : m.rest = c :: rest) (hc : c ≠ '}') (h : Source.readCode m.last m.line c rest = .ok r)
    (ho : r.opens = none) : m.down m.stack.length ≠ none := by
  have hn : m.next = .ok (some (r.token,
      {m.pass r.token r.rest m.stack r.opens with outside := m.outside || r.closesCode})) := by
    rw [next_of_readsCode hm hrest fun _ _ _ => hc]
    unfold Machine.readCode
    rw [h]
  rw [down_eq_some_iff.2 ⟨_, _, hn, .inl ⟨by simp [Machine.pass, ho], rfl, rfl⟩⟩]
  exact Option.some_ne_none _

end Machine

/-! ### Ends that are missing -/

theorem throughCommentEnd_ne_none (a b : List Char) : throughCommentEnd (a ++ '*' :: '/' :: b) ≠ none := by
  induction a with
  | nil => exact Option.some_ne_none _
  | cons c rest ih =>
    intro hnone
    rw [List.cons_append] at hnone
    unfold throughCommentEnd at hnone
    split at hnone
    · rename_i heq
      cases heq
    · cases hnone
    · rename_i heq
      cases heq
      exact ih (Option.map_eq_none_iff.1 hnone)

/-- The backslashes at the end of the text. -/
def trailingSlashes (cs : List Char) : Nat := (cs.reverse.takeWhile (· == '\\')).length

theorem trailingSlashes_le (cs : List Char) : trailingSlashes cs ≤ cs.length := by
  rw [trailingSlashes, ← cs.length_reverse]
  exact (List.takeWhile_sublist _).length_le

theorem trailingSlashes_cons (c : Char) (cs : List Char) : trailingSlashes (c :: cs) =
    if c = '\\' ∧ trailingSlashes cs = cs.length then cs.length + 1 else trailingSlashes cs := by
  simp only [trailingSlashes, List.reverse_cons, List.takeWhile_append, List.length_reverse]
  by_cases hall : (cs.reverse.takeWhile (· == '\\')).length = cs.length
  · by_cases hc : c = '\\' <;> simp [hall, hc]
  · simp [hall]

/-- In a literal that never ends each quote is escaped: the backslashes in front of it are odd in number. -/
theorem odd_trailingSlashes {cs a b : List Char} (h : throughQuote cs = none) (hcs : cs = a ++ '\'' :: b) :
    trailingSlashes a % 2 = 1 := by
  fun_induction throughQuote cs generalizing a with
  | case1 => simp at hcs
  | case2 => cases h
  | case3 c rest ih =>
    have h := Option.map_eq_none_iff.1 h
    cases a with
    | nil => exact absurd (List.cons.inj hcs).1 (by decide)
    | cons slash a =>
      cases a with
      | nil =>
        obtain rfl := (List.cons.inj hcs).1
        rfl
      | cons d a' =>
        simp only [List.cons_append, List.cons.injEq] at hcs
        obtain ⟨rfl, rfl, hcs⟩ := hcs
        have hodd := ih h hcs
        have hle := trailingSlashes_le a'
        rw [trailingSlashes_cons, trailingSlashes_cons, List.length_cons]
        by_cases hall : c = '\\' ∧ trailingSlashes a' = a'.length
        · rw [if_pos hall, if_pos ⟨rfl, rfl⟩]
          omega
        · rw [if_neg hall, if_neg (by omega)]
          exact hodd
  | case4 c rest hquote hslash ih =>
    have h := Option.map_eq_none_iff.1 h
    cases a with
    | nil => exact absurd (List.cons.inj hcs).1 hquote
    | cons d a' =>
      rw [List.cons_append, List.cons.injEq] at hcs
      obtain ⟨rfl, hcs⟩ := hcs
      have hne : c ≠ '\\' := by
        rintro rfl
        cases hrest : rest with
        | nil => simp [hrest] at hcs
        | cons x more => exact hslash x more rfl hrest
      rw [trailingSlashes_cons, if_neg fun hc => hne hc.1]
      exact ih h hcs

namespace Machine

variable {s m k : Machine} {e : LexError}

/-- The error of a run is the error of the machine that it leads to. -/
theorem steps_of_run_error (h : m.run.2 = some e) : ∃ m', Steps m m.run.1 m' ∧ m'.next = .error e := by
  fun_induction run m with
  | case1 m e' he =>
    cases h
    exact ⟨m, .refl m, he⟩
  | case2 => cases h
  | case3 m t after hn _ tail ih =>
    obtain ⟨m', hm', hend⟩ := ih h
    exact ⟨m', .next hn hm', hend⟩

/-- No end of a comment follows that is never closed. -/
theorem no_comment_end (hm : k.readsCode = true) (hopen : k.down k.stack.length = none) (a b : List Char) :
    k.rest ≠ '/' :: '*' :: (a ++ '*' :: '/' :: b) := by
  intro hrest
  obtain ⟨cut, hcut⟩ := Option.ne_none_iff_exists'.1 (throughCommentEnd_ne_none a b)
  have hread : Source.readCode k.last k.line '/' ('*' :: (a ++ '*' :: '/' :: b)) =
      .ok (.plain (commentKind ('/' :: '*' :: cut.1)) ('/' :: '*' :: cut.1, cut.2)) := by
    simp [Source.readCode, hcut, isBlank]
  exact down_of_readCode hm hrest (by decide) hread rfl hopen

/-- Each quote that follows in a literal that is never closed is escaped. -/
theorem quotes_escaped (hm : k.readsCode = true) (hopen : k.down k.stack.length = none) {a b : List Char}
    (hrest : k.rest = '\'' :: (a ++ '\'' :: b)) : trailingSlashes a % 2 = 1 := by
  have hnone : throughQuote (a ++ '\'' :: b) = none := by
    by_contra hne
    obtain ⟨cut, hcut⟩ := Option.ne_none_iff_exists'.1 hne
    have hread : Source.readCode k.last k.line '\'' (a ++ '\'' :: b) = .ok (.plain .other ('\'' :: cut.1, cut.2)) := by
      simp [Source.readCode, hcut, isBlank]
    exact down_of_readCode hm hrest (by decide) hread rfl hopen
  exact odd_trailingSlashes hnone rfl

theorem Begins.readsCode {c : Char} {rest : List Char} (h : k.Begins e) (hrest : k.rest = c :: rest)
    (hc : c ≠ '{' ∧ c ≠ '$') : k.readsCode = true := by
  have hplace := h.place
  cases e with
  | unterminatedInterpolation line =>
    have hopens := h.opens
    rw [hrest] at hopens
    rcases hopens with ⟨more, heq⟩ | ⟨more, heq⟩
    · exact absurd (List.cons.inj heq).1.symm hc.1
    · exact absurd (List.cons.inj heq).1.symm hc.2
  | _ => exact hplace

/-! ### The place of an error -/

/-- The run of `s` is stuck in `m`, and the construct that its error names begins where `k` stands, behind the tokens
`front`. -/
structure Fault (s : Machine) (e : LexError) (front back : List Token) (k m : Machine) : Prop where
  run : s.run = (front ++ back, some e)
  before : Steps s front k
  behind : Steps k back m
  stuck : m.next = .error e
  /-- The tokens in front are the text before the construct. -/
  text : s.rest = Source.text front ++ k.rest
  line : e.line = s.line + Text.newlines (Source.text front)
  begins : k.Begins e
  /-- The construct is not closed, -/
  opened : k.down k.stack.length = none
  /-- and an interpolation not by its braces either. -/
  braces : e.inText = true → ∀ first rest, back = first ++ rest → first ≠ [] → 0 < braces first
  /-- What began further on was read to its end; the end is its own if its braces match. -/
  closed : ∀ first rest j, back = first ++ rest → first ≠ [] → rest ≠ [] → Steps k first j →
    ∃ inner l more, j.down j.stack.length = some (inner, l) ∧ rest = inner ++ more ∧
      (j.atConstruct = true → (Source.braces inner = 0 ↔ j.ClearInside inner))
  /-- In a comment no end mark follows, -/
  comment : ∀ a b, k.rest ≠ '/' :: '*' :: (a ++ '*' :: '/' :: b)
  /-- and in a literal without interpolations all quotes that follow are escaped. -/
  quotes : ∀ a b, k.rest = '\'' :: (a ++ '\'' :: b) → trailingSlashes a % 2 = 1

/-- The error of a run from where nothing is open. -/
theorem exists_fault (h : s.run.2 = some e) (hs : s.stack = []) : ∃ front back k m, Fault s e front back k m := by
  obtain ⟨m, hm, hstuck⟩ := steps_of_run_error h
  obtain ⟨front, back, k, hsplit, hfront, hback, hbegins, hstays, hlow⟩ := exists_begins hm hs hstuck
  have hopen := down_eq_none hback hstuck hstays
  refine ⟨front, back, k, m, ⟨Prod.ext hsplit h, hfront, hback, hstuck, hfront.text.symm, ?_, hbegins, hopen, ?_, ?_,
    ?_, ?_⟩⟩
  · rw [hbegins.line, hfront.line]
  · rintro hin first rest rfl hne
    obtain ⟨j, hj, -⟩ := hback.split
    have hplace := hbegins.place
    rw [if_pos hin] at hplace
    refine braces_pos hplace ?_ hj hne fun a b i hsplit => hstays a (b ++ rest) i (by simp [hsplit])
    cases e with
    | unterminatedInterpolation line => rcases hbegins.opens with ⟨more, hrest⟩ | ⟨more, hrest⟩ <;> rw [← hrest] <;> rfl
    | _ => cases hin
  · rintro first rest j rfl hfirst hrest hj
    obtain ⟨inner, l, more, hdown, hinner⟩ := exists_down_behind hback hlow hstays hfirst hrest hj
    exact ⟨inner, l, more, hdown, hinner, fun hat => braces_down_eq_zero_iff hat hdown⟩
  · intro a b hrest
    exact no_comment_end (hbegins.readsCode hrest (by decide)) hopen a b hrest
  · intro a b hrest
    exact quotes_escaped (hbegins.readsCode hrest (by decide)) hopen hrest

end Machine

theorem run_of_tokenize_error {source : List Char} {e : LexError} (h : tokenize source = .error e) :
    (Machine.start source).run.2 = some e := by
  unfold tokenize at h
  split at h
  · cases h
  · rename_i e' heq
    cases h
    rw [heq]

namespace Machine

variable {e : LexError}

/-- **An error names the construct that is left open, and the line on which it begins.** All that opened behind it was
read to its end, and closed by its own marks exactly if no literal in it stands between braces and holds `${`. -/
theorem fault_located {source : List Char} (h : tokenize source = .error e) : ∃ front back k m,
    Fault (start source) e front back k m ∧ source = Source.text front ++ k.rest ∧
      e.line = 1 + Text.newlines (Source.text front) := by
  obtain ⟨front, back, k, m, hfault⟩ := exists_fault (run_of_tokenize_error h) rfl
  exact ⟨front, back, k, m, hfault, hfault.text, hfault.line⟩

/-- A literal on the second line that is never closed, behind an interpolation in it that is. -/
theorem exists_fault_located : tokenize "<?php\n\"a\x7b$b\x7d'".toList = .error (.unterminatedString 2) ∧
    ∃ front back k m, Fault (start "<?php\n\"a\x7b$b\x7d'".toList) (.unterminatedString 2) front back k m ∧
      2 = 1 + Text.newlines (Source.text front) := by
  have h : tokenize "<?php\n\"a\x7b$b\x7d'".toList = .error (.unterminatedString 2) := by decide +kernel
  obtain ⟨front, back, k, m, hfault, -, hline⟩ := fault_located h
  exact ⟨h, front, back, k, m, hfault, hline⟩

/-- An interpolation on the second line is still open at the end, with a brace or more open behind each of its tokens.
But the lexer takes the brace of the closure in it for its end, and names the literal around it, on the first line. -/
theorem interpolation_left_open : ∃ source front back k, tokenize source = .error (.unterminatedString 1) ∧
    (start source).run.1 = front ++ back ∧ Steps (start source) front k ∧ k.readsText = true ∧
      (opener k.rest).isSome = true ∧ k.line = 2 ∧ back ≠ [] ∧ ∀ i < back.length, 0 < braces (back.take (i + 1)) := by
  let source := "<?php \"\n\x7b$f(function()\x7breturn \"$\x7bb\x7d\";\x7d".toList
  let tag : Token := ⟨.openTag, "<?php ".toList⟩
  let literal : Token := ⟨.other, "\"\n".toList⟩
  let l := (start source).readOutside.2
  have hl : (start source).next = .ok (some (tag, l)) := rfl
  have hvalue : (l.next.toOption.join.map fun r => (r.1, r.2.readsText, (opener r.2.rest).isSome, r.2.line)) =
      some (literal, true, true, 2) := by decide +kernel
  obtain ⟨t, k, hn, hvalues⟩ := exists_next hvalue
  simp only [Prod.mk.injEq] at hvalues
  obtain ⟨rfl, htext, hopener, hline⟩ := hvalues
  refine ⟨source, [tag, literal], (start source).run.1.drop 2, k, by decide +kernel, by decide +kernel,
    .next hl (.next hn (.refl k)), htext, hopener, hline, by decide +kernel, by decide +kernel⟩

end Machine

end PluginShading.Source
