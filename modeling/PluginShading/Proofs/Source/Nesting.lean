import PluginShading.Proofs.Source.Braces

/-!
Literals in literals.

A literal is read from its opening mark until no more is open than before it (`Machine.literal?`). An
interpolation in it is closed where the lexer's count of its braces says so. That count is too low behind a
literal that stands between braces and opens an interpolation by `$\x7b`; the interpolation around it is then
closed too early, never too late. Hence no beginning of a literal closes more braces than it opens, and the
whole of it opens as many as it closes exactly if there is no such literal inside (`literal_braces`).
-/
namespace PluginShading.Source

/-! ### Marks of literals -/

/-- What opens a literal that interpolations may stand in. -/
def literalMarks : List (List Char) := [['"'], ['\u0060'], ['<', '<', '<']]

/-- A level is opened by the mark of a literal. -/
theorem literalMark_of_opens {last : Option Token} {line : Nat} {c : Char} {rest : List Char} {r : Reading}
    {level : Level} (h : readCode last line c rest = .ok r) (ho : r.opens = some level) :
    literalMarks.any (·.isPrefixOf (c :: rest)) = true := by
  rcases readCode_opens_cases h ho with ⟨s, rfl | rfl, -⟩ | ⟨more, header, s, hrest, -⟩
  · rfl
  · rfl
  · rw [hrest]
    rfl

/-- The first token of a literal is text. -/
theorem kind_of_literalMark {last : Option Token} {line : Nat} {c : Char} {rest : List Char} {r : Reading}
    (h : readCode last line c rest = .ok r)
    (hmark : literalMarks.any (·.isPrefixOf (c :: rest)) = true) : r.token.kind = .other := by
  have hcs : (c = '"' ∨ c = '\u0060') ∨ ['<', '<', '<'] <+: c :: rest := by
    obtain ⟨mark, hmem, hprefix⟩ := List.any_eq_true.1 hmark
    rw [List.isPrefixOf_iff_prefix] at hprefix
    simp only [literalMarks, List.mem_cons, List.not_mem_nil, or_false] at hmem
    rcases hmem with rfl | rfl | rfl
    · exact .inl (.inl (List.cons_prefix_cons.1 hprefix).1.symm)
    · exact .inl (.inr (List.cons_prefix_cons.1 hprefix).1.symm)
    · exact .inr hprefix
  cases CodeReading.of_readCode h with
  | blanks hblank =>
    rcases hcs with (rfl | rfl) | ⟨more, hmore⟩
    · cases hblank
    · cases hblank
    · cases hmore
      cases hblank
  | hashComment => cases hmark
  | slashComment => cases hmark
  | blockComment => cases hmark
  | plain _ hopening h =>
    have hquote := hcs.resolve_right (hopening _ (by decide))
    cases h with
    | separator => simp at hquote
    | word hname => rcases hquote with rfl | rfl <;> cases hname
    | mark hc => exact absurd hquote hc.quote
    | _ => rfl
  | _ => rfl

namespace Machine

variable {m m' k l : Machine} {t : Token} {ts us : List Token} {n lift : Nat} {top opened : Level}
  {below : List Level}

/-! ### Reading until a level is closed -/

/-- The tokens that are read until no more than so many levels are open, and the machine behind them. -/
def down (height : Nat) (m : Machine) : Option (List Token × Machine) :=
  match h : m.next with
  | .error _ | .ok none => none
  | .ok (some (t, after)) =>
    have : after.rest.length < m.rest.length := (next_reads h).length_lt
    if after.stack.length ≤ height then some ([t], after)
    else (after.down height).map fun r => (t :: r.1, r.2)
termination_by m.rest.length

theorem down_eq_some_iff : m.down n = some (ts, m') ↔ ∃ t k, m.next = .ok (some (t, k)) ∧
    (k.stack.length ≤ n ∧ ts = [t] ∧ m' = k ∨
      n < k.stack.length ∧ ∃ us, k.down n = some (us, m') ∧ ts = t :: us) := by
  constructor
  · intro h
    rw [down] at h
    split at h
    · cases h
    · cases h
    · rename_i t k hn
      refine ⟨t, k, hn, ?_⟩
      dsimp only at h
      split at h
      · rename_i hle
        cases h
        exact .inl ⟨hle, rfl, rfl⟩
      · rename_i hlt
        obtain ⟨⟨us, l⟩, hus, heq⟩ := Option.map_eq_some_iff.1 h
        cases heq
        exact .inr ⟨Nat.lt_of_not_le hlt, us, hus, rfl⟩
  · rintro ⟨t, k, hn, hcases⟩
    rw [down]
    split
    · rename_i he
      rw [hn] at he
      cases he
    · rename_i he
      rw [hn] at he
      cases he
    · rename_i t' k' he
      rw [hn] at he
      cases he
      dsimp only
      rcases hcases with ⟨hle, rfl, rfl⟩ | ⟨hlt, us, hus, rfl⟩
      · rw [if_pos hle]
      · rw [if_neg (by omega), hus]
        rfl

theorem down_of_le (hn : m.next = .ok (some (t, k))) (h : m.down n = some (ts, m')) (hle : k.stack.length ≤ n) :
    ts = [t] ∧ m' = k := by
  rw [down_eq_some_iff.2 ⟨t, k, hn, .inl ⟨hle, rfl, rfl⟩⟩] at h
  cases h
  exact ⟨rfl, rfl⟩

theorem down_of_lt (hn : m.next = .ok (some (t, k))) (h : m.down n = some (ts, m')) (hlt : n < k.stack.length) :
    ∃ us, k.down n = some (us, m') ∧ ts = t :: us := by
  obtain ⟨t', k', hn', hcases⟩ := down_eq_some_iff.1 h
  rw [hn, Except.ok.injEq, Option.some.injEq, Prod.mk.injEq] at hn'
  obtain ⟨rfl, rfl⟩ := hn'
  rcases hcases with ⟨hle, -⟩ | ⟨-, hus⟩
  · omega
  · exact hus

/-- A run that ends so low passes the first machine that is so low. -/
theorem Steps.exists_down (h : Steps m ts m') (hlow : m'.stack.length ≤ n) (hne : ts ≠ []) :
    ∃ us rest k, m.down n = some (us, k) ∧ ts = us ++ rest := by
  induction h with
  | refl => exact absurd rfl hne
  | @next m k m' t ts hn hsteps ih =>
    by_cases hle : k.stack.length ≤ n
    · exact ⟨[t], ts, k, down_eq_some_iff.2 ⟨t, k, hn, .inl ⟨hle, rfl, rfl⟩⟩, rfl⟩
    · have hrest : ts ≠ [] := by
        rintro rfl
        cases hsteps
        exact hle hlow
      obtain ⟨us, rest, l, hdown, rfl⟩ := ih hlow hrest
      exact ⟨t :: us, rest, l,
        down_eq_some_iff.2 ⟨t, k, hn, .inr ⟨Nat.lt_of_not_le hle, us, hdown, rfl⟩⟩, rfl⟩

/-- Reading down to a height is a run that ends no higher. -/
theorem down_steps (h : m.down n = some (ts, m')) : Steps m ts m' ∧ ts ≠ [] ∧ m'.stack.length ≤ n := by
  induction ts generalizing m with
  | nil =>
    obtain ⟨t, k, hn, ⟨-, hts, -⟩ | ⟨-, us, -, hts⟩⟩ := down_eq_some_iff.1 h <;> cases hts
  | cons t rest ih =>
    obtain ⟨t', k, hn, ⟨hle, hts, rfl⟩ | ⟨-, us, hus, hts⟩⟩ := down_eq_some_iff.1 h
    · cases hts
      exact ⟨.next hn (.refl _), List.cons_ne_nil _ _, hle⟩
    · cases hts
      obtain ⟨hsteps, -, hle⟩ := ih hus
      exact ⟨.next hn hsteps, List.cons_ne_nil _ _, hle⟩

/-- Up to its end the run stays higher. -/
theorem down_above {front back : List Token} (h : m.down n = some (front ++ back, m'))
    (hsteps : Steps m front k) (hfront : front ≠ []) (hback : back ≠ []) : n < k.stack.length := by
  induction hsteps with
  | refl => exact absurd rfl hfront
  | @next m l k t rest hn hsteps ih =>
    obtain ⟨t', l', hn', ⟨-, hts, -⟩ | ⟨hlt, us, hus, hts⟩⟩ := down_eq_some_iff.1 h
    · rw [List.cons_append, List.cons.injEq, List.append_eq_nil_iff] at hts
      exact absurd hts.2.2 hback
    · rw [hn, Except.ok.injEq, Option.some.injEq, Prod.mk.injEq] at hn'
      obtain ⟨rfl, rfl⟩ := hn'
      rw [List.cons_append, List.cons.injEq] at hts
      cases hsteps with
      | refl => exact hlt
      | next => exact ih (hts.2 ▸ hus) (List.cons_ne_nil _ _)

/-- Reading down two levels is reading down one, and then the other if it is still open. -/
theorem down_split (h : m.down n = some (ts, m')) : ∃ us k, m.down (n + 1) = some (us, k) ∧
    (n < k.stack.length → ∃ rest, k.down n = some (rest, m') ∧ ts = us ++ rest) := by
  induction ts generalizing m with
  | nil => exact absurd rfl (down_steps h).2.1
  | cons t rest ih =>
    obtain ⟨t', k, hn, ⟨hle, hts, rfl⟩ | ⟨hlt, us, hus, hts⟩⟩ := down_eq_some_iff.1 h
    · exact ⟨[t'], m', down_eq_some_iff.2 ⟨t', m', hn, .inl ⟨by omega, rfl, rfl⟩⟩, fun hlt => by omega⟩
    · cases hts
      by_cases hle : k.stack.length ≤ n + 1
      · exact ⟨[t], k, down_eq_some_iff.2 ⟨t, k, hn, .inl ⟨hle, rfl, rfl⟩⟩, fun _ => ⟨rest, hus, rfl⟩⟩
      · obtain ⟨us, l, hl, hrest⟩ := ih hus
        refine ⟨t :: us, l, down_eq_some_iff.2 ⟨t, k, hn, .inr ⟨by omega, us, hl, rfl⟩⟩, fun hlt => ?_⟩
        obtain ⟨more, hmore, rfl⟩ := hrest hlt
        exact ⟨more, hmore, rfl⟩

/-! ### Literals -/

/-- In code such a literal is next. -/
def atLiteral (m : Machine) : Bool := m.readsCode && literalMarks.any (·.isPrefixOf m.rest)

/-- The literal that is next, through its closing mark: no more is open then than before it. -/
def literal? (m : Machine) : Option (List Token × Machine) :=
  if m.atLiteral then m.down m.stack.length else none

/-- The braces that are open in the innermost interpolation, as the lexer counts them. -/
def openBraces (m : Machine) : Nat :=
  match m.stack with
  | .interpolation depth _ :: _ => depth
  | _ => 0

theorem literal?_eq_some_iff : m.literal? = some (ts, m') ↔ m.readsCode = true ∧
    literalMarks.any (·.isPrefixOf m.rest) = true ∧ m.down m.stack.length = some (ts, m') := by
  simp [literal?, atLiteral, and_assoc]

/-- No literal that begins among the tokens, read from `m`, stands between braces and holds a mark that is not
counted. -/
def Clear (m : Machine) (ts : List Token) : Prop :=
  ∀ front inner back k k', ts = front ++ (inner ++ back) → Steps m front k →
    k.literal? = some (inner, k') → k.openBraces ≠ 0 → ∀ t ∈ inner, t.isDollarBrace = false

/-- The same of the literals inside a literal. -/
def ClearInside (m : Machine) (lit : List Token) : Prop :=
  ∀ front inner back k k', front ≠ [] → lit = front ++ (inner ++ back) → Steps m front k →
    k.literal? = some (inner, k') → k.openBraces ≠ 0 → ∀ t ∈ inner, t.isDollarBrace = false

theorem clearInside_cons_iff (hn : m.next = .ok (some (t, k))) : m.ClearInside (t :: ts) ↔ k.Clear ts := by
  constructor
  · intro hall front inner back l l' hsplit hl
    exact hall (t :: front) inner back l l' (List.cons_ne_nil _ _) (by simp [hsplit]) (.next hn hl)
  · intro hall front inner back l l' hne hsplit hl
    cases hl with
    | refl => exact absurd rfl hne
    | next hn' hl =>
      rw [hn, Except.ok.injEq, Option.some.injEq, Prod.mk.injEq] at hn'
      obtain ⟨rfl, rfl⟩ := hn'
      rw [List.cons_append, List.cons.injEq] at hsplit
      exact hall _ inner back l l' hsplit.2 hl

/-- What begins in a run that closes a level ends in it: it never goes so low. -/
theorem prefix_of_literal {front back inner rest : List Token} {k' : Machine}
    (h : m.down n = some (front ++ back, m')) (hlt : n < m.stack.length) (hk : Steps m front k)
    (hback : back ≠ []) (hinner : k.literal? = some (inner, k')) (hsplit : inner ++ rest = back ++ us) :
    ∃ more, back = inner ++ more := by
  obtain ⟨-, -, hdown⟩ := literal?_eq_some_iff.1 hinner
  rcases List.append_eq_append_iff.1 hsplit with ⟨more, hmore, -⟩ | ⟨more, rfl, -⟩
  · exact ⟨more, hmore⟩
  by_cases hmore : more = []
  · exact ⟨[], by simp [hmore]⟩
  · obtain ⟨hsteps, -, hlow⟩ := down_steps h
    obtain ⟨l, hl, hrun⟩ := hsteps.split
    obtain rfl := hk.unique hl
    have hstart : n < k.stack.length := by
      cases hk with
      | refl => exact hlt
      | next hn hk => exact down_above h (.next hn hk) (List.cons_ne_nil _ _) hback
    have hend := down_above hdown hrun hback hmore
    omega

theorem clear_append_iff (h : m.down n = some (ts, m')) (hlt : n < m.stack.length) :
    m.Clear (ts ++ us) ↔ m.Clear ts ∧ m'.Clear us := by
  obtain ⟨hsteps, -, -⟩ := down_steps h
  constructor
  · intro hall
    refine ⟨fun front inner back k k' hsplit hk => ?_, fun front inner back k k' hsplit hk => ?_⟩
    · exact hall front inner (back ++ us) k k' (by simp [hsplit]) hk
    · exact hall (ts ++ front) inner back k k' (by simp [hsplit]) (hsteps.append hk)
  · rintro ⟨hts, hus⟩ front inner back k k' hsplit hk hinner
    have hbehind : ∀ more, front = ts ++ more → us = more ++ (inner ++ back) → k.openBraces ≠ 0 →
        ∀ t ∈ inner, t.isDollarBrace = false := by
      rintro more rfl hmore
      obtain ⟨l, hl, hk⟩ := hk.split
      obtain rfl := hsteps.unique hl
      exact hus more inner back k k' hmore hk hinner
    rcases List.append_eq_append_iff.1 hsplit with ⟨more, hfront, hmore⟩ | ⟨more, rfl, hmore⟩
    · exact hbehind more hfront hmore
    · by_cases hne : more = []
      · subst hne
        exact hbehind [] (by simp) (by simpa using hmore.symm)
      · obtain ⟨rest, rfl⟩ := prefix_of_literal h hlt hk hne hinner hmore
        exact hts front inner rest k k' rfl hk hinner

/-- One token more in front: a literal may begin with it. -/
theorem clear_cons_iff (hn : m.next = .ok (some (t, k))) : m.Clear (t :: ts) ↔
    (∀ inner k' back, m.literal? = some (inner, k') → t :: ts = inner ++ back → m.openBraces ≠ 0 →
      ∀ u ∈ inner, u.isDollarBrace = false) ∧ k.Clear ts := by
  rw [← clearInside_cons_iff hn]
  constructor
  · intro hall
    refine ⟨fun inner k' back hinner hsplit => ?_, fun front inner back l l' _ => ?_⟩
    · exact hall [] inner back m k' hsplit (.refl m) hinner
    · exact hall front inner back l l'
  · rintro ⟨hfirst, hrest⟩ front inner back l l' hsplit hl hinner
    cases hl with
    | refl => exact hfirst inner l' back hinner hsplit
    | next hn' hl => exact hrest _ inner back l l' (List.cons_ne_nil _ _) hsplit (.next hn' hl) hinner

/-! ### Runs that close a level -/

/-- What reading down to the levels below makes of them and of the braces. -/
structure Closes (m : Machine) (lift : Nat) (below : List Level) (ts : List Token) (m' : Machine) : Prop where
  stack : m'.stack = below.map (Level.behind ts)
  settles : Settles lift ts
  clear_iff : lift + braces ts = 0 ↔ m.Clear ts

/-- A token that opens nothing is all of a literal that begins with it. -/
theorem literal?_of_next (hn : m.next = .ok (some (t, k))) (hle : k.stack.length ≤ m.stack.length)
    {inner : List Token} {k' : Machine} (h : m.literal? = some (inner, k')) : inner = [t] := by
  obtain ⟨-, -, hdown⟩ := literal?_eq_some_iff.1 h
  exact (down_of_le hn hdown hle).1

theorem clear_cons_of_plain (hn : m.next = .ok (some (t, k))) (hle : k.stack.length ≤ m.stack.length)
    (ht : t.isDollarBrace = false) : m.Clear (t :: ts) ↔ k.Clear ts := by
  rw [clear_cons_iff hn]
  refine and_iff_right fun inner k' back hinner _ _ => ?_
  rw [literal?_of_next hn hle hinner]
  exact List.forall_mem_singleton.2 ht

theorem Closes.nil (hs : m.stack = below) : Closes m 0 below [] m where
  stack := hs.trans (List.map_id below).symm
  settles := .nil
  clear_iff := by
    refine iff_of_true rfl fun front inner back k k' hsplit _ hinner => ?_
    obtain ⟨-, -, hdown⟩ := literal?_eq_some_iff.1 hinner
    simp only [List.nil_eq, List.append_eq_nil_iff] at hsplit
    exact absurd hsplit.2.1 (down_steps hdown).2.1

/-- A token that opens nothing, in front of what closes the level if it does not. -/
theorem Closes.cons {lift' : Nat} (hn : m.next = .ok (some (t, k))) (hle : k.stack.length ≤ m.stack.length)
    (h : Closes k lift' (below.map (Level.count t)) ts m') (hdelta : (lift' : Int) = lift + t.braceDelta)
    (hcount : ∀ y, t.count (lift + y) = lift' + y) (ht : t.isDollarBrace = false) :
    Closes m lift below (t :: ts) m' where
  stack := h.stack.trans (Level.map_behind_cons t ts below)
  settles := h.settles.cons hdelta hcount ht
  clear_iff := by
    rw [clear_cons_of_plain hn hle ht, ← h.clear_iff, hdelta, braces_cons]
    omega

/-- A literal in an interpolation. Only between braces does it matter what it holds. -/
theorem Closes.literal {depth line : Nat} (hn : m.next = .ok (some (t, k)))
    (hs : m.stack = .interpolation depth line :: below) (ht : t.kind ≠ .punctuation)
    (hlit : m.literal? = some (t :: us, l)) (hlt : m.stack.length < k.stack.length)
    (hdown : k.down m.stack.length = some (us, l))
    (hus : Closes k 0 (m.stack.map (Level.count t)) us l)
    (hts : Closes l (tally us depth + 1) (below.map (Level.behind (t :: us))) ts m') :
    Closes m (depth + 1) below (t :: us ++ ts) m' := by
  have hcount : ∀ n, tally (t :: us) n = tally us n := fun n => by rw [tally_cons, Token.count_of_kind ht]
  have hfirst : Settles 0 (t :: us) :=
    hus.settles.cons (by simp [Token.braceDelta_of_kind ht]) (fun y => Token.count_of_kind ht _)
      (Token.isDollarBrace_of_kind ht)
  have hle : tally us depth ≤ depth := by simpa [hcount] using hfirst.tally_le depth
  have heven : (∀ u ∈ t :: us, u.isDollarBrace = false) → tally us depth = depth := fun hfree => by
    simpa [hcount] using hfirst.tally_eq hfree depth
  refine ⟨?_, ?_, ?_⟩
  · rw [hts.stack, List.map_map]
    exact List.map_congr_left fun level _ => (level.behind_append (t :: us) ts).symm
  · refine hfirst.append hts.settles (by omega) (fun y => ?_) (fun hfree => by rw [heven hfree])
    rw [hcount, show depth + 1 + y = depth + (1 + y) by omega]
    have := tally_add_le us depth (1 + y)
    omega
  · have htotal := hus.settles.total
    have htotal' := hts.settles.total
    rw [List.cons_append, clear_cons_iff hn, clear_append_iff hdown hlt, ← hus.clear_iff, ← hts.clear_iff]
    simp only [braces_cons, braces_append, Token.braceDelta_of_kind ht]
    constructor
    · intro hzero
      refine ⟨fun inner k' back hinner _ hopen => ?_, by omega, by omega⟩
      rw [hlit] at hinner
      cases hinner
      by_contra hmark
      have hdepth : 0 < depth := by
        simpa [openBraces, hs, Nat.pos_iff_ne_zero] using hopen
      have hlow := hfirst.tally_lt (by simp [Token.braceDelta_of_kind ht]; omega)
        (by simpa only [not_forall, Bool.not_eq_false, exists_prop] using hmark) depth hdepth
      rw [Nat.zero_add, hcount] at hlow
      omega
    · rintro ⟨hall, hzero, hzero'⟩
      have hsame : tally us depth = depth := by
        by_cases hdepth : depth = 0
        · omega
        · exact heven (hall _ _ ts hlit rfl (by simpa [openBraces, hs] using hdepth))
      omega

/-- An interpolation in a literal. -/
theorem Closes.interpolation (hn : m.next = .ok (some (t, k))) (hs : m.stack = top :: below)
    (htop : top.isLiteral = true) (ht : t.text = ['{'] ∨ t.text = ['$', '{']) (hk : t.kind = .punctuation)
    (hlt : m.stack.length < k.stack.length) (hdown : k.down m.stack.length = some (us, l))
    (hus : Closes k 1 (m.stack.map (Level.count t)) us l)
    (hts : Closes l 0 (below.map (Level.behind (t :: us))) ts m') :
    Closes m 0 below (t :: us ++ ts) m' := by
  have hdelta : t.braceDelta = 1 := by
    rcases ht with ht | ht <;> simp [Token.braceDelta, hk, ht]
  have hfirst : Settles 0 (t :: us) := by
    rcases ht with ht | ht
    · refine hus.settles.cons (by simp [hdelta]) (fun y => ?_) ?_
      · simp [Token.count, Token.isPunctuation, hk, ht]
        omega
      · simp [Token.isDollarBrace, Token.isPunctuation, ht]
    · refine hus.settles.dollar hdelta (fun n => ?_) ?_
      · simp [Token.count, Token.isPunctuation, ht]
      · simp [Token.isDollarBrace, Token.isPunctuation, hk, ht]
  refine ⟨?_, ?_, ?_⟩
  · rw [hts.stack, List.map_map]
    exact List.map_congr_left fun level _ => (level.behind_append (t :: us) ts).symm
  · exact hfirst.append hts.settles le_rfl (fun y => by have := hfirst.tally_le y; omega) (fun _ => rfl)
  · have htotal := hus.settles.total
    have htotal' := hts.settles.total
    have hcode : m.readsCode = false := by simp [readsCode, hs, htop]
    rw [List.cons_append, clear_cons_iff hn, clear_append_iff hdown hlt, ← hus.clear_iff, ← hts.clear_iff]
    simp only [braces_cons, braces_append, hdelta]
    constructor
    · intro hzero
      refine ⟨fun inner k' back hinner => ?_, by omega, by omega⟩
      rw [literal?_eq_some_iff, hcode] at hinner
      cases hinner.1
    · rintro ⟨-, hzero, hzero'⟩
      omega

section Step

variable {size : Nat} (hclose : ∀ {j l : Machine} {top : Level} {below : List Level} {us : List Token},
  j.rest.length < size → j.stack = top :: below → j.down below.length = some (us, l) →
    Closes j top.lift below us l)

include hclose

/-- Where a token leaves the level open, the rest closes it. -/
theorem closes_kept (hs : m.stack = top :: below) (hn : m.next = .ok (some (t, k)))
    (h : m.down below.length = some (ts, m')) (hsize : m.rest.length = size)
    (hk : k.stack = m.stack.map (Level.count t)) :
    ∃ us, ts = t :: us ∧ Closes k (top.count t).lift (below.map (Level.count t)) us m' := by
  obtain ⟨us, hus, rfl⟩ := down_of_lt hn h (by rw [hk, hs, List.length_map, List.length_cons]; omega)
  rw [hs, List.map_cons] at hk
  exact ⟨us, rfl, hclose (hsize ▸ (next_reads hn).length_lt) hk (by rwa [List.length_map])⟩

/-- Where a token opens a level, that one is closed first, and then the one below it. -/
theorem exists_opened (hs : m.stack = top :: below) (hn : m.next = .ok (some (t, k)))
    (h : m.down below.length = some (ts, m')) (hsize : m.rest.length = size)
    (hk : k.stack = opened :: m.stack.map (Level.count t)) :
    ∃ us l rest, ts = t :: us ++ rest ∧ k.down m.stack.length = some (us, l) ∧
      Closes k opened.lift (m.stack.map (Level.count t)) us l ∧
        Closes l (top.behind (t :: us)).lift (below.map (Level.behind (t :: us))) rest m' := by
  have hlt : k.rest.length < size := hsize ▸ (next_reads hn).length_lt
  obtain ⟨vs, hvs, rfl⟩ := down_of_lt hn h (by
    rw [hk, hs, List.length_cons, List.length_map, List.length_cons]
    omega)
  obtain ⟨us, l, hus, hrest⟩ := down_split hvs
  rw [show below.length + 1 = (m.stack.map (Level.count t)).length by simp [hs]] at hus
  have hcloses := hclose hlt hk hus
  have hl : l.stack = top.behind (t :: us) :: below.map (Level.behind (t :: us)) := by
    rw [hcloses.stack, Level.map_behind_cons, hs, List.map_cons]
  obtain ⟨rest, hdown, rfl⟩ := hrest (by rw [hl, List.length_cons, List.length_map]; omega)
  obtain ⟨hsteps, -, -⟩ := down_steps hus
  have hshort : l.rest.length ≤ k.rest.length := by
    rw [← hsteps.text, List.length_append]
    omega
  rw [List.length_map] at hus
  exact ⟨us, l, rest, rfl, hus, hcloses, hclose (by omega) hl (by rwa [List.length_map])⟩

end Step

/-- **Reading until the level on top is closed.** By induction on what is left to read: a token closes the
level, leaves it open, or opens another, which is closed first. -/
theorem closes_of_down (hs : m.stack = top :: below) (h : m.down below.length = some (ts, m')) :
    Closes m top.lift below ts m' := by
  induction hsize : m.rest.length using Nat.strong_induction_on generalizing m m' ts top below with
  | _ size ih =>
  have hclose : ∀ {j l : Machine} {top : Level} {below : List Level} {us : List Token},
      j.rest.length < size → j.stack = top :: below → j.down below.length = some (us, l) →
        Closes j top.lift below us l := fun hj hs h => ih _ hj hs h rfl
  obtain ⟨t, k, hn, -⟩ := down_eq_some_iff.1 h
  cases next_move hn with
  | outside hnothing =>
    rw [hs] at hnothing
    cases hnothing
  | @code c rest r hcode hrest hbrace hr =>
    have hdollar := isDollarBrace_of_readCode hr
    cases top with
    | interpolation depth line =>
      cases ho : r.opens with
      | none =>
        obtain ⟨us, rfl, hus⟩ := closes_kept hclose hs hn h hsize (by simp [Machine.pass, ho])
        rw [Level.count_interpolation] at hus
        obtain ⟨hdelta, hcount⟩ := counts_code depth ((readCode_counts hr).imp_right
          fun ht => ⟨c, ht, fun hd => hbrace line below (hd ▸ hs)⟩)
        exact hus.cons hn (by simp [Machine.pass, ho]) (by simp only [Level.lift]; omega) hcount hdollar
      | some opened =>
        have hmark := literalMark_of_opens hr ho
        obtain ⟨-, hliteral⟩ := readCode_opens hr ho
        have hk : r.token.kind ≠ .punctuation := by simp [kind_of_literalMark hr hmark]
        obtain ⟨us, l, more, rfl, hdown, hus, hmore⟩ :=
          exists_opened hclose hs hn h hsize (by simp [Machine.pass, ho]; rfl)
        rw [Level.lift_of_isLiteral hliteral] at hus
        rw [Level.behind_interpolation, tally_cons, Token.count_of_kind hk] at hmore
        have hgt : m.stack.length < (m.pass r.token r.rest m.stack r.opens).stack.length := by
          simp [Machine.pass, ho]
        exact hus.literal hn hs hk (literal?_eq_some_iff.2 ⟨hcode, hrest ▸ hmark,
          down_eq_some_iff.2 ⟨_, _, hn, .inr ⟨hgt, us, hdown, rfl⟩⟩⟩) hgt hdown hmore
    | _ =>
      simp [readsCode, hs, Level.isLiteral] at hcode
  | @closing line below' rest hs' hrest =>
    rw [hs] at hs'
    cases hs'
    obtain ⟨rfl, rfl⟩ := down_of_le hn h (by simp [Machine.pass])
    have hcount : ∀ y, (⟨.punctuation, ['}']⟩ : Token).count (1 + y) = 0 + y := fun y => by
      simp [Token.count, Token.isPunctuation]
    exact (Closes.nil rfl).cons hn (by simp [Machine.pass, hs]) rfl hcount rfl
  | @opening level below' cut hs' hl ho =>
    rw [hs] at hs'
    cases hs'
    have hmark : cut.1 = ['{'] ∨ cut.1 = ['$', '{'] := by
      unfold opener at ho
      split at ho <;> cases ho <;> simp
    obtain ⟨us, l, more, rfl, hdown, hus, hmore⟩ := exists_opened hclose hs hn h hsize (by
      rw [hs]
      rfl)
    rw [Level.behind_of_isLiteral hl, Level.lift_of_isLiteral hl] at hmore
    rw [Level.lift_of_isLiteral hl]
    exact hus.interpolation hn hs hl hmark rfl (by simp [Machine.pass, hs]) hdown hmore
  | @text level below' s hs' hl =>
    rw [hs] at hs'
    cases hs'
    have hcount : ∀ y, (⟨.other, s.text⟩ : Token).count (0 + y) = 0 + y :=
      fun y => Token.count_of_kind (by simp) _
    rw [Level.lift_of_isLiteral hl]
    cases hc : s.closed with
    | true =>
      obtain ⟨rfl, rfl⟩ := down_of_le hn h (by simp [Machine.pass, hc])
      exact (Closes.nil (by simp [Machine.pass, hc])).cons hn (by simp [Machine.pass, hs, hc]) rfl hcount rfl
    | false =>
      obtain ⟨us, rfl, hus⟩ := closes_kept hclose hs hn h hsize (by simp [Machine.pass, hs, hc])
      rw [Level.count_of_isLiteral hl, Level.lift_of_isLiteral hl] at hus
      exact hus.cons hn (by simp [Machine.pass, hs, hc]) rfl hcount rfl

/-! ### Literals of a source -/

/-- Behind its first token a literal closes what that token opened. -/
theorem literal_cases (h : m.literal? = some (ts, m')) : ∃ t k us, m.next = .ok (some (t, k)) ∧ ts = t :: us ∧
    t.kind = .other ∧ Settles 0 us ∧ (braces us = 0 ↔ k.Clear us) := by
  obtain ⟨hcode, hmark, hdown⟩ := literal?_eq_some_iff.1 h
  obtain ⟨t, k, hn, hcases⟩ := down_eq_some_iff.1 hdown
  have hsettled : ∀ {below us}, Closes k 0 below us m' → Settles 0 us ∧ (braces us = 0 ↔ k.Clear us) :=
    fun hus => ⟨hus.settles, by simpa using hus.clear_iff⟩
  have hnested : ∀ {opened us}, k.stack = opened :: m.stack.map (Level.count t) → opened.isLiteral = true →
      k.down m.stack.length = some (us, m') → Settles 0 us ∧ (braces us = 0 ↔ k.Clear us) := by
    intro opened us hk hl hus
    have hcloses := closes_of_down hk (by rwa [List.length_map])
    rw [Level.lift_of_isLiteral hl] at hcloses
    exact hsettled hcloses
  cases next_move hn with
  | outside hnothing hout => simp [readsCode, hnothing, hout] at hcode
  | @code c rest r _ hrest _ hr =>
    have hkind := kind_of_literalMark hr (hrest ▸ hmark)
    rcases hcases with ⟨-, rfl, rfl⟩ | ⟨hgt, us, hus, rfl⟩
    · exact ⟨_, _, [], hn, rfl, hkind, hsettled (.nil rfl)⟩
    · refine ⟨_, _, us, hn, rfl, hkind, ?_⟩
      cases ho : r.opens with
      | none => simp [Machine.pass, ho] at hgt
      | some opened =>
        rw [← ho]
        exact hnested (by simp [Machine.pass, ho]) (readCode_opens hr ho).2 hus
  | closing hs hrest =>
    rw [hrest] at hmark
    cases hmark
  | opening hs hl => simp [readsCode, hs, hl] at hcode
  | text hs hl => simp [readsCode, hs, hl] at hcode

/-- **Braces in a literal.** In a source that the lexer accepts, every literal that interpolations may stand in
is read to its end; no beginning of it closes more braces than it opens; and it opens as many as it closes
exactly if no literal inside it stands between braces and holds a mark `$\x7b`. -/
theorem literal_braces {source : List Char} {before after : List Token} {m : Machine}
    (h : tokenize source = .ok (before ++ after)) (hm : Steps (start source) before m)
    (hat : m.atLiteral = true) : ∃ lit rest m', m.literal? = some (lit, m') ∧ after = lit ++ rest ∧
      (∀ front, front <+: lit → 0 ≤ braces front) ∧ (braces lit = 0 ↔ m.ClearInside lit) := by
  obtain ⟨last, hlast, hend, hnothing⟩ := tokenize_eq_ok_iff.1 h
  obtain ⟨m₀, hm₀, hafter⟩ := hlast.split
  obtain rfl := hm.unique hm₀
  obtain ⟨hcode, hmark⟩ := Bool.and_eq_true_iff.1 hat
  have hne : after ≠ [] := by
    rintro rfl
    cases hafter
    rw [hend] at hmark
    cases hmark
  obtain ⟨lit, rest, m', hdown, rfl⟩ := hafter.exists_down (n := m.stack.length) (by simp [hnothing]) hne
  have hlit := literal?_eq_some_iff.2 ⟨hcode, hmark, hdown⟩
  obtain ⟨t, k, us, hn, rfl, hkind, hsettles, hclear⟩ := literal_cases hlit
  have hplain : t.kind ≠ .punctuation := by simp [hkind]
  refine ⟨t :: us, rest, m', hlit, rfl, ?_, ?_⟩
  · rintro front ⟨back, hsplit⟩
    have hwhole : Settles 0 (t :: us) := hsettles.cons (by simp [Token.braceDelta_of_kind hplain])
      (fun y => Token.count_of_kind hplain _) (Token.isDollarBrace_of_kind hplain)
    simpa using hwhole.front front back hsplit.symm
  · rw [clearInside_cons_iff hn, ← hclear, braces_cons, Token.braceDelta_of_kind hplain, Int.zero_add]

/-- The statement holds of a literal with another one inside that stands between no braces and holds such a
mark. -/
theorem exists_literal_braces : ∃ source before after m lit m', tokenize source = .ok (before ++ after) ∧
    Steps (start source) before m ∧ m.atLiteral = true ∧ m.literal? = some (lit, m') ∧
      lit.any Token.isDollarBrace = true ∧ braces lit = 0 ∧ m.ClearInside lit := by
  let source := "<?php \"\x7b$f(\"$\x7bb\x7d\")\x7d\";".toList
  let tag : Token := ⟨.openTag, "<?php ".toList⟩
  let after := ((tokenize source).toOption.getD []).drop 1
  let m := (start source).readOutside.2
  have h : tokenize source = .ok ([tag] ++ after) := by decide +kernel
  have hm : Steps (start source) [tag] m := .next rfl (.refl _)
  have hat : m.atLiteral = true := by decide +kernel
  have hvalue : m.literal?.map (fun r => (braces r.1, r.1.any Token.isDollarBrace)) = some (0, true) := by
    decide +kernel
  obtain ⟨lit, rest, m', hlit, -, -, hzero⟩ := literal_braces h hm hat
  rw [hlit, Option.map_some, Option.some.injEq, Prod.mk.injEq] at hvalue
  exact ⟨source, [tag], after, m, lit, m', h, hm, hat, hlit, hvalue.2, hvalue.1, hzero.1 hvalue.1⟩

/-- A literal between braces of an interpolation that holds such a mark: the interpolation around it is closed
by the brace of the closure in it, and one brace stays open. -/
theorem literal_opens_more : ∃ source before lit after m m', tokenize source = .ok (before ++ (lit ++ after)) ∧
    Steps (start source) before m ∧ m.literal? = some (lit, m') ∧ braces lit = 1 := by
  let source := "<?php \"\x7b$f(function()\x7breturn \"$\x7bb\x7d\";\x7d)\x7d\";".toList
  let tag : Token := ⟨.openTag, "<?php ".toList⟩
  let m := (start source).readOutside.2
  have hm : Steps (start source) [tag] m := .next rfl (.refl _)
  have hsome : m.literal?.isSome = true := by decide +kernel
  obtain ⟨⟨lit, m'⟩, hlit⟩ := Option.isSome_iff_exists.1 hsome
  have h : tokenize source =
      .ok ([tag] ++ ((m.literal?.map Prod.fst).getD [] ++ [⟨.punctuation, [';']⟩])) := by decide +kernel
  have hvalue : m.literal?.map (fun r => braces r.1) = some 1 := by decide +kernel
  rw [hlit] at h hvalue
  exact ⟨source, [tag], lit, [⟨.punctuation, [';']⟩], m, m', h, hm, hlit, by simpa using hvalue⟩

end Machine

end PluginShading.Source
