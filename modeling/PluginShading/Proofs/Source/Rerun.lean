import Mathlib.Data.List.Forall2
import PluginShading.Proofs.Source.Simulation

/-!
Runs repeated on another text.

A run is repeated on the text that its tokens become when names move (`Steps.moved`), and on the text of
its tokens alone where the last of them is a stop (`Steps.cut`), from any machine that resembles the one
it began with.
-/
namespace PluginShading.Source.Machine

variable {strict : Prop} {inWord : Bool} {m n m' : Machine} {ts : List Token} {tail : List Char}

/-- Where a run may end so that it can be repeated: at the end of both texts, or behind a stop. -/
def Ends (ts : List Token) (a tail : List Char) : Prop :=
  (a = [] ∧ tail = []) ∨ ∃ t, ts.getLast? = some t ∧ isStopToken t = true

theorem Ends.of_cons {t : Token} {a : List Char} (h : Ends (t :: ts) a tail)
    (ht : isStopToken t = true → ts ≠ []) : Ends ts a tail := by
  refine h.imp_right fun ⟨last, hlast, hstop⟩ => ?_
  cases ts with
  | nil =>
    obtain rfl : t = last := by simpa using hlast
    exact absurd rfl (ht hstop)
  | cons s rest => exact ⟨last, by simpa using hlast, hstop⟩

/-- Where a run ends in a word, no number goes on behind it. -/
theorem Steps.headIs_isNumeral (h : Steps m ts m') (hm : m.Sound)
    (he : endsInWord (Source.text ts) = true) : headIs isNumeral m'.rest = false := by
  induction h with
  | refl => cases he
  | @next m after m' t ts hn hsteps ih =>
    cases hsteps with
    | refl => exact next_rest hm hn (by simpa [text_cons] using he)
    | next hn' hsteps' =>
      refine ih (hm.next hn) ?_
      rwa [text_cons, endsInWord_append_of_ne_nil] at he
      rw [text_cons]
      simp [(next_reads hn').ne_nil]

/-- The text of a run looks like what its tokens become. -/
theorem Steps.alike {g : Token → List Char} (h : Steps m ts m') (hm : m.Sound)
    (hg : ∀ t ∈ ts, Moved strict t (g t)) (hend : Ends ts m'.rest tail)
    (hw : inWord = true → headIs isNumeral m.rest = false) :
    Alike strict inWord m.rest (ts.flatMap g ++ tail) := by
  induction h generalizing inWord with
  | refl m =>
    rcases hend with ⟨hrest, rfl⟩ | ⟨t, ht, -⟩
    · rw [hrest]
      exact .nil
    · cases ht
  | @next m after m' t ts hn _ ih =>
    have htext := (next_reads hn).text
    have hne := (next_reads hn).ne_nil
    have hu := hg t List.mem_cons_self
    rw [← htext, List.flatMap_cons, List.append_assoc]
    cases hstop : isStopToken t with
    | true =>
      obtain ⟨hk, c, hc, ht⟩ := isStopToken_iff.1 hstop
      rw [hu.eq_of_kind (by rw [hk]; rfl), ht]
      exact .stop _ _ hc
    | false =>
      refine hu.alike hne (next_nameEnds hn) (ih (hm.next hn)
        (fun s hs => hg s (List.mem_cons_of_mem t hs)) (hend.of_cons (by simp [hstop])) (next_rest hm hn)) ?_
      intro hin
      have hnumeral := hw hin
      obtain ⟨c, rest, hc⟩ := List.exists_cons_of_ne_nil hne
      rw [← htext, hc] at hnumeral
      rw [hc]
      exact hnumeral

/-- Text outside code is read up to a tag, or to the end. -/
theorem next_inline {t : Token} {after : Machine} (hn : m.next = .ok (some (t, after))) (hs : m.stack = [])
    (ho : m.outside = true) (hk : t.kind = .other) :
    after.stack = [] ∧ after.outside = true ∧ after.rest = (inlineText m.rest).2 := by
  have hne : m.rest ≠ [] := by
    rw [← (next_reads hn).text]
    simp [(next_reads hn).ne_nil]
  rw [next_of_outside hs ho hne, Except.ok.injEq, Option.some.injEq] at hn
  unfold readOutside at hn
  split at hn
  all_goals
    simp only [Prod.mk.injEq] at hn
    obtain ⟨rfl, rfl⟩ := hn
  · cases hk
  · exact ⟨by simp [Machine.pass, hs], ho, rfl⟩

/-- Behind text outside code, what the tokens become begins with the same tag. -/
theorem Steps.tagged {g : Token → List Char} {t : Token} {after : Machine}
    (hn : m.next = .ok (some (t, after))) (h : Steps after ts m') (hm : m.Sound)
    (hs : m.stack = []) (ho : m.outside = true) (hk : t.kind = .other)
    (hg : ∀ t ∈ ts, Moved strict t (g t)) (hend : Ends ts m'.rest tail) :
    Tagged after.rest (ts.flatMap g ++ tail) := by
  have hsound := hm.next hn
  obtain ⟨hstack, houtside, hrest⟩ := next_inline hn hs ho hk
  cases h with
  | refl =>
    rcases hend with ⟨hnil, rfl⟩ | ⟨s, hs, -⟩
    · exact .inl ⟨hnil, rfl⟩
    · cases hs
  | @next _ second _ s ss hs2 h =>
    have hne : after.rest ≠ [] := by
      rw [← (next_reads hs2).text]
      simp [(next_reads hs2).ne_nil]
    have htag : (openTag after.rest).isSome = true := by
      rw [hrest] at hne ⊢
      exact (inlineText_rest m.rest).resolve_left hne
    obtain ⟨cut, hcut⟩ := Option.isSome_iff_exists.1 htag
    have hread := next_of_outside hstack houtside hne
    rw [hs2] at hread
    unfold readOutside at hread
    rw [hcut] at hread
    simp only [Except.ok.injEq, Option.some.injEq, Prod.mk.injEq] at hread
    obtain ⟨rfl, rfl⟩ := hread
    have hlike : Alike strict false _ (ss.flatMap g ++ tail) := h.alike (hsound.next hs2)
      (fun s hs => hg s (List.mem_cons_of_mem _ hs)) (hend.of_cons (by intro hc; cases hc)) (by simp)
    rw [List.flatMap_cons, List.append_assoc, (hg _ List.mem_cons_self).eq_of_kind rfl]
    exact .inr ⟨cut.1, cut.2, _, hcut, openTag_swap hcut hlike⟩

/-- **A run is repeated on what its tokens become.** -/
theorem Steps.moved {g : Token → List Char} (h : Steps m ts m') (hm : m.Sound)
    (hg : ∀ t ∈ ts, Moved strict t (g t)) (hend : Ends ts m'.rest tail) (hn : m.Resembles n)
    (hrest : n.rest = ts.flatMap g ++ tail) :
    ∃ ts' n', Steps n ts' n' ∧ List.Forall₂ (Renames strict) ts ts' ∧ ts'.map Token.text = ts.map g ∧
      n'.rest = tail ∧ m'.Resembles n' := by
  induction h generalizing n with
  | refl m => exact ⟨[], n, .refl n, .nil, rfl, hrest, hn⟩
  | @next m after m' t ts hnext h ih =>
    have hg' := fun s hs => hg s (List.mem_cons_of_mem t hs)
    have hsound := hm.next hnext
    rw [List.flatMap_cons, List.append_assoc] at hrest
    have hfits : Fits strict t after.rest (ts.flatMap g ++ tail) := by
      cases hstop : isStopToken t with
      | true => exact .inl hstop
      | false => exact .inr (h.alike hsound hg' (hend.of_cons (by simp [hstop])) (next_rest hm hnext))
    have htag : m.stack = [] → m.outside = true → t.kind = .other →
        Tagged after.rest (ts.flatMap g ++ tail) := by
      intro hs ho hk
      refine Steps.tagged hnext h hm hs ho hk hg' (hend.of_cons ?_)
      simp [isStopToken, Token.isPunctuation, hk]
    obtain ⟨t', n1, hread, hrenames, htext, hrest1, hlike⟩ :=
      hn.next hm hnext hrest (hg t List.mem_cons_self) hfits htag
    cases ts with
    | nil =>
      cases h
      exact ⟨[t'], n1, .next hread (.refl n1), .cons hrenames .nil, by simp [htext], hrest1, hlike⟩
    | cons s ss =>
      obtain ⟨ts', n', hsteps, hall, htexts, hafter⟩ :=
        ih hsound hg' (hend.of_cons (by simp)) hlike hrest1
      exact ⟨t' :: ts', n', .next hread hsteps, .cons hrenames hall, by simp [htext, htexts], hafter⟩

/-- Where the kinds stay, the tokens have other texts and nothing else. -/
theorem eq_map_retext {g : Token → List Char} {ts' : List Token}
    (h : List.Forall₂ (Renames True) ts ts') (htext : ts'.map Token.text = ts.map g) :
    ts' = ts.map (Token.retext g) := by
  induction h with
  | nil => rfl
  | @cons t t' ts ts' ht _ ih =>
    rw [List.map_cons, List.map_cons, List.cons.injEq] at htext
    have hkind : t'.kind = t.kind := ht.kind.resolve_right fun h => h.1 trivial
    obtain ⟨kind', text'⟩ := t'
    obtain rfl : kind' = t.kind := hkind
    obtain rfl : text' = g t := htext.1
    rw [ih htext.2]
    rfl

/-- **A run through a stop is repeated on the text of its tokens alone.** -/
theorem Steps.cut (h : Steps m ts m') (hm : m.Sound)
    (hstop : ∃ t, ts.getLast? = some t ∧ isStopToken t = true) (hn : m.Resembles n)
    (hrest : n.rest = Source.text ts) :
    ∃ n', Steps n ts n' ∧ n'.rest = [] ∧ m'.Resembles n' := by
  have hsame : ∀ t ∈ ts, Moved True t (Token.text t) := fun t _ => .same
  have hend : Ends ts m'.rest [] := .inr hstop
  obtain ⟨ts', n', hsteps, hall, htexts, hafter⟩ :=
    h.moved hm hsame hend hn (by rw [hrest, List.append_nil]; rfl)
  rw [eq_map_retext hall htexts, show Token.retext Token.text = id from rfl, List.map_id] at hsteps
  exact ⟨n', hsteps, hafter⟩

theorem readCode_of_stopToken {c : Char} {rest : List Char} {t : Token} {after : Machine}
    (h : m.readCode c rest = .ok (some (t, after))) (ht : isStopToken t = true) :
    after.outside = m.outside ∧ after.last = some t ∧ after.stack = m.stack.map (Level.count t) := by
  unfold Machine.readCode at h
  split at h
  · simp at h
  · rename_i r hr
    simp only [Except.ok.injEq, Option.some.injEq, Prod.mk.injEq] at h
    obtain ⟨rfl, rfl⟩ := h
    obtain ⟨-, d, hd, htext⟩ := isStopToken_iff.1 ht
    have happend := readCode_append hr
    rw [htext, List.singleton_append, List.cons.injEq] at happend
    obtain ⟨rfl, -⟩ := happend
    rw [readCode_of_stop _ _ hd] at hr
    cases hr
    exact ⟨Bool.or_false _, rfl, rfl⟩

/-- Behind a stop with nothing open, code goes on. -/
theorem next_of_stop {t : Token} {after : Machine} (hm : m.Sound)
    (h : m.next = .ok (some (t, after))) (ht : isStopToken t = true) (hs : after.stack = []) :
    after.outside = false ∧ after.last = some t := by
  cases next_move h with
  | outside =>
    unfold readOutside at ht
    split at ht <;> cases ht
  | code hcode hrest hbrace =>
    rw [next_of_readsCode hcode hrest hbrace] at h
    obtain ⟨houtside, hlast, hafter⟩ := readCode_of_stopToken h ht
    rw [hs] at hafter
    have hstack : m.stack = [] := List.map_eq_nil_iff.1 hafter.symm
    exact ⟨houtside.trans (by simpa [readsCode, hstack] using hcode), hlast⟩
  | @closing line below _ hstack _ =>
    obtain rfl : below = [] := by simpa [Machine.pass] using hs
    exact absurd (hm.ground (.interpolation 0 line) (by rw [hstack]; rfl)) (by simp [Level.isLiteral])
  | opening _ _ ho =>
    unfold opener at ho
    split at ho <;> cases ho <;> cases ht
  | text => cases ht

/-- A machine that reads code with nothing open, and not the name of a member. -/
structure Plain (m : Machine) : Prop where
  outside : m.outside = false
  stack : m.stack = []
  member : namesMember m.last = false

theorem Plain.resembles (hm : m.Plain) (hn : n.Plain) : m.Resembles n :=
  ⟨hn.outside.trans hm.outside.symm, by rw [hm.stack, hn.stack], hn.member.trans hm.member.symm⟩

theorem Plain.sound (hm : m.Plain) : m.Sound := sound_of_stack_eq_nil hm.stack

theorem Plain.next_eq {c : Char} {rest : List Char} (hm : m.Plain) (hrest : m.rest = c :: rest) :
    m.next = m.readCode c rest := by
  unfold Machine.next
  rw [hm.stack, hrest, hm.outside]
  rfl

theorem namesMember_of_stop {t : Token} (ht : isStopToken t = true) : namesMember (some t) = false := by
  obtain ⟨hk, c, hc, htext⟩ := isStopToken_iff.1 ht
  rcases isStop_iff.1 hc with rfl | rfl <;> simp [namesMember, Token.isKeyword, hk, htext]

/-- A run through a stop with nothing open leads to a machine that reads code. -/
theorem Steps.plain (h : Steps m ts m') (hm : m.Sound)
    (hstop : ∃ t, ts.getLast? = some t ∧ isStopToken t = true) (hs : m'.stack = []) : m'.Plain := by
  obtain ⟨t, hlast, ht⟩ := hstop
  obtain ⟨front, rfl⟩ := List.getLast?_eq_some_iff.1 hlast
  obtain ⟨k, hfront, hk⟩ := h.split
  cases hk with
  | next hn hrefl =>
    cases hrefl
    have := next_of_stop (hfront.sound hm) hn ht hs
    exact ⟨this.1, hs, by rw [this.2]; exact namesMember_of_stop ht⟩

/-- White space and comments leave the machine as it is. -/
theorem Steps.plain_of_insignificant (h : Steps m ts m') (hm : m.Plain)
    (hs : ∀ t ∈ ts, t.significant = false) : m'.Plain := by
  induction h with
  | refl => exact hm
  | @next m after m' t ts hn _ ih =>
    have ht := hs t List.mem_cons_self
    refine ih ?_ fun s hmem => hs s (List.mem_cons_of_mem t hmem)
    unfold Machine.next at hn
    rw [hm.stack] at hn
    split at hn
    · simp at hn
    · rename_i heq _
      rw [hm.outside] at hn
      simp only [Bool.false_eq_true, if_false] at hn
      unfold Machine.readCode at hn
      split at hn
      · simp at hn
      · rename_i r hr
        simp only [Except.ok.injEq, Option.some.injEq, Prod.mk.injEq] at hn
        obtain ⟨rfl, rfl⟩ := hn
        obtain ⟨hcloses, hopens⟩ := readCode_insignificant hr ht
        refine ⟨by simp [hm.outside, hcloses], by simp [Machine.pass, hm.stack, hopens], ?_⟩
        simp only [Machine.pass, ht]
        exact hm.member
    all_goals contradiction

end PluginShading.Source.Machine
