import PluginShading.Json.Value
import PluginShading.Proofs.Json.Numerals

/-!
Where the tokens of a JSON text end.

A scan looks at one character at most of what it leaves (`LooksOnce`), so it ends where it did if another text that
begins alike stands there. Scans one behind the other do so again, and scans that take one way or another by a mark. The
strings and the numbers are such scans, and with them the tokens (`looksOnce_token`). The tokens of a text are that of
its beginning and those of what it leaves (`tokens_of_next`).
-/
namespace PluginShading.Json

variable {α β : Type} {c : Char} {a b cs rest : List Char} {t : Token} {ts : List Token}

/-- Texts that begin alike, or one with an object where the other begins with a list. -/
def SameHead (a b : List Char) : Prop := a.head? = b.head? ∨ a.head? = some '{' ∧ b.head? = some '['

theorem SameHead.append (h : SameHead a b) : ∀ front, SameHead (front ++ a) (front ++ b)
  | [] => h
  | _ :: _ => .inl rfl

theorem SameHead.mem (h : SameHead a b) (hb : c ∈ b.head?) : c ∈ a.head? ∨ c = '[' := by
  rcases h with heq | ⟨-, hlist⟩
  · exact .inl (heq ▸ hb)
  · exact .inr (Option.some.inj (hb.symm.trans hlist))

/-- The scan looks at one character at most of what it leaves: behind what it took it may find another text. -/
def LooksOnce (scan : List Char → Option (α × List Char)) : Prop :=
  ∀ ⦃cs v rest⦄, scan cs = some (v, rest) →
    ∃ front, cs = front ++ rest ∧ ∀ b, SameHead rest b → scan (front ++ b) = some (v, b)

namespace LooksOnce

variable {scan other : List Char → Option (α × List Char)}

theorem leave (v : α) : LooksOnce fun cs => some (v, cs) := by
  intro cs u rest hscan
  obtain ⟨rfl, rfl⟩ := Prod.mk.inj (Option.some.inj hscan)
  exact ⟨[], rfl, fun b _ => rfl⟩

theorem congr (h : LooksOnce other) (heq : ∀ cs, other cs = scan cs) : LooksOnce scan :=
  funext heq ▸ h

theorem map (h : LooksOnce scan) (f : α → β) : LooksOnce fun cs => (scan cs).map fun cut => (f cut.1, cut.2) := by
  intro cs v rest hscan
  obtain ⟨⟨u, r⟩, hu, heq⟩ := Option.map_eq_some_iff.1 hscan
  obtain ⟨rfl, rfl⟩ := Prod.mk.inj heq
  obtain ⟨front, hfront, hswap⟩ := h hu
  exact ⟨front, hfront, fun b hb => by simp only [hswap b hb, Option.map_some]⟩

theorem bind {more : α → List Char → Option (β × List Char)} (h : LooksOnce scan) (hmore : ∀ v, LooksOnce (more v)) :
    LooksOnce fun cs => (scan cs).bind fun cut => more cut.1 cut.2 := by
  intro cs v rest hscan
  obtain ⟨⟨u, r⟩, hu, hv⟩ := Option.bind_eq_some_iff.1 hscan
  obtain ⟨front, rfl, hswap⟩ := h hu
  obtain ⟨front', rfl, hswap'⟩ := hmore u hv
  refine ⟨front ++ front', (List.append_assoc ..).symm, fun b hb => ?_⟩
  simp only [List.append_assoc, hswap _ (hb.append front'), Option.bind_some]
  exact hswap' b hb

/-- A scan that goes one way behind some marks, and another where none of them stands. -/
theorem branch {p : Char → Prop} (hlist : ¬ p '[') (hmark : ∀ c, p c → LooksOnce fun rest => scan (c :: rest))
    (hother : LooksOnce other) (hnone : ∀ cs, (∀ c ∈ cs.head?, ¬ p c) → scan cs = other cs) : LooksOnce scan := by
  intro cs v rest hscan
  by_cases hhead : ∃ c ∈ cs.head?, p c
  · obtain ⟨c, hc, hm⟩ := hhead
    obtain ⟨more, rfl⟩ := List.head?_eq_some_iff.1 hc
    obtain ⟨front, rfl, hswap⟩ := hmark c hm hscan
    exact ⟨c :: front, rfl, hswap⟩
  · have hcs : ∀ c ∈ cs.head?, ¬ p c := fun c hc hm => hhead ⟨c, hc, hm⟩
    rw [hnone cs hcs] at hscan
    obtain ⟨front, rfl, hswap⟩ := hother hscan
    refine ⟨front, rfl, fun b hb => (hnone _ fun c hc => ?_).trans (hswap b hb)⟩
    rcases (hb.append front).mem hc with hmem | rfl
    · exact hcs c hmem
    · exact hlist

end LooksOnce

/-! ### Numbers -/

/-- A run of digits that is not empty. -/
def digitsScan (cs : List Char) : Option (List Nat × List Char) :=
  if (digitRun cs).1 = [] then none else some (digitsOf (digitRun cs).1, (digitRun cs).2)

theorem looksOnce_digits : LooksOnce digitsScan := by
  intro cs v rest hscan
  rw [digitsScan] at hscan
  split at hscan
  · cases hscan
  · rename_i hne
    obtain ⟨rfl, rfl⟩ := Prod.mk.inj (Option.some.inj hscan)
    obtain ⟨hsplit, hdigits⟩ := digitRun_spec cs
    refine ⟨_, hsplit, fun b hb => ?_⟩
    have hrun : digitRun b = ([], b) := by
      cases b with
      | nil => rfl
      | cons c b =>
        have hc : c.isDigit = false := by
          rcases hb.mem rfl with hhead | rfl
          · have hstop := List.head?_dropWhile_not Char.isDigit cs
            rw [show (cs.dropWhile Char.isDigit).head? = some c from hhead] at hstop
            exact hstop
          · decide
        rw [digitRun, List.takeWhile_cons, List.dropWhile_cons, hc]
        rfl
    rw [digitsScan, show digitRun ((digitRun cs).1 ++ b) = ((digitRun cs).1 ++ (digitRun b).1, (digitRun b).2) from
      Prod.ext (List.takeWhile_append_of_pos hdigits) (List.dropWhile_append_of_pos hdigits), hrun, List.append_nil, if_neg hne]

theorem map_digitsScan (f : List Nat → α) (cs : List Char) : (digitsScan cs).map (fun cut => (f cut.1, cut.2)) =
    if (digitRun cs).1 = [] then none else some (f (digitsOf (digitRun cs).1), (digitRun cs).2) := by
  rw [digitsScan]
  split <;> rfl

theorem looksOnce_whole : LooksOnce wholeOf := by
  refine .branch (p := (· = '0')) (by decide) ?_ looksOnce_digits fun cs hcs => ?_
  · rintro c rfl
    exact .leave [0]
  · unfold wholeOf
    split
    · exact absurd rfl (hcs _ rfl)
    · rfl

theorem looksOnce_decimals : LooksOnce decimalsOf := by
  refine .branch (p := (· = '.')) (by decide) ?_ (.leave none) fun cs hcs => ?_
  · rintro c rfl
    exact (looksOnce_digits.map some).congr fun rest => map_digitsScan some rest
  · unfold decimalsOf
    split
    · exact absurd rfl (hcs _ rfl)
    · rfl

theorem looksOnce_exponent : LooksOnce exponentOf := by
  have hdigits : ∀ down, LooksOnce fun cs => (digitsScan cs).map fun cut => (some (down, cut.1), cut.2) :=
    fun (down : Bool) => looksOnce_digits.map fun ds => some (down, ds)
  have hsigned : LooksOnce fun rest => exponentOf ('e' :: rest) := by
    refine .branch (p := fun c => c = '+' ∨ c = '-') (by decide) ?_ (hdigits false) fun cs hcs => ?_
    · rintro c (rfl | rfl)
      · exact (hdigits false).congr fun rest => map_digitsScan (fun ds => some (false, ds)) rest
      · exact (hdigits true).congr fun rest => map_digitsScan (fun ds => some (true, ds)) rest
    · rw [map_digitsScan fun ds => some (false, ds)]
      dsimp only [exponentOf]
      rw [if_pos (.inl rfl)]
      split
      · exact absurd (.inl rfl) (hcs _ rfl)
      · exact absurd (.inr rfl) (hcs _ rfl)
      · rfl
  refine .branch (p := fun c => c = 'e' ∨ c = 'E') (by decide) ?_ (.leave none) fun cs hcs => ?_
  · rintro c (rfl | rfl)
    · exact hsigned
    · exact hsigned
  · unfold exponentOf
    split
    · rfl
    · rw [if_neg (hcs _ rfl)]

theorem looksOnce_numeral (negative : Bool) : LooksOnce (numeralOf negative) :=
  looksOnce_whole.bind fun whole => looksOnce_decimals.bind fun decimals =>
    looksOnce_exponent.bind fun exponent => .leave (⟨negative, whole, decimals, exponent⟩ : Numeral)

/-! ### Strings -/

theorem looksOnce_string : LooksOnce stringUnits := by
  intro cs v rest hscan
  fun_induction stringUnits cs generalizing v with
  | case1 => cases hscan
  | case2 more =>
    obtain ⟨rfl, rfl⟩ := Prod.mk.inj (Option.some.inj hscan)
    exact ⟨['"'], rfl, fun b _ => rfl⟩
  | case3 a b c d more ih =>
    simp only [Option.bind_eq_bind, Option.bind_eq_some_iff, Option.pure_def, Option.some.injEq, Prod.mk.injEq] at hscan
    obtain ⟨n, hn, ⟨units, r⟩, hr, rfl, rfl⟩ := hscan
    obtain ⟨front, rfl, hswap⟩ := ih hr
    refine ⟨'\\' :: 'u' :: a :: b :: c :: d :: front, rfl, fun b hb => ?_⟩
    simp [stringUnits, hn, hswap b hb]
  | case4 c more hlong ih =>
    simp only [Option.bind_eq_bind, Option.bind_eq_some_iff, Option.pure_def, Option.some.injEq, Prod.mk.injEq] at hscan
    obtain ⟨plain, hplain, ⟨units, r⟩, hr, rfl, rfl⟩ := hscan
    obtain ⟨front, rfl, hswap⟩ := ih hr
    have hc : c ≠ 'u' := by
      rintro rfl
      cases hplain
    refine ⟨'\\' :: c :: front, rfl, fun b hb => ?_⟩
    simp [stringUnits, hplain, hswap b hb, hc]
  | case5 => cases hscan
  | case6 c more hquote hcode hescape hlow ih =>
    simp only [Option.bind_eq_bind, Option.bind_eq_some_iff, Option.pure_def, Option.some.injEq, Prod.mk.injEq] at hscan
    obtain ⟨⟨units, r⟩, hr, rfl, rfl⟩ := hscan
    -- A backslash with nothing behind it is the end of the text, and the string is not closed.
    have hc : c ≠ '\\' := fun hc => by
      cases more with
      | nil => cases hr
      | cons d more => exact hescape d more hc rfl
    obtain ⟨front, rfl, hswap⟩ := ih hr
    refine ⟨c :: front, rfl, fun b hb => ?_⟩
    simp [stringUnits, hlow, hswap b hb, hc]

/-! ### Tokens -/

theorem isDigit_of_numeralOf {negative : Bool} {cut : Numeral × List Char}
    (h : numeralOf negative (c :: rest) = some cut) : c.isDigit = true := by
  obtain ⟨⟨ds, r⟩, hwhole, -⟩ := Option.bind_eq_some_iff.1 h
  obtain ⟨w, hsplit, hw, -⟩ := wholeOf_spec hwhole
  obtain ⟨d, digits, rfl⟩ := List.exists_cons_of_ne_nil hw.ne_nil
  obtain ⟨rfl, -⟩ := List.cons.inj hsplit
  exact hw.digits c List.mem_cons_self

theorem next_of_isDigit (hc : c.isDigit = true) (rest : List Char) :
    Token.next c rest = (numeralOf false (c :: rest)).map fun cut => (.number cut.1, cut.2) := by
  unfold Token.next
  split <;> first | rfl | exact absurd hc (by decide)

/-- **A token ends where it did** if the text behind it begins alike. -/
theorem looksOnce_token : LooksOnce (Token.next c) := by
  intro cs t rest hscan
  by_cases hc : c.isDigit = true
  · -- The first digit is scanned with the others.
    rw [next_of_isDigit hc] at hscan
    obtain ⟨front, hfront, hswap⟩ := (looksOnce_numeral false).map Token.number hscan
    cases front with
    | nil =>
      obtain ⟨cut, hcut, heq⟩ := Option.map_eq_some_iff.1 hscan
      obtain ⟨-, rfl⟩ := Prod.mk.inj heq
      have hshorter := numeralOf_length hcut
      rw [hfront] at hshorter
      exact absurd hshorter (lt_irrefl _)
    | cons d front =>
      obtain ⟨rfl, rfl⟩ := List.cons.inj hfront
      exact ⟨front, rfl, fun b hb => (next_of_isDigit hc _).trans (hswap b hb)⟩
  · unfold Token.next at hscan
    split at hscan
    · exact LooksOnce.leave Token.openBrace hscan
    · exact LooksOnce.leave Token.closeBrace hscan
    · exact LooksOnce.leave Token.openBracket hscan
    · exact LooksOnce.leave Token.closeBracket hscan
    · exact LooksOnce.leave Token.comma hscan
    · exact LooksOnce.leave Token.colon hscan
    · obtain ⟨rfl, rfl⟩ := Prod.mk.inj (Option.some.inj hscan)
      exact ⟨['u', 'l', 'l'], rfl, fun b _ => rfl⟩
    · obtain ⟨rfl, rfl⟩ := Prod.mk.inj (Option.some.inj hscan)
      exact ⟨['r', 'u', 'e'], rfl, fun b _ => rfl⟩
    · obtain ⟨rfl, rfl⟩ := Prod.mk.inj (Option.some.inj hscan)
      exact ⟨['a', 'l', 's', 'e'], rfl, fun b _ => rfl⟩
    · exact looksOnce_string.map (fun units => Token.string ((textOf units).map String.ofList)) hscan
    · exact (looksOnce_numeral true).map Token.number hscan
    · obtain ⟨cut, hcut, -⟩ := Option.map_eq_some_iff.1 hscan
      exact absurd (isDigit_of_numeralOf hcut) hc

/-! ### Texts -/

theorem tokens_blank (hc : isBlank c = true) (rest : List Char) : tokens (c :: rest) = tokens rest := by
  rw [tokens, if_pos hc]

theorem tokens_gap {gap : List Char} (hgap : gap.all isBlank = true) (rest : List Char) :
    tokens (gap ++ rest) = tokens rest := by
  induction gap with
  | nil => rfl
  | cons c gap ih =>
    obtain ⟨hc, hgap⟩ := Bool.and_eq_true_iff.1 hgap
    exact (tokens_blank hc _).trans (ih hgap)

theorem tokens_of_next {cut : Token × List Char} (hblank : isBlank c = false) (h : Token.next c rest = some cut) :
    tokens (c :: rest) = (tokens cut.2).map (cut.1 :: ·) := by
  rw [tokens, if_neg (by simp [hblank])]
  split
  · rename_i hnone
    rw [h] at hnone
    cases hnone
  · rename_i cut' hcut
    obtain rfl := Option.some.inj (hcut.symm.trans h)
    rfl

theorem exists_next (hblank : isBlank c = false) (h : tokens (c :: rest) = some ts) :
    ∃ t after more, Token.next c rest = some (t, after) ∧ tokens after = some more ∧ ts = t :: more := by
  cases hnext : Token.next c rest with
  | none =>
    rw [tokens, if_neg (by simp [hblank])] at h
    split at h
    · cases h
    · rename_i cut hcut
      cases hnext.symm.trans hcut
  | some cut =>
    rw [tokens_of_next hblank hnext] at h
    obtain ⟨more, hmore, rfl⟩ := Option.map_eq_some_iff.1 h
    exact ⟨cut.1, cut.2, more, rfl, hmore, rfl⟩

/-- A brace is a token of its own. -/
theorem eq_of_next_brace {after : List Char} (ht : t = .openBrace ∨ t = .closeBrace)
    (h : Token.next c rest = some (t, after)) : rest = after ∧ c = if t = .openBrace then '{' else '}' := by
  unfold Token.next at h
  split at h
  all_goals first
    | (obtain ⟨rfl, rfl⟩ := Prod.mk.inj (Option.some.inj h); simp at ht ⊢)
    | (obtain ⟨cut, -, heq⟩ := Option.map_eq_some_iff.1 h; obtain ⟨rfl, -⟩ := Prod.mk.inj heq; simp at ht)

/-- In front of a closing brace stand blanks. -/
theorem exists_gap (h : tokens cs = some (.closeBrace :: ts)) :
    ∃ gap rest, cs = gap ++ '}' :: rest ∧ gap.all isBlank = true ∧ tokens rest = some ts := by
  induction cs with
  | nil =>
    rw [tokens] at h
    cases h
  | cons c rest ih =>
    cases hblank : isBlank c with
    | true =>
      rw [tokens_blank hblank] at h
      obtain ⟨gap, behind, rfl, hgap, hbehind⟩ := ih h
      exact ⟨c :: gap, behind, rfl, Bool.and_eq_true_iff.2 ⟨hblank, hgap⟩, hbehind⟩
    | false =>
      obtain ⟨t, after, more, hnext, hmore, heq⟩ := exists_next hblank h
      obtain ⟨rfl, rfl⟩ := List.cons.inj heq
      obtain ⟨rfl, rfl⟩ := eq_of_next_brace (.inr rfl) hnext
      exact ⟨[], rest, rfl, rfl, hmore⟩

end PluginShading.Json
