import PluginShading.Source.Lexer

/-!
What the lexer looks at behind a token.

Where a token ends depends on the text behind it, but on little of it: on whether a word goes on, on one
or two marks that would make a longer operator, on the word behind `enum`. `Alike a b` says that `b` may
stand where `a` stood: the texts are the same up to a mark that ends every lexeme, or up to a name, for
which another name may stand. Every recogniser that stops in front of `a` stops in front of `b` at the
same place (the `_swap` lemmas).
-/
namespace PluginShading.Source

/-! ### Classes of characters -/

/-- A mark that is a token of its own whatever surrounds it, and that ends every other token of code. -/
def isStop (c : Char) : Bool := c == ';' || c == '}'

/-- A character that is neither the beginning of a name nor a stop. -/
def isMark (c : Char) : Bool := !isNameStart c && !isStop c

theorem isMark_iff {c : Char} : isMark c = true ↔ isNameStart c = false ∧ isStop c = false := by
  simp [isMark]

theorem isNameStart_toNat {c : Char} (h : isNameStart c = true) : 65 ≤ c.toNat := by
  have hcases : ((c.isUpper = true ∨ c.isLower = true) ∨ c = '_') ∨ 0x80 ≤ c.toNat := by
    have h : (((c.isUpper || c.isLower) || c == '_') || decide (0x80 ≤ c.toNat)) = true := h
    simpa only [Bool.or_eq_true, beq_iff_eq, decide_eq_true_eq] using h
  rcases hcases with ((h | h) | rfl) | h
  · exact (of_decide_eq_true h).1
  · exact Nat.le_trans (by decide) (of_decide_eq_true (Bool.and_eq_true_iff.1 h).1)
  · decide
  · omega

theorem isDigit_toNat {c : Char} (h : c.isDigit = true) : c.toNat ≤ 57 := by
  simp only [Char.isDigit, Bool.and_eq_true, decide_eq_true_eq] at h
  exact h.2

theorem isDigit_of_isNameStart {c : Char} (h : isNameStart c = true) : c.isDigit = false := by
  have := isNameStart_toNat h
  cases hd : c.isDigit with
  | false => rfl
  | true => have := isDigit_toNat hd; omega

theorem isNameChar_of_isNameStart {c : Char} (h : isNameStart c = true) : isNameChar c = true := by
  simp [isNameChar, h]

theorem isNameStart_of_lt {c : Char} (h : c.toNat < 65) : isNameStart c = false := by
  cases hs : isNameStart c with
  | false => rfl
  | true => have := isNameStart_toNat hs; omega

theorem isBlank_toNat {c : Char} (h : isBlank c = true) : c.toNat ≤ 32 := by
  simp only [isBlank, Bool.or_eq_true, beq_iff_eq] at h
  rcases h with ((rfl | rfl) | rfl) | rfl <;> decide

theorem isNameStart_of_isBlank {c : Char} (h : isBlank c = true) : isNameStart c = false := by
  have := isBlank_toNat h
  exact isNameStart_of_lt (by omega)

theorem isNameChar_of_isBlank {c : Char} (h : isBlank c = true) : isNameChar c = false := by
  have hb := isBlank_toNat h
  have hd : c.isDigit = false := by
    cases hd : c.isDigit with
    | false => rfl
    | true =>
      simp only [Char.isDigit, Bool.and_eq_true, decide_eq_true_eq] at hd
      have : 48 ≤ c.toNat := hd.1
      omega
  simp [isNameChar, isNameStart_of_isBlank h, hd]

theorem isStop_iff {c : Char} : isStop c = true ↔ c = ';' ∨ c = '}' := by simp [isStop]

theorem isNameChar_of_isStop {c : Char} (h : isStop c = true) : isNameChar c = false := by
  rcases isStop_iff.1 h with rfl | rfl <;> decide

theorem isBlank_of_isStop {c : Char} (h : isStop c = true) : isBlank c = false := by
  rcases isStop_iff.1 h with rfl | rfl <;> decide

/-! ### Texts that look alike from in front -/

/-- The word in front is one that follows `enum` only where no name does. -/
def isClause (cs : List Char) : Bool :=
  spells "extends" (cs.takeWhile isNameChar) || spells "implements" (cs.takeWhile isNameChar)

/-- `b` may stand where `a` stood. `inWord` says that a character of a word stands in front of them,
and `strict` that the names exchanged do not begin with a clause of a declaration. -/
inductive Alike (strict : Prop) : (inWord : Bool) → List Char → List Char → Prop
  | nil {inWord : Bool} : Alike strict inWord [] []
  | same {inWord : Bool} {a b : List Char} (c : Char) :
      Alike strict (isNameChar c) a b → Alike strict inWord (c :: a) (c :: b)
  | stop {inWord : Bool} {c : Char} (a b : List Char) :
      isStop c = true → Alike strict inWord (c :: a) (c :: b)
  | name {c d : Char} {a b : List Char} : isNameStart c = true → isNumeral c = true →
      isNameStart d = true → (strict → isClause (c :: a) = false ∧ isClause (d :: b) = false) →
      Alike strict false (c :: a) (d :: b)

namespace Alike

variable {strict : Prop} {inWord : Bool} {a b : List Char}

theorem refl (cs : List Char) : Alike strict inWord cs cs := by
  induction cs generalizing inWord with
  | nil => exact .nil
  | cons c rest ih => exact .same c ih

/-- Behind what no numeral continues, the names exchanged begin further on. -/
theorem anywhere (h : Alike strict inWord a b) (ha : headIs isNumeral a = false) (w : Bool) :
    Alike strict w a b := by
  cases h with
  | nil => exact .nil
  | same c h => exact .same c h
  | stop a b hc => exact .stop a b hc
  | name hc hn hd _ => simp [headIs, hn] at ha

/-- The same text in front of both. -/
theorem append (u : List Char) (h : ∀ w, Alike strict w a b) :
    Alike strict inWord (u ++ a) (u ++ b) := by
  induction u generalizing inWord with
  | nil => exact h inWord
  | cons c rest ih => exact .same c ih

/-- What no name begins with is seen the same. -/
theorem headIs_eq (h : Alike strict inWord a b) {p : Char → Bool}
    (hp : ∀ c, isNameStart c = true → p c = false) : headIs p b = headIs p a := by
  cases h with
  | nil => rfl
  | same c _ => rfl
  | stop _ _ _ => rfl
  | name hc _ hd _ => simp [headIs, hp _ hc, hp _ hd]

theorem headIs_isBlank (h : Alike strict inWord a b) : headIs isBlank b = headIs isBlank a :=
  h.headIs_eq fun c hc => by
    cases hb : isBlank c with
    | false => rfl
    | true => simp [isNameStart_of_isBlank hb] at hc

theorem headIs_isDigit (h : Alike strict inWord a b) :
    headIs Char.isDigit b = headIs Char.isDigit a :=
  h.headIs_eq fun _ => isDigit_of_isNameStart

theorem headIs_isNameStart (h : Alike strict inWord a b) :
    headIs isNameStart b = headIs isNameStart a := by
  cases h with
  | nil => rfl
  | same c _ => rfl
  | stop _ _ _ => rfl
  | name hc _ hd _ => simp [headIs, hc, hd]

theorem headIs_isNameChar (h : Alike strict inWord a b) :
    headIs isNameChar b = headIs isNameChar a := by
  cases h with
  | nil => rfl
  | same c _ => rfl
  | stop _ _ _ => rfl
  | name hc _ hd _ =>
    simp [headIs, isNameChar_of_isNameStart hc, isNameChar_of_isNameStart hd]

/-- A number that has ended stays ended: the names exchanged begin with a numeral. -/
theorem headIs_isNumeral (h : Alike strict inWord a b) (ha : headIs isNumeral a = false) :
    headIs isNumeral b = false := by
  cases h with
  | nil => exact ha
  | same c _ => exact ha
  | stop _ _ _ => exact ha
  | name hc hn hd _ => simp [headIs, hn] at ha

/-- A mark in front of `b` is in front of `a`. -/
theorem of_cons {x : Char} (hx : isMark x = true) (h : Alike strict inWord a (x :: b)) :
    ∃ a', a = x :: a' ∧ Alike strict (isNameChar x) a' b := by
  rw [isMark_iff] at hx
  cases h with
  | same c h => exact ⟨_, rfl, h⟩
  | stop _ _ hs => rw [hx.2] at hs; cases hs
  | name _ _ hd _ => rw [hx.1] at hd; cases hd

/-- A mark in front of `a` is in front of `b`. -/
theorem cons {x : Char} (hx : isMark x = true) (h : Alike strict inWord (x :: a) b) :
    ∃ b', b = x :: b' ∧ Alike strict (isNameChar x) a b' := by
  rw [isMark_iff] at hx
  cases h with
  | same c h => exact ⟨_, rfl, h⟩
  | stop _ _ hs => rw [hx.2] at hs; cases hs
  | name hc _ _ _ => rw [hx.1] at hc; cases hc

/-- A row of marks in front of `b` is in front of `a`. -/
theorem isPrefix_of_marks {o : List Char} (ho : ∀ c ∈ o, isMark c = true)
    (h : Alike strict inWord a b) (hb : o <+: b) : o <+: a := by
  induction o generalizing inWord a b with
  | nil => exact List.nil_prefix
  | cons x rest ih =>
    obtain ⟨tail, rfl⟩ := hb
    obtain ⟨a', rfl, h'⟩ := h.of_cons (ho x List.mem_cons_self)
    exact List.cons_prefix_cons.2 ⟨rfl,
      ih (fun c hc => ho c (List.mem_cons_of_mem x hc)) h' (List.prefix_append rest tail)⟩

/-! ### The word behind `enum` -/

theorem takeWhile_isNameChar (h : Alike strict true a b) :
    b.takeWhile isNameChar = a.takeWhile isNameChar := by
  induction a generalizing b with
  | nil => cases h; rfl
  | cons c rest ih =>
    cases h with
    | same _ h =>
      rw [List.takeWhile_cons, List.takeWhile_cons]
      cases hc : isNameChar c with
      | false => rfl
      | true => rw [hc] at h; rw [ih h]
    | stop _ _ hs => simp [isNameChar_of_isStop hs]

theorem isClause_eq (h : Alike strict inWord a b) (hs : strict) : isClause b = isClause a := by
  cases h with
  | nil => rfl
  | same c h =>
    unfold isClause
    rw [List.takeWhile_cons, List.takeWhile_cons]
    cases hc : isNameChar c with
    | false => rfl
    | true => rw [hc] at h; rw [h.takeWhile_isNameChar]
  | stop _ _ hc => simp [isClause, isNameChar_of_isStop hc]
  | name _ _ _ hw => rw [(hw hs).1, (hw hs).2]

theorem dropWhile_isBlank (h : Alike strict false a b) :
    Alike strict false (a.dropWhile isBlank) (b.dropWhile isBlank) := by
  induction a generalizing b with
  | nil => cases h; exact .nil
  | cons c rest ih =>
    cases h with
    | same _ h =>
      cases hc : isBlank c with
      | false => simpa [List.dropWhile_cons, hc] using .same c h
      | true =>
        rw [isNameChar_of_isBlank hc] at h
        simpa [List.dropWhile_cons, hc] using ih h
    | stop _ _ hc =>
      simpa [List.dropWhile_cons, isBlank_of_isStop hc] using .stop _ _ hc
    | name hc hn hd hw =>
      have hb : ∀ {x : Char}, isNameStart x = true → isBlank x = false := by
        intro x hx
        cases hb : isBlank x with
        | false => rfl
        | true => rw [isNameStart_of_isBlank hb] at hx; cases hx
      simpa [List.dropWhile_cons, hb hc, hb hd] using .name hc hn hd hw

/-- `enum` declares in front of the one where it declares in front of the other. -/
theorem enumDeclares_eq (h : Alike strict true a b) (hs : strict) : enumDeclares b = enumDeclares a := by
  have hblank := h.headIs_isBlank
  cases hb : headIs isBlank a with
  | false => simp [enumDeclares, hblank, hb]
  | true =>
    have hdrop : Alike strict false (a.dropWhile isBlank) (b.dropWhile isBlank) := by
      cases h with
      | nil => simp [headIs] at hb
      | same c h =>
        have hc : isBlank c = true := hb
        rw [isNameChar_of_isBlank hc] at h
        simpa [List.dropWhile_cons, hc] using h.dropWhile_isBlank
      | stop _ _ hc => simp [headIs, isBlank_of_isStop hc] at hb
    have hclause := hdrop.isClause_eq hs
    have hstart := hdrop.headIs_isNameStart
    simp only [enumDeclares, hblank, hstart, Bool.and_assoc, ← Bool.not_or]
    exact congrArg (fun x => _ && (_ && !x)) hclause

end Alike

end PluginShading.Source
