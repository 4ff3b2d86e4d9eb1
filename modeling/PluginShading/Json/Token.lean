import PluginShading.Json.Number
import PluginShading.Text.Hex

/-!
The tokens of a JSON text. Blanks separate tokens and mean nothing else. A string token holds the text
that it stands for, or nothing where its escapes name half of a surrogate pair: such a string has no
text, but it is a token all the same.
-/
namespace PluginShading.Json

inductive Token
  | openBrace
  | closeBrace
  | openBracket
  | closeBracket
  | comma
  | colon
  | null
  | truth (value : Bool)
  | number (n : Numeral)
  | string (text : Option String)
  deriving DecidableEq, Repr

def isBlank (c : Char) : Bool := c == ' ' || c == '\t' || c == '\n' || c == '\r'

/-! ### Strings -/

/-- One unit of a string: a character, or half of a surrogate pair that stands alone. -/
inductive Unit16
  | char (c : Char)
  | half (n : Nat)
  deriving DecidableEq, Repr

def unitOf (n : Nat) : Unit16 :=
  if 0xD800 ≤ n ∧ n ≤ 0xDFFF then .half n else .char (Char.ofNat n)

/-- What a backslash and this character stand for. -/
def escaped? : Char → Option Char
  | '"' => some '"'
  | '\\' => some '\\'
  | '/' => some '/'
  | 'b' => some '\x08'
  | 'f' => some '\x0c'
  | 'n' => some '\n'
  | 'r' => some '\r'
  | 't' => some '\t'
  | _ => none

/-- The units of a string through its closing quote, and what follows. -/
def stringUnits : List Char → Option (List Unit16 × List Char)
  | [] => none
  | '"' :: rest => some ([], rest)
  | '\\' :: 'u' :: a :: b :: c :: d :: rest => do
    let n ← Text.hexNumber? [a, b, c, d]
    let (units, rest) ← stringUnits rest
    pure (unitOf n :: units, rest)
  | '\\' :: c :: rest => do
    let plain ← escaped? c
    let (units, rest) ← stringUnits rest
    pure (.char plain :: units, rest)
  | c :: rest =>
    if c.toNat < 0x20 then none
    else do
      let (units, rest) ← stringUnits rest
      pure (.char c :: units, rest)

/-- Joins the halves of pairs; nothing where a half is left alone. -/
def textOf : List Unit16 → Option (List Char)
  | [] => some []
  | .char c :: rest => (textOf rest).map (c :: ·)
  | .half high :: .half low :: rest =>
    if high < 0xDC00 ∧ 0xDC00 ≤ low then
      (textOf rest).map (Char.ofNat (0x10000 + (high - 0xD800) * 0x400 + (low - 0xDC00)) :: ·)
    else none
  | .half _ :: _ => none

/-! ### Numbers -/

def digitsOf (cs : List Char) : List Nat := cs.map fun c => c.toNat - 48

def digitRun (cs : List Char) : List Char × List Char :=
  (cs.takeWhile Char.isDigit, cs.dropWhile Char.isDigit)

/-- The digits after a point; at least one must follow it. -/
def decimalsOf : List Char → Option (Option (List Nat) × List Char)
  | '.' :: rest =>
    if (digitRun rest).1 = [] then none else some (some (digitsOf (digitRun rest).1), (digitRun rest).2)
  | cs => some (none, cs)

/-- An exponent; at least one digit must follow its sign. -/
def exponentOf : List Char → Option (Option (Bool × List Nat) × List Char)
  | [] => some (none, [])
  | e :: rest =>
    if e = 'e' ∨ e = 'E' then
      let (down, rest) := match rest with
        | '+' :: rest => (false, rest)
        | '-' :: rest => (true, rest)
        | rest => (false, rest)
      if (digitRun rest).1 = [] then none
      else some (some (down, digitsOf (digitRun rest).1), (digitRun rest).2)
    else some (none, e :: rest)

/-- The digits in front of the point: a zero alone, or any that do not begin with one. -/
def wholeOf : List Char → Option (List Nat × List Char)
  | '0' :: rest => some ([0], rest)
  | cs => if (digitRun cs).1 = [] then none else some (digitsOf (digitRun cs).1, (digitRun cs).2)

def numeralOf (negative : Bool) (cs : List Char) : Option (Numeral × List Char) := do
  let (whole, rest) ← wholeOf cs
  let (decimals, rest) ← decimalsOf rest
  let (exponent, rest) ← exponentOf rest
  pure (⟨negative, whole, decimals, exponent⟩, rest)

/-! ### Texts -/

/-- One token, which begins with `c`. -/
def Token.next (c : Char) (rest : List Char) : Option (Token × List Char) :=
  match c, rest with
  | '{', rest => some (.openBrace, rest)
  | '}', rest => some (.closeBrace, rest)
  | '[', rest => some (.openBracket, rest)
  | ']', rest => some (.closeBracket, rest)
  | ',', rest => some (.comma, rest)
  | ':', rest => some (.colon, rest)
  | 'n', 'u' :: 'l' :: 'l' :: rest => some (.null, rest)
  | 't', 'r' :: 'u' :: 'e' :: rest => some (.truth true, rest)
  | 'f', 'a' :: 'l' :: 's' :: 'e' :: rest => some (.truth false, rest)
  | '"', rest => (stringUnits rest).map fun (units, rest) =>
      (.string ((textOf units).map String.ofList), rest)
  | '-', rest => (numeralOf true rest).map fun (n, rest) => (.number n, rest)
  | c, rest => (numeralOf false (c :: rest)).map fun (n, rest) => (.number n, rest)

theorem digitRun_length (cs : List Char) : (digitRun cs).2.length ≤ cs.length :=
  (List.dropWhile_sublist _).length_le

theorem stringUnits_length {cs : List Char} {cut : List Unit16 × List Char}
    (h : stringUnits cs = some cut) : cut.2.length ≤ cs.length := by
  fun_induction stringUnits cs generalizing cut with
  | case1 => simp at h
  | case2 rest => simp at h; simp [← h]
  | case3 a b c d rest ih =>
    simp only [Option.bind_eq_bind, Option.bind_eq_some_iff, Option.pure_def, Option.some.injEq] at h
    obtain ⟨_, _, _, hr, rfl⟩ := h
    have := ih hr
    simp only [List.length_cons]; omega
  | case4 c rest _ ih =>
    simp only [Option.bind_eq_bind, Option.bind_eq_some_iff, Option.pure_def, Option.some.injEq] at h
    obtain ⟨_, _, _, hr, rfl⟩ := h
    have := ih hr
    simp only [List.length_cons]; omega
  | case5 => simp at h
  | case6 c rest _ _ _ _ ih =>
    simp only [Option.bind_eq_bind, Option.bind_eq_some_iff, Option.pure_def, Option.some.injEq] at h
    obtain ⟨_, hr, rfl⟩ := h
    have := ih hr
    simp only [List.length_cons]; omega

theorem wholeOf_length {cs : List Char} {cut : List Nat × List Char} (h : wholeOf cs = some cut) :
    cut.2.length < cs.length := by
  unfold wholeOf at h
  split at h
  · simp at h; simp [← h]
  · split at h
    · simp at h
    · rename_i hne
      simp only [Option.some.injEq] at h
      rw [← h]
      have := List.takeWhile_append_dropWhile (p := Char.isDigit) (l := cs)
      have hl := congrArg List.length this
      rw [List.length_append] at hl
      have := List.length_pos_iff.2 hne
      simp only [digitRun] at this ⊢
      omega

theorem decimalsOf_length {cs : List Char} {cut : Option (List Nat) × List Char}
    (h : decimalsOf cs = some cut) : cut.2.length ≤ cs.length := by
  unfold decimalsOf at h
  split at h
  · rename_i rest
    split at h
    · simp at h
    · simp only [Option.some.injEq] at h
      rw [← h]
      have := digitRun_length rest
      simp only [List.length_cons]; omega
  · simp at h; simp [← h]

theorem exponentOf_length {cs : List Char} {cut : Option (Bool × List Nat) × List Char}
    (h : exponentOf cs = some cut) : cut.2.length ≤ cs.length := by
  unfold exponentOf at h
  split at h
  · simp at h; simp [← h]
  · rename_i e rest
    split at h
    · split at h
      rename_i down after hs
      split at h
      · simp at h
      · simp only [Option.some.injEq] at h
        rw [← h]
        have := digitRun_length after
        have hafter : after.length ≤ rest.length := by
          split at hs <;> simp only [Prod.mk.injEq] at hs <;> obtain ⟨_, rfl⟩ := hs <;> simp
        simp only [List.length_cons]; omega
    · simp at h; simp [← h]

theorem numeralOf_length {negative : Bool} {cs : List Char} {cut : Numeral × List Char}
    (h : numeralOf negative cs = some cut) : cut.2.length < cs.length := by
  simp only [numeralOf, Option.bind_eq_bind, Option.bind_eq_some_iff, Option.pure_def,
    Option.some.injEq] at h
  obtain ⟨_, h1, _, h2, _, h3, rfl⟩ := h
  have := wholeOf_length h1
  have := decimalsOf_length h2
  have := exponentOf_length h3
  simp only
  omega

theorem Token.next_length {c : Char} {rest : List Char} {cut : Token × List Char}
    (h : Token.next c rest = some cut) : cut.2.length ≤ rest.length := by
  unfold Token.next at h
  split at h
  all_goals first
    | (obtain ⟨_, hc, rfl⟩ := Option.map_eq_some_iff.1 h)
    | (obtain rfl := Option.some.inj h; simp only [List.length_cons, Nat.le_refl] <;> omega)
  · exact stringUnits_length hc
  · exact Nat.le_of_lt (numeralOf_length hc)
  · have := numeralOf_length hc
    exact Nat.le_of_lt_succ this

/-- The tokens of a text; nothing where some part of it is no token. -/
def tokens : List Char → Option (List Token)
  | [] => some []
  | c :: rest =>
    if isBlank c then tokens rest
    else match h : Token.next c rest with
      | none => none
      | some cut =>
        have : cut.2.length < rest.length + 1 := Nat.lt_succ_of_le (Token.next_length h)
        (tokens cut.2).map (cut.1 :: ·)
termination_by cs => cs.length

end PluginShading.Json
