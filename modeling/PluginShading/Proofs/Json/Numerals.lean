import PluginShading.Json.Token
import PluginShading.Proofs.Version.Digits

/-!
The numbers of a JSON text as they are spelled.

`IsLiteral` is a text that is one number token. `NumeralText` is its grammar: digits, perhaps decimals, perhaps an
exponent (`IsLiteral.spelled`). Of digits that fit 64 bits none is lost when they are read (`takeDigits_eq`).
-/
namespace PluginShading.Json

open Version (spelled)

variable {cs r w f d e t : List Char} {n : Numeral}

/-- The text is one number and nothing else. -/
def IsLiteral (t : List Char) (n : Numeral) : Prop :=
  ∃ c rest, t = c :: rest ∧ Token.next c rest = some (.number n, [])

/-! ### Grammar -/

/-- Digits in front of the point; a zero in front of others is none. -/
structure WholeText (w : List Char) : Prop where
  ne_nil : w ≠ []
  digits : ∀ c ∈ w, c.isDigit = true
  unpadded : w.head? = some '0' → w = ['0']

inductive DecimalsText : List Char → Option (List Nat) → Prop
  | absent : DecimalsText [] none
  | digits {f : List Char} : f ≠ [] → (∀ c ∈ f, c.isDigit = true) → DecimalsText ('.' :: f) (some (digitsOf f))

inductive SignText : List Char → Bool → Prop
  | absent : SignText [] false
  | plus : SignText ['+'] false
  | minus : SignText ['-'] true

inductive ExponentText : List Char → Option (Bool × List Nat) → Prop
  | absent : ExponentText [] none
  | digits {mark : Char} {sign ds : List Char} {down : Bool} : mark = 'e' ∨ mark = 'E' → SignText sign down → ds ≠ [] →
      (∀ c ∈ ds, c.isDigit = true) → ExponentText (mark :: (sign ++ ds)) (some (down, digitsOf ds))

/-- A number behind its sign. -/
inductive NumeralText : List Char → Numeral → Prop
  | mk {w d e : List Char} {negative : Bool} {decimals : Option (List Nat)} {exponent : Option (Bool × List Nat)} :
      WholeText w → DecimalsText d decimals → ExponentText e exponent →
        NumeralText (w ++ (d ++ e)) ⟨negative, digitsOf w, decimals, exponent⟩

theorem digitRun_spec (cs : List Char) : cs = (digitRun cs).1 ++ (digitRun cs).2 ∧ ∀ c ∈ (digitRun cs).1, c.isDigit = true :=
  ⟨List.takeWhile_append_dropWhile.symm, fun _ hc => List.mem_takeWhile_imp hc⟩

theorem wholeOf_spec {ds : List Nat} (h : wholeOf cs = some (ds, r)) : ∃ w, cs = w ++ r ∧ WholeText w ∧ ds = digitsOf w := by
  unfold wholeOf at h
  split at h
  · rename_i rest
    obtain ⟨rfl, rfl⟩ := Prod.mk.inj (Option.some.inj h)
    refine ⟨['0'], rfl, ⟨List.cons_ne_nil _ _, ?_, fun _ => rfl⟩, rfl⟩
    exact List.forall_mem_singleton.2 (by decide)
  · rename_i hzero
    split at h
    · cases h
    · rename_i hne
      obtain ⟨rfl, rfl⟩ := Prod.mk.inj (Option.some.inj h)
      obtain ⟨hsplit, hdigits⟩ := digitRun_spec cs
      refine ⟨_, hsplit, ⟨hne, hdigits, fun hhead => ?_⟩, rfl⟩
      obtain ⟨more, hmore⟩ := List.head?_eq_some_iff.1 hhead
      rw [hmore] at hsplit
      exact absurd hsplit (hzero _)

theorem decimalsOf_spec {ds : Option (List Nat)} (h : decimalsOf cs = some (ds, r)) : ∃ d, cs = d ++ r ∧ DecimalsText d ds := by
  unfold decimalsOf at h
  split at h
  · rename_i rest
    split at h
    · cases h
    · rename_i hne
      obtain ⟨rfl, rfl⟩ := Prod.mk.inj (Option.some.inj h)
      obtain ⟨hsplit, hdigits⟩ := digitRun_spec rest
      exact ⟨_, congrArg _ hsplit, .digits hne hdigits⟩
  · obtain ⟨rfl, rfl⟩ := Prod.mk.inj (Option.some.inj h)
    exact ⟨[], rfl, .absent⟩

theorem exponentOf_spec {ex : Option (Bool × List Nat)} (h : exponentOf cs = some (ex, r)) :
    ∃ e, cs = e ++ r ∧ ExponentText e ex := by
  unfold exponentOf at h
  split at h
  · obtain ⟨rfl, rfl⟩ := Prod.mk.inj (Option.some.inj h)
    exact ⟨[], rfl, .absent⟩
  · rename_i mark rest
    split at h
    · rename_i hmark
      split at h
      rename_i down after hafter
      -- What stands between the mark and the digits is a sign or nothing.
      obtain ⟨sign, hrest, hsign⟩ : ∃ sign, rest = sign ++ after ∧ SignText sign down := by
        split at hafter <;> obtain ⟨rfl, rfl⟩ := Prod.mk.inj hafter
        · exact ⟨['+'], rfl, .plus⟩
        · exact ⟨['-'], rfl, .minus⟩
        · exact ⟨[], rfl, .absent⟩
      split at h
      · cases h
      · rename_i hne
        obtain ⟨rfl, rfl⟩ := Prod.mk.inj (Option.some.inj h)
        obtain ⟨hsplit, hdigits⟩ := digitRun_spec after
        refine ⟨_, ?_, .digits hmark hsign hne hdigits⟩
        rw [List.cons_append, List.append_assoc, ← hsplit, hrest]
    · obtain ⟨rfl, rfl⟩ := Prod.mk.inj (Option.some.inj h)
      exact ⟨[], rfl, .absent⟩

theorem numeralOf_spec {negative : Bool} (h : numeralOf negative cs = some (n, [])) :
    n.negative = negative ∧ NumeralText cs n := by
  simp only [numeralOf, Option.bind_eq_bind, Option.bind_eq_some_iff, Option.pure_def, Option.some.injEq, Prod.mk.injEq] at h
  obtain ⟨⟨whole, r₁⟩, hwhole, ⟨decimals, r₂⟩, hdecimals, ⟨exponent, r₃⟩, hexponent, rfl, hrest⟩ := h
  obtain rfl : r₃ = [] := hrest
  obtain ⟨w, rfl, hw, rfl⟩ := wholeOf_spec hwhole
  obtain ⟨d, rfl, hd⟩ := decimalsOf_spec hdecimals
  obtain ⟨e, rfl, he⟩ := exponentOf_spec hexponent
  rw [List.append_nil]
  exact ⟨rfl, .mk hw hd he⟩

/-- **A literal is spelled by the grammar**, behind a minus sign if it is negative. -/
theorem IsLiteral.spelled (h : IsLiteral t n) :
    (n.negative = true ∧ ∃ cs, t = '-' :: cs) ∨ (n.negative = false ∧ NumeralText t n) := by
  obtain ⟨c, rest, rfl, hnext⟩ := h
  unfold Token.next at hnext
  split at hnext
  all_goals try cases hnext
  · obtain ⟨_, -, heq⟩ := Option.map_eq_some_iff.1 hnext
    cases heq
  · obtain ⟨⟨m, r⟩, hm, heq⟩ := Option.map_eq_some_iff.1 hnext
    cases heq
    exact .inl ⟨(numeralOf_spec hm).1, _, rfl⟩
  · obtain ⟨⟨m, r⟩, hm, heq⟩ := Option.map_eq_some_iff.1 hnext
    cases heq
    exact .inr (numeralOf_spec hm)

/-! ### Digits -/

/-- The number that a list of digits stands for. -/
def natOf (ds : List Nat) : Nat := ds.foldl (fun n d => n * 10 + d) 0

theorem foldl_digitsOf (n : Nat) (cs : List Char) :
    (digitsOf cs).foldl (fun n d => n * 10 + d) n = Nat.ofDigitChars 10 cs n := by
  rw [digitsOf, List.foldl_map, Nat.ofDigitChars_eq_foldl]
  simp only [Nat.mul_comm]
  rfl

theorem natOf_digitsOf (cs : List Char) : natOf (digitsOf cs) = spelled cs := foldl_digitsOf 0 cs

theorem spelled_append (a b : List Char) : spelled (a ++ b) = spelled a * 10 ^ b.length + spelled b := by
  rw [spelled, Nat.ofDigitChars_append, Nat.ofDigitChars_eq_ofDigitChars_zero, Nat.mul_comm]
  rfl

theorem toNat_of_isDigit {c : Char} (h : c.isDigit = true) : c.toNat - 48 ≤ 9 := by
  simp only [Char.isDigit, Bool.and_eq_true, decide_eq_true_eq, UInt32.le_iff_toNat_le, ge_iff_le] at h
  have hgreatest : c.toNat ≤ 57 := h.2
  omega

theorem spelled_lt (h : ∀ c ∈ cs, c.isDigit = true) : spelled cs < 10 ^ cs.length := by
  induction cs with
  | nil => exact Nat.one_pos
  | cons c rest ih =>
    obtain ⟨hc, hrest⟩ := List.forall_mem_cons.1 h
    have hone : spelled [c] ≤ 9 := by
      rw [spelled, Nat.ofDigitChars_cons, Nat.ofDigitChars_nil]
      exact (Nat.zero_add _).trans_le (toNat_of_isDigit hc)
    rw [← List.singleton_append, spelled_append, List.length_append, List.length_singleton, Nat.pow_add, Nat.pow_one]
    have hmul := Nat.mul_le_mul_right (10 ^ rest.length) hone
    have hless := ih hrest
    omega

theorem le_ofDigitChars (n : Nat) (cs : List Char) : n ≤ Nat.ofDigitChars 10 cs n := by
  rw [Nat.ofDigitChars_eq_ofDigitChars_zero]
  exact (Nat.le_mul_of_pos_left n (Nat.pow_pos (by decide))).trans (Nat.le_add_right _ _)

/-- Digits that fit are all taken. -/
theorem takeDigits_eq {limit n : Nat} (h : Nat.ofDigitChars 10 cs n < limit) :
    takeDigits limit n (digitsOf cs) = (Nat.ofDigitChars 10 cs n, []) := by
  induction cs generalizing n with
  | nil => rfl
  | cons c rest ih =>
    rw [Nat.ofDigitChars_cons, Nat.mul_comm] at h ⊢
    have hfits : n * 10 + (c.toNat - 48) < limit := (le_ofDigitChars _ rest).trans_lt h
    rw [show digitsOf (c :: rest) = (c.toNat - 48) :: digitsOf rest from rfl, takeDigits, if_pos hfits]
    exact ih h

/-- Of digits that do not fit as many are taken as do. -/
theorem takeDigits_full {limit n : Nat} (hn : n < limit) (hdigits : ∀ c ∈ cs, c.isDigit = true)
    (h : limit ≤ Nat.ofDigitChars 10 cs n) :
    (takeDigits limit n (digitsOf cs)).2 ≠ [] ∧ limit ≤ (takeDigits limit n (digitsOf cs)).1 * 10 + 9 := by
  induction cs generalizing n with
  | nil => exact absurd hn (not_lt.2 h)
  | cons c rest ih =>
    obtain ⟨hc, hrest⟩ := List.forall_mem_cons.1 hdigits
    rw [Nat.ofDigitChars_cons, Nat.mul_comm] at h
    have hdigit := toNat_of_isDigit hc
    rw [show digitsOf (c :: rest) = (c.toNat - 48) :: digitsOf rest from rfl, takeDigits]
    split
    · rename_i hfits
      exact ih hfits hrest h
    · exact ⟨List.cons_ne_nil _ _, by dsimp only; omega⟩

end PluginShading.Json
