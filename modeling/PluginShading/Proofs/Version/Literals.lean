import PluginShading.Proofs.Json.Printing

/-!
Versions that are given as numbers.

A literal that is read as a number and printed again is judged as it was written if it is negative or a whole number
(`alike_of_negative`, `alike_of_whole`). With an exponent it is none before, but may be one after (`alike_exponent`).
With decimals the verdict is that on the numbers around the point (`alike_decimal`): up to fifteen digits it is another
one where the zeros at the end made the minor version, or where the number is so small that it is printed with an
exponent (`alike_few`).
-/
namespace PluginShading.Version

open PluginShading.Json PluginShading.Number PluginShading.Number.Binary64

variable {t : List Char} {n : Numeral} {v : Json.Number} {ds : List Nat}

/-! ### What is read -/

/-- A literal is read as a whole number, if it is one, or as a normal binary number, and keeps its sign. -/
theorem value_spec (h : n.value = some v) : (∃ m, v = .whole n.negative m ∧ n.decimals = none ∧ n.exponent = none) ∨
    ∃ x, v = .binary n.negative x ∧ x.Normal := by
  have hbinary : ∀ {m : Nat} {power : Int} {negative : Bool}, n.negative = negative →
      (binaryOf m power).map (Json.Number.binary negative) = some v → ∃ x, v = .binary n.negative x ∧ x.Normal := by
    rintro m power negative rfl hmap
    obtain ⟨x, hx, rfl⟩ := Option.map_eq_some_iff.1 hmap
    exact ⟨x, rfl, normal_of_binaryOf hx⟩
  unfold Numeral.value at h
  dsimp only at h
  split at h
  · rename_i hdecimals hexponent
    split at h
    · exact .inr (hbinary rfl h)
    split at h
    · rename_i hsign
      exact .inl ⟨_, by rw [hsign]; exact (Option.some.inj h).symm, hdecimals, hexponent⟩
    · rename_i hsign
      rw [Bool.not_eq_false] at hsign
      split at h
      · exact .inl ⟨_, by rw [hsign]; exact (Option.some.inj h).symm, hdecimals, hexponent⟩
      · exact .inr (hbinary hsign h)
  · exact .inr (hbinary rfl h)
  · split at h
    · exact .inr (hbinary rfl h)
    split at h
    · cases h
    · exact .inr ⟨_, (Option.some.inj h).symm, normal_zero⟩

theorem toList_text_binary (x : Binary64) : (Json.Number.binary false x).text.toList = layOut (shortest x) := by
  rw [Json.Number.text, String.toList_ofList]
  rfl

theorem toList_text_whole (m : Nat) : (Json.Number.whole false m).text.toList = Nat.toDigits 10 m := by
  rw [Json.Number.text, String.toList_ofList]
  rfl

/-- A literal and the number it is read as are judged alike. -/
def Alike (t : List Char) (v : Json.Number) : Prop := verdict? t = verdict? v.text.toList

/-- **Negative numbers are no versions**, neither as they are written nor as they are printed. -/
theorem alike_of_negative (ht : IsLiteral t n) (hv : n.value = some v) (hsign : n.negative = true) : Alike t v := by
  have hprinted : ∃ cs, v.text.toList = '-' :: cs := by
    rcases value_spec hv with ⟨m, rfl, -⟩ | ⟨x, rfl, -⟩ <;> rw [hsign, Json.Number.text, String.toList_ofList] <;>
      exact ⟨_, rfl⟩
  obtain ⟨cs, hcs⟩ := hprinted
  rcases ht.spelled with ⟨-, cs', rfl⟩ | ⟨hsign', -⟩
  · rw [Alike, hcs, verdict?_dash, verdict?_dash]
  · rw [hsign] at hsign'
    cases hsign'

/-- A literal without a sign, taken apart. -/
theorem exists_parts (ht : IsLiteral t n) (hsign : n.negative = false) : ∃ w d e, t = w ++ (d ++ e) ∧ WholeText w ∧
    DecimalsText d n.decimals ∧ ExponentText e n.exponent ∧ n.whole = digitsOf w := by
  rcases ht.spelled with ⟨hsign', -⟩ | ⟨-, htext⟩
  · rw [hsign] at hsign'
    cases hsign'
  · cases htext with
    | mk hw hd he => exact ⟨_, _, _, rfl, hw, hd, he, rfl⟩

/-- **Whole numbers are judged as they are written.** Where they do not fit 64 bits they are printed with an exponent,
and no version either way. -/
theorem alike_of_whole (ht : IsLiteral t n) (hv : n.value = some v) (hsign : n.negative = false)
    (hdecimals : n.decimals = none) (hexponent : n.exponent = none) : Alike t v := by
  obtain ⟨w, d, e, rfl, hw, hd, he, hwhole⟩ := exists_parts ht hsign
  rw [hdecimals] at hd
  rw [hexponent] at he
  cases hd
  cases he
  rw [Alike, List.nil_append, List.append_nil, verdict?_whole hw.ne_nil hw.digits]
  simp only [Numeral.value, Numeral.mantissa, hdecimals, hexponent, hwhole, hsign] at hv
  split
  · rename_i hfits
    have htake : takeDigits wordLimit 0 (digitsOf w) = (spelled w, []) := takeDigits_eq hfits
    rw [htake] at hv
    obtain rfl : Json.Number.whole false (spelled w) = v := Option.some.inj hv
    have hdigits : ∀ c ∈ Nat.toDigits 10 (spelled w), c.isDigit = true := fun _ => isDigit_toDigits
    rw [toList_text_whole, verdict?_whole Nat.toDigits_ne_nil hdigits, spelled_toDigits, if_pos hfits]
  · rename_i hlarge
    have hgreatest : wordLimit ≤ Nat.ofDigitChars 10 w 0 := not_lt.1 hlarge
    obtain ⟨hmore, hmost⟩ := takeDigits_full (by decide : 0 < wordLimit) hw.digits hgreatest
    generalize takeDigits wordLimit 0 (digitsOf w) = cut at *
    have hlength := List.length_pos_iff.2 hmore
    rw [if_pos (by omega)] at hv
    obtain ⟨x, hx, rfl⟩ := Option.map_eq_some_iff.1 hv
    have hlimit : 10 ^ 18 * 10 + 9 ≤ wordLimit := by decide
    have hgreat := great_of_binaryOf (n := cut.1) (by omega) hlength hx
    have hbeyond : ¬ Plain (shortest x) := by
      rintro (hzero | ⟨-, hless⟩)
      · rw [hzero] at hgreat
        norm_num at hgreat
      · have habsurd := hgreat.trans_lt hless
        norm_num at habsurd
    rw [toList_text_binary, verdict?_beyond (stripped_shortest (normal_of_binaryOf hx)) hbeyond]

/-- What is not a whole number is printed as a binary one. -/
theorem exists_binary (hv : n.value = some v) (hsign : n.negative = false)
    (h : n.decimals ≠ none ∨ n.exponent ≠ none) : ∃ x, v = .binary false x ∧ x.Normal := by
  rcases value_spec hv with ⟨m, -, hdecimals, hexponent⟩ | ⟨x, rfl, hx⟩
  · exact absurd h (not_or.2 ⟨not_not.2 hdecimals, not_not.2 hexponent⟩)
  · rw [hsign]
    exact ⟨x, rfl, hx⟩

theorem exists_mark {e : List Char} {exponent : Option (Bool × List Nat)} (he : ExponentText e exponent)
    (hexponent : exponent ≠ none) : ∃ mark tail, e = mark :: tail ∧ (mark = 'e' ∨ mark = 'E') ∧
      ∀ c ∈ tail, IsNumberMark c := by
  cases he with
  | absent => exact absurd rfl hexponent
  | digits hmark hsign hne hdigits =>
    refine ⟨_, _, rfl, hmark, List.forall_mem_append.2 ⟨?_, fun c hc => isNumberMark_of_isDigit (hdigits c hc)⟩⟩
    cases hsign with
    | absent => nofun
    | plus => exact List.forall_mem_singleton.2 ⟨by decide, by decide⟩
    | minus => exact List.forall_mem_singleton.2 ⟨by decide, by decide⟩

/-- **An exponent makes no version**, but the number may be printed without it, and then is one. -/
theorem alike_exponent (ht : IsLiteral t n) (hv : n.value = some v) (hsign : n.negative = false)
    (hexponent : n.exponent ≠ none) : ∃ x, v = .binary false x ∧ (Alike t v ↔ ¬ Plain (shortest x)) := by
  obtain ⟨x, rfl, hx⟩ := exists_binary hv hsign (.inr hexponent)
  refine ⟨x, rfl, ?_⟩
  have hwritten : verdict? t = none := by
    obtain ⟨w, d, e, rfl, hw, hd, he, -⟩ := exists_parts ht hsign
    obtain ⟨mark, tail, rfl, hmark, htail⟩ := exists_mark he hexponent
    generalize n.decimals = decimals at hd
    cases hd with
    | absent => exact (verdict?_exponent (f := []) hw.digits nofun hmark htail).1
    | digits hfne hf => exact (verdict?_exponent hw.digits hf hmark htail).2
  rw [Alike, hwritten, toList_text_binary, verdict?_layOut (stripped_shortest hx), printed]
  split <;> simp [*]

/-! ### Decimals -/

/-- The verdict on digits around a point, as they are written. -/
def written (a b : Nat) : Option Verdict := if a < limit ∧ b < limit then some (verdictOf a b) else none

/-- **Decimals are judged by the numbers around the point**, before as they are written and after as they are printed. -/
theorem alike_decimal (ht : IsLiteral t n) (hv : n.value = some v) (hsign : n.negative = false)
    (hdecimals : n.decimals = some ds) (hexponent : n.exponent = none) :
    ∃ x, v = .binary false x ∧ (Alike t v ↔ written (natOf n.whole) (natOf ds) = printed (shortest x)) := by
  obtain ⟨x, rfl, hx⟩ := exists_binary hv hsign (.inl (by simp [hdecimals]))
  obtain ⟨w, d, e, rfl, hw, hd, he, hwhole⟩ := exists_parts ht hsign
  rw [hdecimals] at hd
  rw [hexponent] at he
  cases he
  cases hd with
  | @digits f hfne hf =>
    refine ⟨x, rfl, ?_⟩
    rw [Alike, toList_text_binary, verdict?_layOut (stripped_shortest hx), List.append_nil,
      verdict?_decimal hw.ne_nil hw.digits hfne hf, written, hwhole, natOf_digitsOf, natOf_digitsOf]

theorem eq_zero_of_binaryOf {x : Binary64} {k : Nat} (hk : k ≤ greatestTable) (h : binaryOf 0 (-k) = some x) :
    x = Binary64.zero := by
  have hscale : scale 4 Binary64.zero (-k) = some x := h
  rw [scale_eq (by rwa [Int.natAbs_neg, Int.natAbs_natCast])] at hscale
  obtain ⟨y, -, hx⟩ := Option.bind_eq_some_iff.1 hscale
  have hzero : ∀ a b : Nat, Binary64.round (0 * a) b = some Binary64.zero := fun a b => by
    rw [Nat.zero_mul, Binary64.round, if_pos rfl]
  split at hx
  · exact (Option.some.inj ((hzero _ _).symm.trans hx)).symm
  · exact (Option.some.inj ((hzero _ _).symm.trans hx)).symm

/-- Decimals of few digits are printed with the same value. -/
theorem value_of_few {w f : List Char} (hwhole : n.whole = digitsOf w) (hdecimals : n.decimals = some (digitsOf f))
    (hexponent : n.exponent = none) (hf : f ≠ []) (hfew : spelled (w ++ f) < 10 ^ 15) (hlength : f.length ≤ 22)
    {x : Binary64} (hv : n.value = some (.binary n.negative x)) :
    (shortest x).value = spelled (w ++ f) / 10 ^ f.length := by
  have hlimit : 10 ^ 15 < wordLimit := by decide
  have hall : Nat.ofDigitChars 10 f (spelled w) = spelled (w ++ f) := (Nat.ofDigitChars_append 0).symm
  have hfront : takeDigits wordLimit 0 (digitsOf w) = (spelled w, []) :=
    takeDigits_eq ((le_ofDigitChars _ f).trans_lt (hall.trans_lt (hfew.trans hlimit)))
  have hback : takeDigits wordLimit (spelled w) (digitsOf f) = (spelled (w ++ f), []) := by
    rw [takeDigits_eq (hall.trans_lt (hfew.trans hlimit)), hall]
  have hcount : (digitsOf f).length = f.length := List.length_map _
  have hmantissa : n.mantissa = (spelled (w ++ f), -(f.length : Int)) := by
    simp only [Numeral.mantissa, hwhole, hdecimals, hfront, hback, hcount, List.length_nil]
    simp
  simp only [Numeral.value, hmantissa, hdecimals, hexponent] at hv
  obtain ⟨y, hy, heq⟩ := Option.map_eq_some_iff.1 hv
  obtain ⟨-, rfl⟩ := Json.Number.binary.inj heq
  rcases Nat.eq_zero_or_pos (spelled (w ++ f)) with hzero | hpos
  · rw [hzero] at hy ⊢
    rw [eq_zero_of_binaryOf (hlength.trans (by decide)) hy, Nat.cast_zero, zero_div]
    exact zero_mul _
  · exact (shortest_binaryOf hpos hfew (List.length_pos_iff.2 hf) hlength hy).2

/-- **Up to fifteen digits the verdict changes in two cases**: where zeros at the end made the minor version that is one
without them, and where the number is so small that it is printed with an exponent. -/
theorem alike_few (ht : IsLiteral t n) (hv : n.value = some v) (hsign : n.negative = false)
    (hdecimals : n.decimals = some ds) (hexponent : n.exponent = none) (hfew : natOf (n.whole ++ ds) < 10 ^ 15)
    (hlength : ds.length ≤ 22) : Alike t v ↔ ¬ (natOf n.whole = 3 ∧ ∃ y, natOf ds = 10 ^ (y + 1)) ∧
      ¬ (0 < natOf (n.whole ++ ds) ∧ natOf (n.whole ++ ds) * 10 ^ 5 < 10 ^ ds.length) := by
  obtain ⟨x, rfl, halike⟩ := alike_decimal ht hv hsign hdecimals hexponent
  obtain ⟨x', heq, hx⟩ := exists_binary hv hsign (.inl (by simp [hdecimals]))
  obtain rfl := (Json.Number.binary.inj heq).2
  obtain ⟨w, d, e, -, hw, hd, -, hwhole⟩ := exists_parts ht hsign
  rw [hdecimals] at hd
  cases hd with
  | @digits f hfne hf =>
    have hjoin : digitsOf w ++ digitsOf f = digitsOf (w ++ f) := List.map_append.symm
    have hcount : (digitsOf f).length = f.length := List.length_map _
    rw [hwhole, hjoin, natOf_digitsOf] at hfew ⊢
    rw [hcount] at hlength ⊢
    rw [hwhole] at halike
    rw [natOf_digitsOf, natOf_digitsOf] at halike ⊢
    have hvalue := value_of_few hwhole hdecimals hexponent hfne hfew hlength (hsign ▸ hv)
    -- The digits around the point are quotient and remainder of all digits.
    have hback := spelled_lt hf
    have hall := spelled_append w f
    have hfront : spelled (w ++ f) / 10 ^ f.length = spelled w := by
      rw [hall, Nat.mul_comm, Nat.mul_add_div (Nat.pow_pos (by decide)), Nat.div_eq_of_lt hback, Nat.add_zero]
    have hrest : spelled (w ++ f) % 10 ^ f.length = spelled f := by
      rw [hall, Nat.mul_add_mod_self_right, Nat.mod_eq_of_lt hback]
    have hplain := plain_of_value hvalue hfew
    obtain ⟨hone, z, hz, hlast⟩ := parts_of_value (stripped_shortest hx) hvalue
    rw [hfront] at hone
    rw [hrest] at hz
    have hwritten : written (spelled w) (spelled f) = some (verdictOf (spelled w) (spelled f)) := by
      have hmost : (10 ^ 15 : Nat) < limit := by decide
      have hless := Nat.le_mul_of_pos_right (spelled w) (Nat.pow_pos (by decide : 0 < 10) (n := f.length))
      exact if_pos ⟨by omega, by omega⟩
    rw [halike, hwritten, printed, hone]
    by_cases hsmall : 0 < spelled (w ++ f) ∧ spelled (w ++ f) * 10 ^ 5 < 10 ^ f.length
    · rw [if_neg (fun h => hplain.1 h hsmall)]
      exact iff_of_false nofun fun h => h.2 hsmall
    · rw [if_pos (hplain.2 hsmall), Option.some.injEq, hz, verdictOf_unpadded hlast, and_iff_left hsmall]

end PluginShading.Version
