import PluginShading.Json.Number
import PluginShading.Proofs.Number.Shortest

/-!
Numbers that are read as a whole number times a power of ten.

Up to fifteen digits and twenty-two decimals both factors are exact, so there is one rounding, and what is printed is
what was read (`shortest_binaryOf`).
-/
namespace PluginShading.Json

open PluginShading.Number PluginShading.Number.Binary64

variable {x y f : Binary64} {n k num den : Nat} {v : ℚ}

/-! ### Normal numbers -/

theorem normal_zero : Binary64.zero.Normal := ⟨by decide, le_rfl, .inr rfl⟩

theorem normal_of_round (hden : 0 < den) (h : Binary64.round num den = some x) : x.Normal := by
  rcases Nat.eq_zero_or_pos num with rfl | hnum
  · rw [Binary64.round, if_pos rfl] at h
    obtain rfl := Option.some.inj h
    exact normal_zero
  · exact (round_near hnum hden h).1

/-- What a number of this size is rounded to is not zero. -/
theorem significand_pos (hx : x.Normal) (hnear : x.Near v) (hv : 1 ≤ v) : 0 < x.significand := by
  refine Nat.pos_of_ne_zero fun hzero => ?_
  have hleast : x.exponent = leastExponent := hx.great.resolve_left fun hge => absurd (hzero ▸ hge) (by decide)
  have hhigh := hnear.bounds.2
  rw [hzero, hleast, Nat.cast_zero, zero_add, div_le_iff₀ (two_zpow_pos _)] at hhigh
  have hpow : (2 : ℚ) ^ leastExponent ≤ 2 ^ (0 : Int) := zpow_le_zpow_right₀ one_le_two (by decide)
  rw [zpow_zero] at hpow
  linarith

theorem ofNat_spec (hn : 0 < n) (h : Binary64.ofNat n = some x) : x.Normal ∧ x.Near n ∧ 0 < x.significand := by
  obtain ⟨hnormal, hnear⟩ := round_near hn Nat.one_pos h
  rw [Nat.cast_one, div_one] at hnear
  exact ⟨hnormal, hnear, significand_pos hnormal hnear (by exact_mod_cast hn)⟩

theorem fraction_fst_pos (hx : 0 < x.significand) : 0 < x.fraction.1 := by
  refine Nat.pos_of_ne_zero fun hzero => ?_
  have hvalue := fraction_eq x
  rw [hzero, Nat.cast_zero, zero_div] at hvalue
  exact (value_pos hx).ne hvalue

theorem mul_eq (x y : Binary64) : ((x.fraction.1 * y.fraction.1 : Nat) / (x.fraction.2 * y.fraction.2 : Nat) : ℚ) =
    x.value * y.value := by
  rw [← fraction_eq x, ← fraction_eq y]
  push_cast
  rw [mul_div_mul_comm]

theorem div_eq (x y : Binary64) : ((x.fraction.1 * y.fraction.2 : Nat) / (x.fraction.2 * y.fraction.1 : Nat) : ℚ) =
    x.value / y.value := by
  rw [← fraction_eq x, ← fraction_eq y]
  push_cast
  rw [div_div_div_eq]

theorem pow_ten_pos (k : Nat) : 0 < Nat.pow 10 k := Nat.pow_pos (by decide)

theorem normal_of_mul (h : x.mul y = some f) : f.Normal :=
  normal_of_round (Nat.mul_pos (fraction_pos x) (fraction_pos y)) h

theorem normal_of_div (hy : Binary64.ofNat (Nat.pow 10 k) = some y) (h : x.div y = some f) : f.Normal :=
  normal_of_round (Nat.mul_pos (fraction_pos x) (fraction_fst_pos (ofNat_spec (pow_ten_pos k) hy).2.2)) h

/-- Within the table a number is scaled at once. -/
theorem scale_eq {fuel : Nat} {power : Int} (hpower : power.natAbs ≤ greatestTable) : scale fuel f power =
    (Binary64.ofNat (Nat.pow 10 power.natAbs)).bind fun y => if 0 ≤ power then f.mul y else f.div y := by
  unfold scale
  rw [if_pos hpower]
  rfl

theorem normal_of_scale {fuel : Nat} {power : Int} (hf : f.Normal) (h : scale fuel f power = some x) : x.Normal := by
  induction fuel generalizing f power with
  | zero =>
    by_cases hpower : power.natAbs ≤ greatestTable
    · rw [scale_eq hpower] at h
      obtain ⟨y, hy, hx⟩ := Option.bind_eq_some_iff.1 h
      split at hx
      · exact normal_of_mul hx
      · exact normal_of_div hy hx
    · unfold scale at h
      rw [if_neg hpower] at h
      split at h
      · exact Option.some.inj h ▸ hf
      · split at h
        · cases h
        · exact Option.some.inj h ▸ normal_zero
  | succ fuel ih =>
    by_cases hpower : power.natAbs ≤ greatestTable
    · rw [scale_eq hpower] at h
      obtain ⟨y, hy, hx⟩ := Option.bind_eq_some_iff.1 h
      split at hx
      · exact normal_of_mul hx
      · exact normal_of_div hy hx
    · unfold scale at h
      rw [if_neg hpower] at h
      split at h
      · exact Option.some.inj h ▸ hf
      · split at h
        · cases h
        · obtain ⟨y, hy, hx⟩ := Option.bind_eq_some_iff.1 h
          obtain ⟨g, hg, hx⟩ := Option.bind_eq_some_iff.1 hx
          exact ih (normal_of_div hy hg) hx

theorem normal_of_ofNat (h : Binary64.ofNat n = some x) : x.Normal := normal_of_round Nat.one_pos h

theorem normal_of_binaryOf {power : Int} (h : binaryOf n power = some x) : x.Normal := by
  obtain ⟨f, hf, hx⟩ := Option.bind_eq_some_iff.1 h
  exact normal_of_scale (normal_of_ofNat hf) hx

/-! ### Great numbers -/

theorem le_of_near (hx : 0 < x.significand) (h : x.Near v) : v * (2 / 3) ≤ x.value := by
  have hhigh := h.bounds.2
  have hone : (1 : ℚ) ≤ x.significand := by exact_mod_cast hx
  rw [div_le_iff₀ (two_zpow_pos _)] at hhigh
  have hpos := two_zpow_pos x.exponent
  rw [value]
  nlinarith

/-- A number with more digits than fit is read as a great one. -/
theorem great_of_binaryOf {p : Nat} (hn : 10 ^ 18 ≤ n) (hp : 0 < p) (h : binaryOf n p = some x) :
    (10 : ℚ) ^ 18 ≤ (shortest x).value := by
  obtain ⟨f, hf, hx⟩ := Option.bind_eq_some_iff.1 h
  have hn0 : 0 < n := (by decide : 0 < 10 ^ 18).trans_le hn
  obtain ⟨-, hnear, hpos⟩ := ofNat_spec hn0 hf
  have hvalue := le_of_near hpos hnear
  have hcast : (10 : ℚ) ^ 18 ≤ n := by exact_mod_cast hn
  have hlarge : (10 : ℚ) ^ 18 * (20 / 3) * (2 / 3) ≤ f.value * (20 / 3) := by linarith
  have hscaled : ∃ y, Binary64.ofNat (Nat.pow 10 p) = some y ∧ f.mul y = some x := by
    have htable : (p : Int).natAbs ≤ greatestTable := by
      by_contra hgreat
      unfold scale at hx
      rw [if_neg hgreat, if_neg hpos.ne', if_pos (Int.natCast_nonneg p)] at hx
      cases hx
    rw [scale_eq htable, Int.natAbs_natCast] at hx
    obtain ⟨y, hy, hx⟩ := Option.bind_eq_some_iff.1 hx
    exact ⟨y, hy, by rwa [if_pos (Int.natCast_nonneg p)] at hx⟩
  obtain ⟨y, hy, hx⟩ := hscaled
  obtain ⟨-, hnear', hpos'⟩ := ofNat_spec (pow_ten_pos p) hy
  have hten : (10 : ℚ) ≤ (Nat.pow 10 p : Nat) := by
    exact_mod_cast Nat.le_self_pow hp.ne' 10
  have hvalue' := le_of_near hpos' hnear'
  have hproduct : (10 : ℚ) ^ 18 * (20 / 3) * (2 / 3) ≤ f.value * y.value :=
    hlarge.trans (mul_le_mul_of_nonneg_left (by linarith) (value_pos hpos).le)
  obtain ⟨hnormal, hnearx⟩ := round_near (Nat.mul_pos (fraction_fst_pos hpos) (fraction_fst_pos hpos'))
    (Nat.mul_pos (fraction_pos f) (fraction_pos y)) hx
  rw [mul_eq] at hnearx
  have hposx : 0 < x.significand := significand_pos hnormal hnearx (le_trans (by norm_num) hproduct)
  have hvaluex := le_of_near hposx hnearx
  -- The first digit of what is printed stands where the first digit of the number does.
  obtain ⟨-, -, -, -, hlead⟩ := shortest_spec hposx (by decide) (by decide) (exists_seventeen hnormal hposx)
  have hpower : (18 : Int) < lead x + 1 := by
    refine (zpow_lt_zpow_iff_right₀ (by norm_num : (1 : ℚ) < 10)).1 (lt_of_le_of_lt ?_ (lead_spec hposx).2)
    norm_num at hproduct ⊢
    linarith
  refine le_trans ?_ hlead
  rw [← zpow_natCast]
  exact zpow_le_zpow_right₀ (by norm_num) (by push_cast; omega)

/-! ### Decimals -/

/-- Up to the twenty-second, powers of ten are binary numbers. -/
theorem ofNat_pow_ten (hk : k ≤ 22) (h : Binary64.ofNat (Nat.pow 10 k) = some y) : y.value = 10 ^ k := by
  have hsplit : ((Nat.pow 10 k : Nat) / (1 : Nat) : ℚ) = (5 ^ k : Nat) * 2 ^ (k : Int) := by
    rw [Nat.cast_one, div_one, show Nat.pow 10 k = 10 ^ k from rfl, zpow_natCast]
    push_cast
    rw [← mul_pow]
    norm_num
  have hfits : 5 ^ k < 2 ^ 53 := (Nat.pow_le_pow_right (by decide) hk).trans_lt (by decide)
  have hvalue := round_exact (pow_ten_pos k) Nat.one_pos hsplit hfits (le_trans (by decide) (Int.natCast_nonneg k)) h
  rw [hvalue, zpow_natCast]
  push_cast
  rw [← mul_pow]
  norm_num

/-- **A decimal of fifteen digits is rounded once**, and to a number that is printed with those digits. -/
theorem shortest_binaryOf (hn : 0 < n) (hn' : n < 10 ^ 15) (hk : 0 < k) (hk' : k ≤ 22)
    (h : binaryOf n (-k) = some x) : 0 < x.significand ∧ (shortest x).value = n / 10 ^ k := by
  obtain ⟨f, hf, hx⟩ := Option.bind_eq_some_iff.1 h
  have hvalue : f.value = n := by
    have hexact := round_exact (a := n) (j := 0) hn Nat.one_pos (by simp) (hn'.trans (by decide)) (by decide) hf
    rwa [zpow_zero, mul_one] at hexact
  rw [scale_eq (by rw [Int.natAbs_neg, Int.natAbs_natCast]; exact hk'.trans (by decide)), Int.natAbs_neg,
    Int.natAbs_natCast] at hx
  obtain ⟨y, hy, hx⟩ := Option.bind_eq_some_iff.1 hx
  rw [if_neg (by omega)] at hx
  have hpos := (ofNat_spec hn hf).2.2
  have hpos' := (ofNat_spec (pow_ten_pos k) hy).2.2
  obtain ⟨hnormal, hnear⟩ := round_near (Nat.mul_pos (fraction_fst_pos hpos) (fraction_pos y))
    (Nat.mul_pos (fraction_pos f) (fraction_fst_pos hpos')) hx
  rw [div_eq, hvalue, ofNat_pow_ten hk' hy] at hnear
  have hsmall : (1 : ℚ) / 10 ^ 22 ≤ n / 10 ^ k := by
    have hone : (1 : ℚ) ≤ n := by exact_mod_cast hn
    gcongr
    norm_num
  have hhidden : Binary64.hidden ≤ x.significand := by
    refine hnormal.great.resolve_right fun hleast => ?_
    have hhigh := hnear.bounds.2
    have hmost : (x.significand : ℚ) < 2 * Binary64.hidden := by exact_mod_cast hnormal.lt
    rw [hidden_eq] at hmost
    rw [hleast, div_le_iff₀ (two_zpow_pos _)] at hhigh
    have htiny : (2 : ℚ) ^ leastExponent ≤ 2 ^ (-200 : Int) := zpow_le_zpow_right₀ one_le_two (by decide)
    have hproduct : ((x.significand : ℚ) + 1 / 2) * 2 ^ leastExponent ≤ 2 ^ 54 * 2 ^ (-200 : Int) :=
      mul_le_mul (by linarith) htiny (two_zpow_pos _).le (by positivity)
    have hless : (2 : ℚ) ^ 54 * 2 ^ (-200 : Int) < 1 / 10 ^ 22 := by norm_num
    linarith
  have hpower : (n / 10 ^ k : ℚ) = n * 10 ^ (-k : Int) := by
    rw [zpow_neg, zpow_natCast, div_eq_mul_inv]
  rw [hpower] at hnear ⊢
  exact ⟨(by decide : 0 < Binary64.hidden).trans_le hhidden, shortest_of_near hhidden hn' hnear⟩

end PluginShading.Json
