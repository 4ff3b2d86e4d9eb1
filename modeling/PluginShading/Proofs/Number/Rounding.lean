import Mathlib
import PluginShading.Number.Shortest

/-!
Rounding to binary numbers.

The rationals that round to a number are those near it (`Near`), half a unit of its last place to both sides; below
a power of two it is a quarter. What `round` gives is near to the fraction it was given (`round_near`), and the fraction
itself where that is a whole number of units (`round_exact`).
-/
namespace PluginShading.Number

open Binary64

variable {num den : Nat} {x y : Binary64} {v : ℚ}

/-! ### Values -/

namespace Binary64

def value (x : Binary64) : ℚ := x.significand * (2 : ℚ) ^ x.exponent

/-- How far down the rationals reach that round to the number, in units of its last place. Just above a power of two
the numbers below lie twice as dense. -/
def reach (x : Binary64) : ℚ := if x.significand = Binary64.hidden ∧ leastExponent < x.exponent then 1 / 4 else 1 / 2

/-- `v` is among the rationals that round to `x`. The ends belong to the numbers with an even significand. -/
def Near (x : Binary64) (v : ℚ) : Prop :=
  if x.significand % 2 = 0 then
    x.significand - x.reach ≤ v / 2 ^ x.exponent ∧ v / 2 ^ x.exponent ≤ x.significand + 1 / 2
  else x.significand - x.reach < v / 2 ^ x.exponent ∧ v / 2 ^ x.exponent < x.significand + 1 / 2

/-- The significand is below its bound, and in the upper half of its range unless the exponent is the least one. -/
structure Normal (x : Binary64) : Prop where
  lt : x.significand < 2 * Binary64.hidden
  least : leastExponent ≤ x.exponent
  great : Binary64.hidden ≤ x.significand ∨ x.exponent = leastExponent

end Binary64

theorem natCast_pow_eq_zpow (b : Nat) {e : Int} (he : 0 ≤ e) : ((Nat.pow b e.toNat : Nat) : ℚ) = (b : ℚ) ^ e := by
  rw [show Nat.pow b e.toNat = b ^ e.toNat from rfl, Nat.cast_pow, ← zpow_natCast, Int.toNat_of_nonneg he]

theorem two_zpow_pos (e : Int) : (0 : ℚ) < 2 ^ e := zpow_pos two_pos e

/-- A power of `b` as a fraction. -/
theorem power_fraction {b : Nat} (hb : 0 < b) (n : Nat) (e : Int) :
    let r := if 0 ≤ e then (n * Nat.pow b e.toNat, 1) else (n, Nat.pow b (-e).toNat)
    0 < r.2 ∧ (r.1 / r.2 : ℚ) = n * (b : ℚ) ^ e := by
  dsimp only
  split
  · rename_i he
    exact ⟨Nat.one_pos, by rw [Nat.cast_mul, natCast_pow_eq_zpow b he, Nat.cast_one, div_one]⟩
  · rename_i he
    exact ⟨Nat.pow_pos hb, by rw [natCast_pow_eq_zpow b (by omega), zpow_neg, div_inv_eq_mul]⟩

theorem fraction_pos (x : Binary64) : 0 < x.fraction.2 := (power_fraction two_pos x.significand x.exponent).1

theorem fraction_eq (x : Binary64) : (x.fraction.1 : ℚ) / x.fraction.2 = x.value :=
  (power_fraction two_pos x.significand x.exponent).2

/-! ### Units -/

/-- A power is taken out of a fraction, to the denominator or, where it is less than one, to the numerator. -/
theorem split_power {b : Nat} (hb : 0 < b) (num : Nat) (hden : 0 < den) (e : Int) :
    let r := if 0 ≤ e then (num, den * Nat.pow b e.toNat) else (num * Nat.pow b (-e).toNat, den)
    0 < r.2 ∧ (r.1 / r.2 : ℚ) = num / den / (b : ℚ) ^ e := by
  dsimp only
  split
  · rename_i he
    exact ⟨Nat.mul_pos hden (Nat.pow_pos hb), by rw [Nat.cast_mul, natCast_pow_eq_zpow b he, div_div]⟩
  · rename_i he
    refine ⟨hden, ?_⟩
    rw [Nat.cast_mul, natCast_pow_eq_zpow b (by omega), zpow_neg, mul_div_right_comm, div_eq_mul_inv _ ((b : ℚ) ^ e)]

theorem scaled_pos (hden : 0 < den) (e : Int) : 0 < (scaled num den e).2 := (split_power two_pos num hden e).1

theorem scaled_eq (num : Nat) (hden : 0 < den) (e : Int) :
    ((scaled num den e).1 : ℚ) / (scaled num den e).2 = num / den / (2 : ℚ) ^ e := (split_power two_pos num hden e).2

/-- Binary digits count the powers of two. -/
theorem log2_bounds {n : Nat} (hn : 0 < n) : (2 : ℚ) ^ (n.log2 : Int) ≤ n ∧ (n : ℚ) < 2 ^ ((n.log2 : Int) + 1) := by
  constructor
  · rw [zpow_natCast]
    exact_mod_cast Nat.log2_self_le hn.ne'
  · rw [← Nat.cast_succ, zpow_natCast]
    exact_mod_cast Nat.lt_log2_self

theorem hidden_eq : (Binary64.hidden : ℚ) = 2 ^ 52 := by norm_num [Binary64.hidden]

/-- The difference of the binary digits is off by one at most. -/
theorem guess_bounds (hnum : 0 < num) (hden : 0 < den) :
    (2 : ℚ) ^ 51 < num / den / 2 ^ ((num.log2 : Int) - den.log2 - 52) ∧
      (num / den / 2 ^ ((num.log2 : Int) - den.log2 - 52) : ℚ) < 2 ^ 53 := by
  have hden' : (0 : ℚ) < den := Nat.cast_pos.2 hden
  rw [lt_div_iff₀ (two_zpow_pos _), div_lt_iff₀ (two_zpow_pos _), lt_div_iff₀ hden', div_lt_iff₀ hden',
    ← zpow_natCast, ← zpow_natCast, ← zpow_add₀ two_ne_zero, ← zpow_add₀ two_ne_zero]
  constructor
  · calc (2 : ℚ) ^ (((51 : Nat) : Int) + (num.log2 - den.log2 - 52)) * den
        < 2 ^ (((51 : Nat) : Int) + (num.log2 - den.log2 - 52)) * 2 ^ ((den.log2 : Int) + 1) := by
          gcongr
          exact (log2_bounds hden).2
      _ = 2 ^ (num.log2 : Int) := by
          rw [← zpow_add₀ two_ne_zero]
          congr 1
          omega
      _ ≤ num := (log2_bounds hnum).1
  · calc (num : ℚ) < 2 ^ ((num.log2 : Int) + 1) := (log2_bounds hnum).2
      _ = 2 ^ (((53 : Nat) : Int) + (num.log2 - den.log2 - 52)) * 2 ^ (den.log2 : Int) := by
          rw [← zpow_add₀ two_ne_zero]
          congr 1
          omega
      _ ≤ 2 ^ (((53 : Nat) : Int) + (num.log2 - den.log2 - 52)) * den := by
          gcongr
          exact (log2_bounds hden).1

/-- In units of `2 ^ exponentOf num den`, a fraction is as great as a significand. -/
theorem exponentOf_spec (hnum : 0 < num) (hden : 0 < den) :
    leastExponent ≤ exponentOf num den ∧ (num / den / (2 : ℚ) ^ exponentOf num den : ℚ) < 2 ^ 53 ∧
      ((2 : ℚ) ^ 52 ≤ num / den / 2 ^ exponentOf num den ∨ exponentOf num den = leastExponent) := by
  obtain ⟨hlow, hhigh⟩ := guess_bounds hnum hden
  -- One step down if the guess is too great; then the fraction lies in the range of significands.
  obtain ⟨e, he, hleast, hgreatest⟩ : ∃ e, exponentOf num den = max leastExponent e ∧
      (2 : ℚ) ^ 52 ≤ num / den / 2 ^ e ∧ (num / den / 2 ^ e : ℚ) < 2 ^ 53 := by
    set guess : Int := (num.log2 : Int) - den.log2 - 52 with hguess
    have hfloor : (scaled num den guess).1 / (scaled num den guess).2 < Binary64.hidden ↔
        (num / den / 2 ^ guess : ℚ) < 2 ^ 52 := by
      rw [Nat.div_lt_iff_lt_mul (scaled_pos hden _), ← scaled_eq num hden, ← hidden_eq,
        div_lt_iff₀ (Nat.cast_pos.2 (scaled_pos hden _))]
      exact_mod_cast Iff.rfl
    refine ⟨_, rfl, ?_⟩
    simp only [← hguess, hfloor]
    split
    · rw [zpow_sub_one₀ two_ne_zero, ← div_div, div_inv_eq_mul]
      constructor <;> linarith
    · exact ⟨not_lt.1 ‹_›, hhigh⟩
  rw [he]
  refine ⟨le_max_left _ _, lt_of_le_of_lt ?_ hgreatest, ?_⟩
  · gcongr
    · exact one_le_two
    · exact le_max_right _ _
  · rcases le_total leastExponent e with h | h
    · rw [max_eq_right h]
      exact .inl hleast
    · exact .inr (max_eq_left h)

/-! ### Rounding -/

/-- The nearest whole number, and an even one on a tie. -/
theorem divideEven_spec (hden : 0 < den) : (divideEven num den - 1 / 2 : ℚ) ≤ num / den ∧
    (num / den : ℚ) ≤ divideEven num den + 1 / 2 ∧ (divideEven num den % 2 = 1 →
      (divideEven num den - 1 / 2 : ℚ) < num / den ∧ (num / den : ℚ) < divideEven num den + 1 / 2) := by
  have hden' : (0 : ℚ) < den := Nat.cast_pos.2 hden
  have hsplit : (num / den : ℚ) = (num / den : Nat) + (num % den : Nat) / den := by
    rw [div_eq_iff hden'.ne', add_mul, div_mul_cancel₀ _ hden'.ne']
    exact_mod_cast (Nat.div_add_mod' num den).symm
  have hrest : ((num % den : Nat) / den : ℚ) < 1 := by
    rw [div_lt_one hden']
    exact_mod_cast Nat.mod_lt num hden
  have hrest' : (0 : ℚ) ≤ (num % den : Nat) / den := by positivity
  have hbelow : 2 * (num % den) < den ↔ ((num % den : Nat) / den : ℚ) < 1 / 2 := by
    rw [div_lt_div_iff₀ hden' two_pos, one_mul, mul_comm]
    exact_mod_cast Iff.rfl
  have habove : den < 2 * (num % den) ↔ (1 / 2 : ℚ) < (num % den : Nat) / den := by
    rw [div_lt_div_iff₀ two_pos hden', one_mul, mul_comm ((num % den : Nat) : ℚ)]
    exact_mod_cast Iff.rfl
  unfold divideEven
  simp only [hbelow, habove, hsplit]
  split
  · refine ⟨?_, ?_, fun _ => ⟨?_, ?_⟩⟩ <;> linarith
  split
  · push_cast
    refine ⟨?_, ?_, fun _ => ⟨?_, ?_⟩⟩ <;> linarith
  -- A tie: the even one of the two neighbours is taken.
  split
  · refine ⟨?_, ?_, fun hodd => absurd hodd (by omega)⟩ <;> linarith
  · push_cast
    refine ⟨?_, ?_, fun hodd => absurd hodd (by omega)⟩ <;> linarith

namespace Binary64

theorem reach_bounds (x : Binary64) : 1 / 4 ≤ x.reach ∧ x.reach ≤ 1 / 2 := by
  unfold reach
  split <;> norm_num

theorem Near.bounds (h : x.Near v) : x.significand - x.reach ≤ v / 2 ^ x.exponent ∧ v / 2 ^ x.exponent ≤ x.significand + 1 / 2 := by
  unfold Near at h
  split at h
  · exact h
  · exact ⟨h.1.le, h.2.le⟩

theorem near_of_lt (hlow : x.significand - x.reach < v / 2 ^ x.exponent) (hhigh : v / 2 ^ x.exponent < x.significand + 1 / 2) :
    x.Near v := by
  unfold Near
  split
  · exact ⟨hlow.le, hhigh.le⟩
  · exact ⟨hlow, hhigh⟩

theorem near_value (x : Binary64) : x.Near x.value := by
  have hvalue : x.value / 2 ^ x.exponent = x.significand := mul_div_cancel_right₀ _ (two_zpow_pos _).ne'
  have hreach := x.reach_bounds
  refine near_of_lt ?_ ?_ <;> rw [hvalue] <;> linarith

/-- What lies between rationals that round to a number rounds to it. -/
theorem Near.between {a b : ℚ} (ha : x.Near a) (hb : x.Near b) (hav : a ≤ v) (hvb : v ≤ b) : x.Near v := by
  have hpos := two_zpow_pos x.exponent
  have hav' : a / 2 ^ x.exponent ≤ v / 2 ^ x.exponent := by gcongr
  have hvb' : v / 2 ^ x.exponent ≤ b / 2 ^ x.exponent := by gcongr
  unfold Near at ha hb ⊢
  split at ha
  · rw [if_pos ‹_›] at hb ⊢
    exact ⟨ha.1.trans hav', hvb'.trans hb.2⟩
  · rw [if_neg ‹_›] at hb ⊢
    exact ⟨ha.1.trans_le hav', hvb'.trans_lt hb.2⟩

end Binary64

/-- What rounds to the next power of two is near to it. -/
theorem near_power {e : Int} (he : leastExponent ≤ e) (hlow : 2 * Binary64.hidden - 1 / 2 ≤ v / 2 ^ e)
    (hhigh : v / 2 ^ e ≤ 2 * Binary64.hidden + 1 / 2) : Near ⟨Binary64.hidden, e + 1⟩ v := by
  have hnext : v / 2 ^ (e + 1) = v / 2 ^ e / 2 := by rw [zpow_add_one₀ two_ne_zero, div_div]
  have hreach : reach ⟨Binary64.hidden, e + 1⟩ = 1 / 4 := if_pos ⟨rfl, Int.lt_add_one_iff.2 he⟩
  have heven : Binary64.hidden % 2 = 0 := by decide
  rw [Near, if_pos heven, hreach, hnext]
  dsimp only
  constructor <;> linarith

/-- What rounds to another significand is near to it. At a power of two it cannot lie below it, or its exponent would be
less. -/
theorem near_significand {m : Nat} {e : Int} (hgreat : (2 : ℚ) ^ 52 ≤ v / 2 ^ e ∨ e = leastExponent)
    (hlow : (m - 1 / 2 : ℚ) ≤ v / 2 ^ e) (hhigh : v / 2 ^ e ≤ (m + 1 / 2 : ℚ))
    (hodd : m % 2 = 1 → (m - 1 / 2 : ℚ) < v / 2 ^ e ∧ v / 2 ^ e < (m + 1 / 2 : ℚ)) : Near ⟨m, e⟩ v := by
  have hdense : reach ⟨m, e⟩ = 1 / 2 ∨ (m : ℚ) ≤ v / 2 ^ e := by
    unfold reach
    split
    · rename_i hdense
      obtain ⟨hm, he⟩ := hdense
      right
      rw [show (m : ℚ) = 2 ^ 52 by rw [← hidden_eq]; exact_mod_cast hm]
      exact hgreat.resolve_right he.ne'
    · exact .inl rfl
  have hreach := reach_bounds ⟨m, e⟩
  unfold Near
  dsimp only
  split
  · refine ⟨?_, hhigh⟩
    rcases hdense with hdense | hdense <;> linarith
  · obtain ⟨hlow', hhigh'⟩ := hodd (by omega)
    refine ⟨?_, hhigh'⟩
    rcases hdense with hdense | hdense <;> linarith

/-- What a fraction is rounded to is near to it. -/
theorem round_near (hnum : 0 < num) (hden : 0 < den) (h : Binary64.round num den = some x) :
    x.Normal ∧ x.Near (num / den) := by
  obtain ⟨hleast, hlt, hgreat⟩ := exponentOf_spec hnum hden
  unfold Binary64.round at h
  rw [if_neg hnum.ne'] at h
  dsimp only at h
  generalize exponentOf num den = e at *
  obtain ⟨hlow, hhigh, hodd⟩ := @divideEven_spec (scaled num den e).1 _ (scaled_pos hden e)
  rw [scaled_eq num hden] at hlow hhigh hodd
  generalize divideEven (scaled num den e).1 (scaled num den e).2 = m at *
  have hmost : m ≤ 2 * Binary64.hidden := by
    have hcast : (m : ℚ) < 2 * Binary64.hidden + 1 := by
      rw [hidden_eq]
      linarith
    exact_mod_cast Nat.lt_succ_iff.1 (by exact_mod_cast hcast)
  split at h
  · -- The significand is rounded up to the next power of two.
    rename_i hm
    split at h
    · obtain rfl := Option.some.inj h
      have hm' : (m : ℚ) = 2 * Binary64.hidden := by exact_mod_cast hm
      exact ⟨⟨(by decide : Binary64.hidden < 2 * Binary64.hidden), (Int.lt_add_one_iff.2 hleast).le, .inl le_rfl⟩,
        near_power hleast (hm' ▸ hlow) (hm' ▸ hhigh)⟩
    · cases h
  · rename_i hm
    split at h
    · obtain rfl := Option.some.inj h
      refine ⟨⟨lt_of_le_of_ne hmost hm, hleast, hgreat.imp_left fun hq => ?_⟩, near_significand hgreat hlow hhigh hodd⟩
      have hcast : (Binary64.hidden : ℚ) < m + 1 := by
        rw [hidden_eq]
        linarith
      exact Nat.lt_succ_iff.1 (by exact_mod_cast hcast)
    · cases h

/-- A number whose significand fits is near to no other number. -/
theorem value_eq_of_near {a : Nat} {j : Int} (hx : x.Normal) (ha : a < 2 ^ 53) (hj : leastExponent ≤ j)
    (h : x.Near (a * 2 ^ j)) : x.value = a * 2 ^ j := by
  obtain ⟨hlow, hhigh⟩ := h.bounds
  have hreach := x.reach_bounds
  rw [mul_div_assoc, ← zpow_sub₀ two_ne_zero] at hlow hhigh
  have hle : x.exponent ≤ j := by
    by_contra hlt
    -- Then the number lies below all significands.
    have hhalf : (2 : ℚ) ^ (j - x.exponent) ≤ 1 / 2 := by
      calc (2 : ℚ) ^ (j - x.exponent) ≤ 2 ^ (-1 : Int) := zpow_le_zpow_right₀ one_le_two (by omega)
        _ = 1 / 2 := by norm_num
    have hsmall : (a : ℚ) * 2 ^ (j - x.exponent) ≤ 2 ^ 52 - 1 / 2 := by
      have ha' : (a : ℚ) ≤ 2 ^ 53 - 1 := by
        have : (a : ℚ) + 1 ≤ 2 ^ 53 := by exact_mod_cast ha
        linarith
      have := mul_le_mul ha' hhalf (two_zpow_pos _).le (by norm_num)
      linarith
    have hgreat := hx.great.resolve_right (by omega)
    rcases hgreat.eq_or_lt with heq | hgt
    · have hdense : x.reach = 1 / 4 := if_pos ⟨heq.symm, by omega⟩
      rw [hdense, ← heq, hidden_eq] at hlow
      linarith
    · have hcast : (Binary64.hidden : ℚ) + 1 ≤ x.significand := by exact_mod_cast hgt
      rw [hidden_eq] at hcast
      linarith
  obtain ⟨k, hk⟩ := Int.eq_ofNat_of_zero_le (show 0 ≤ j - x.exponent by omega)
  rw [hk, zpow_natCast] at hlow hhigh
  have heq : x.significand = a * 2 ^ k := by
    refine le_antisymm (Nat.lt_succ_iff.1 ?_) (Nat.lt_succ_iff.1 ?_)
    · have : (x.significand : ℚ) < a * 2 ^ k + 1 := by linarith
      exact_mod_cast this
    · have : (a : ℚ) * 2 ^ k < x.significand + 1 := by linarith
      exact_mod_cast this
  rw [value, heq, show j = x.exponent + k by omega, zpow_add₀ two_ne_zero, zpow_natCast]
  push_cast
  ring

/-- A fraction that is such a number is rounded to itself. -/
theorem round_exact {a : Nat} {j : Int} (hnum : 0 < num) (hden : 0 < den) (hv : (num / den : ℚ) = a * 2 ^ j)
    (ha : a < 2 ^ 53) (hj : leastExponent ≤ j) (h : Binary64.round num den = some x) : x.value = a * 2 ^ j := by
  obtain ⟨hx, hnear⟩ := round_near hnum hden h
  exact value_eq_of_near hx ha hj (hv ▸ hnear)

end PluginShading.Number
