import PluginShading.Proofs.Number.Rounding

/-!
The fewest digits of a binary number.

Seventeen digits always suffice (`seventeen_digits`), so what is printed reads back as the number (`shortest_spec`).
No two decimals of fifteen digits round to one number (`decimal_unique`); one that was read is therefore
the one that is printed (`shortest_of_near`).
-/
namespace PluginShading.Number

open Binary64

variable {x : Binary64} {s : Scientific} {num den : Nat}

def Scientific.value (s : Scientific) : ℚ := s.digits * (10 : ℚ) ^ s.power

theorem ten_zpow_pos (e : Int) : (0 : ℚ) < 10 ^ e := zpow_pos (by norm_num) e

theorem inUnits_eq (num : Nat) (hden : 0 < den) (e : Int) :
    ((inUnits num den e).1 : ℚ) / (inUnits num den e).2 = num / den / (10 : ℚ) ^ e :=
  (split_power (by decide : 0 < 10) num hden e).2

/-- How many units a fraction holds. -/
theorem inUnits_div (hden : 0 < den) (e : Int) :
    (inUnits num den e).1 / (inUnits num den e).2 = ⌊(num / den / (10 : ℚ) ^ e : ℚ)⌋₊ := by
  rw [← inUnits_eq num hden, Nat.floor_div_eq_div]

/-! ### The leading digit -/

theorem digitCount_pos (n : Nat) : 0 < digitCount n := Nat.length_toDigits_pos

theorem digitCount_bounds {n : Nat} (hn : 0 < n) :
    (10 : ℚ) ^ ((digitCount n : Int) - 1) ≤ n ∧ (n : ℚ) < 10 ^ (digitCount n : Int) := by
  have hlt : n < 10 ^ digitCount n := (Nat.length_toDigits_le_iff (by decide) (digitCount_pos n)).1 le_rfl
  have hle : 10 ^ (digitCount n - 1) ≤ n := by
    by_contra hless
    rw [not_le] at hless
    by_cases hone : digitCount n = 1
    · rw [hone] at hless
      exact absurd (Nat.lt_one_iff.1 hless) hn.ne'
    · have hcount := digitCount_pos n
      have hshort : digitCount n ≤ digitCount n - 1 := (Nat.length_toDigits_le_iff (by decide) (by omega)).2 hless
      omega
  constructor
  · rw [show (digitCount n : Int) - 1 = ((digitCount n - 1 : Nat) : Int) by have := digitCount_pos n; omega, zpow_natCast]
    exact_mod_cast hle
  · rw [zpow_natCast]
    exact_mod_cast hlt

theorem leadingPower_spec (hnum : 0 < num) (hden : 0 < den) :
    (10 : ℚ) ^ leadingPower num den ≤ num / den ∧ (num / den : ℚ) < 10 ^ (leadingPower num den + 1) := by
  have hden' : (0 : ℚ) < den := Nat.cast_pos.2 hden
  obtain ⟨hnum₁, hnum₂⟩ := digitCount_bounds hnum
  obtain ⟨hden₁, hden₂⟩ := digitCount_bounds hden
  set guess : Int := (digitCount num : Int) - digitCount den with hguess
  have hlow : (10 : ℚ) ^ (guess - 1) < num / den := by
    rw [lt_div_iff₀ hden']
    calc (10 : ℚ) ^ (guess - 1) * den < 10 ^ (guess - 1) * 10 ^ (digitCount den : Int) := by gcongr
      _ = 10 ^ ((digitCount num : Int) - 1) := by
          rw [← zpow_add₀ (by norm_num)]
          congr 1
          omega
      _ ≤ num := hnum₁
  have hhigh : (num / den : ℚ) < 10 ^ (guess + 1) := by
    rw [div_lt_iff₀ hden']
    calc (num : ℚ) < 10 ^ (digitCount num : Int) := hnum₂
      _ = 10 ^ (guess + 1) * 10 ^ ((digitCount den : Int) - 1) := by
          rw [← zpow_add₀ (by norm_num)]
          congr 1
          omega
      _ ≤ 10 ^ (guess + 1) * den := by gcongr
  have hzero : (inUnits num den guess).1 / (inUnits num den guess).2 = 0 ↔ (num / den : ℚ) < 10 ^ guess := by
    rw [inUnits_div hden, Nat.floor_eq_zero, div_lt_one (ten_zpow_pos _)]
  unfold leadingPower
  simp only [← hguess, hzero]
  split
  · exact ⟨hlow.le, by rwa [sub_add_cancel]⟩
  · exact ⟨not_lt.1 ‹_›, hhigh⟩

/-! ### Candidates -/

/-- Comparing products of whole numbers is comparing fractions. -/
theorem mul_le_mul_iff_div {k a b c d : Nat} (hb : 0 < b) (hd : 0 < d) :
    (k * a * d ≤ c * b ↔ (k * (a / b) : ℚ) ≤ c / d) ∧ (c * b ≤ k * a * d ↔ (c / d : ℚ) ≤ k * (a / b)) := by
  have hb' : (0 : ℚ) < b := Nat.cast_pos.2 hb
  have hd' : (0 : ℚ) < d := Nat.cast_pos.2 hd
  rw [← mul_div_assoc, div_le_div_iff₀ hb' hd', div_le_div_iff₀ hd' hb']
  constructor <;> exact_mod_cast Iff.rfl

/-- The ends of the interval of a number, from quarters of its last place. -/
theorem interval_eq (hx : 0 < x.significand) :
    (x.interval.1 : ℚ) = 4 * (x.significand - x.reach) ∧ (x.interval.2 : ℚ) = 4 * (x.significand + 1 / 2) := by
  unfold interval reach
  dsimp only
  constructor
  · split
    · rw [Nat.cast_sub (by omega)]
      push_cast
      ring
    · rw [Nat.cast_sub (by omega)]
      push_cast
      ring
  · push_cast
    ring

theorem readsBack_iff (hx : 0 < x.significand) {c : Nat} {power : Int} :
    readsBack x c power = true ↔ x.Near (c * 10 ^ power) := by
  have hunit := fraction_eq ⟨1, x.exponent - 2⟩
  have hunitPos := fraction_pos ⟨1, x.exponent - 2⟩
  obtain ⟨hpointPos, hpoint⟩ := power_fraction (by decide : 0 < 10) c power
  obtain ⟨hlow, hhigh⟩ := interval_eq hx
  have hquarter : (value ⟨1, x.exponent - 2⟩ : ℚ) = 2 ^ x.exponent / 4 := by
    rw [value, zpow_sub₀ two_ne_zero]
    norm_num
  have hpos := two_zpow_pos x.exponent
  -- Quarters of the last place are units of it, four of them.
  have hscale : ∀ k v : ℚ, (4 * k * (2 ^ x.exponent / 4) ≤ v ↔ k ≤ v / 2 ^ x.exponent) ∧
      (v ≤ 4 * k * (2 ^ x.exponent / 4) ↔ v / 2 ^ x.exponent ≤ k) := by
    intro k v
    rw [show 4 * k * (2 ^ x.exponent / 4 : ℚ) = k * 2 ^ x.exponent by ring, le_div_iff₀ hpos, div_le_iff₀ hpos]
    exact ⟨Iff.rfl, Iff.rfl⟩
  unfold readsBack Near
  dsimp only at hpoint hpointPos ⊢
  generalize (if 0 ≤ power then (c * Nat.pow 10 power.toNat, 1) else (c, Nat.pow 10 (-power).toNat)) = at_ at *
  split
  · simp only [Bool.and_eq_true, decide_eq_true_eq, (mul_le_mul_iff_div hunitPos hpointPos).1,
      (mul_le_mul_iff_div hunitPos hpointPos).2, hunit, hpoint, hlow, hhigh, hquarter, (hscale _ _).1, (hscale _ _).2,
      Nat.cast_ofNat]
  · simp only [Bool.and_eq_true, decide_eq_true_eq, ← not_le, (mul_le_mul_iff_div hunitPos hpointPos).1,
      (mul_le_mul_iff_div hunitPos hpointPos).2, hunit, hpoint, hlow, hhigh, hquarter, (hscale _ _).1, (hscale _ _).2,
      Nat.cast_ofNat]

/-- The power of ten of the leading digit. -/
def lead (x : Binary64) : Int := leadingPower x.fraction.1 x.fraction.2

theorem value_pos (hx : 0 < x.significand) : 0 < x.value := mul_pos (Nat.cast_pos.2 hx) (two_zpow_pos _)

theorem lead_spec (hx : 0 < x.significand) : (10 : ℚ) ^ lead x ≤ x.value ∧ x.value < 10 ^ (lead x + 1) := by
  have hnum : 0 < x.fraction.1 := by
    refine Nat.pos_of_ne_zero fun hzero => ?_
    have hvalue := fraction_eq x
    rw [hzero, Nat.cast_zero, zero_div] at hvalue
    exact (value_pos hx).ne hvalue
  rw [← fraction_eq x]
  exact leadingPower_spec hnum (fraction_pos x)

/-- The point below a number on the grid of `n` digits. -/
def below (x : Binary64) (n : Nat) : Nat := ⌊x.value / (10 : ℚ) ^ (lead x - n + 1)⌋₊

theorem inUnits_fraction (x : Binary64) (n : Nat) :
    (inUnits x.fraction.1 x.fraction.2 (lead x - n + 1)).1 / (inUnits x.fraction.1 x.fraction.2 (lead x - n + 1)).2 =
      below x n := by
  rw [inUnits_div (fraction_pos x), fraction_eq]
  rfl

theorem below_bounds (hx : 0 < x.significand) {n : Nat} (hn : 0 < n) :
    10 ^ (n - 1) ≤ below x n ∧ below x n + 1 ≤ 10 ^ n := by
  have hpos := ten_zpow_pos (lead x - n + 1)
  obtain ⟨hlow, hhigh⟩ := lead_spec hx
  constructor
  · refine Nat.le_floor ?_
    rw [le_div_iff₀ hpos]
    push_cast
    rw [← zpow_natCast, ← zpow_add₀ (by norm_num), show ((n - 1 : Nat) : Int) + (lead x - n + 1) = lead x by omega]
    exact hlow
  · refine Nat.succ_le_of_lt ((Nat.floor_lt (div_nonneg (value_pos hx).le hpos.le)).2 ?_)
    rw [div_lt_iff₀ hpos]
    push_cast
    rw [← zpow_natCast, ← zpow_add₀ (by norm_num), show (n : Int) + (lead x - n + 1) = lead x + 1 by omega]
    exact hhigh

theorem below_value (hx : 0 < x.significand) (n : Nat) : below x n * (10 : ℚ) ^ (lead x - n + 1) ≤ x.value ∧
    x.value < (below x n + 1) * (10 : ℚ) ^ (lead x - n + 1) := by
  have hpos := ten_zpow_pos (lead x - n + 1)
  rw [← le_div_iff₀ hpos, ← div_lt_iff₀ hpos]
  exact ⟨Nat.floor_le (div_nonneg (value_pos hx).le hpos.le), Nat.lt_floor_add_one _⟩

/-- A candidate with `n` digits is one of the two next to the number, and reads back. -/
theorem withDigits_spec (hx : 0 < x.significand) {n : Nat} (h : withDigits x n = some s) :
    s.power = lead x - n + 1 ∧ (s.digits = below x n ∨ s.digits = below x n + 1) ∧ x.Near s.value := by
  unfold withDigits at h
  dsimp only at h
  rw [show leadingPower x.fraction.1 x.fraction.2 = lead x from rfl, inUnits_fraction] at h
  split at h
  · rename_i hreads
    obtain rfl := Option.some.inj h
    exact ⟨rfl, .inl rfl, (readsBack_iff hx).1 (Bool.and_eq_true_iff.1 hreads).1⟩
  · split at h
    · rename_i hreads
      obtain rfl := Option.some.inj h
      exact ⟨rfl, .inr rfl, (readsBack_iff hx).1 hreads⟩
    · cases h

/-- Where some point of the grid reads back, a candidate does. -/
theorem exists_withDigits (hx : 0 < x.significand) {n c : Nat} (h : x.Near (c * 10 ^ (lead x - n + 1))) :
    ∃ s, withDigits x n = some s := by
  have hpos := ten_zpow_pos (lead x - n + 1)
  obtain ⟨hlow, hhigh⟩ := below_value hx n
  have hreads : readsBack x (below x n) (lead x - n + 1) = true ∨ readsBack x (below x n + 1) (lead x - n + 1) = true := by
    rw [readsBack_iff hx, readsBack_iff hx]
    -- The candidate on the side of that point lies between it and the number.
    rcases le_or_gt (c : ℚ) (below x n) with hc | hc
    · exact .inl (h.between x.near_value (by gcongr) hlow)
    · have hc' : ((below x n + 1 : Nat) : ℚ) ≤ c := by exact_mod_cast Nat.succ_le_of_lt (by exact_mod_cast hc)
      refine .inr (x.near_value.between h ?_ (by gcongr))
      push_cast
      exact hhigh.le
  unfold withDigits
  dsimp only
  rw [show leadingPower x.fraction.1 x.fraction.2 = lead x from rfl, inUnits_fraction]
  split
  · exact ⟨_, rfl⟩
  · rename_i hnot
    rw [if_pos]
    · exact ⟨_, rfl⟩
    · rcases hreads with hreads | hreads
      · simp only [hreads, Bool.true_and, Bool.or_eq_true, Bool.not_eq_true', not_or, Bool.not_eq_false] at hnot
        exact hnot.1
      · exact hreads

/-- **Seventeen digits suffice**: one of the two points next to a number on that grid reads back. -/
theorem seventeen_digits (hnormal : x.Normal) (hx : 0 < x.significand) :
    ∃ c : Nat, x.Near (c * 10 ^ (lead x - (17 : Nat) + 1)) := by
  have hpos := two_zpow_pos x.exponent
  obtain ⟨hlow, hhigh⟩ := below_value hx 17
  obtain ⟨hlead, -⟩ := lead_spec hx
  have hstep : (10 : ℚ) ^ lead x = 10 ^ (lead x - (17 : Nat) + 1) * 10 ^ 16 := by
    rw [← zpow_natCast, ← zpow_add₀ (by norm_num)]
    congr 1
    push_cast
    ring
  generalize below x 17 = b at hlow hhigh
  generalize (10 : ℚ) ^ (lead x - (17 : Nat) + 1) = g at *
  have hvalue : x.value / 2 ^ x.exponent = x.significand := mul_div_cancel_right₀ _ hpos.ne'
  -- In units of the last place: a step of the grid is less than the interval is wide.
  have hlow' : b * (g / 2 ^ x.exponent) ≤ x.significand := by
    rw [← hvalue, ← mul_div_assoc]
    gcongr
  have hhigh' : (x.significand : ℚ) < b * (g / 2 ^ x.exponent) + g / 2 ^ x.exponent := by
    rw [← hvalue, ← add_one_mul, ← mul_div_assoc]
    gcongr
  have hgrid : g / 2 ^ x.exponent * 10 ^ 16 ≤ x.significand := by
    rw [← hvalue, div_mul_eq_mul_div, ← hstep]
    gcongr
  have hmost : (x.significand : ℚ) < 2 ^ 53 := by
    have hcast : (x.significand : ℚ) < 2 * Binary64.hidden := by exact_mod_cast hnormal.lt
    rw [hidden_eq] at hcast
    linarith
  have hreach := x.reach_bounds
  generalize hy : g / 2 ^ x.exponent = y at *
  rcases lt_or_ge (b * y + y) (x.significand + 1 / 2) with hup | hup
  · refine ⟨b + 1, near_of_lt ?_ ?_⟩ <;> rw [mul_div_assoc, hy] <;> push_cast <;> linarith
  · refine ⟨b, near_of_lt ?_ ?_⟩
    · rw [mul_div_assoc, hy]
      -- Above a power of two the step is less than half a unit, so the point above would read back.
      have hwide : x.reach = 1 / 2 := by
        unfold reach
        split
        · rename_i hdense
          have hcast : (x.significand : ℚ) = 2 ^ 52 := by rw [← hidden_eq]; exact_mod_cast hdense.1
          linarith
        · rfl
      linarith
    · rw [mul_div_assoc, hy]
      linarith

/-! ### Dropping zeros -/

theorem dropZeros_spec (fuel : Nat) (s : Scientific) (hpos : 0 < s.digits) :
    (dropZeros fuel s).value = s.value ∧ 0 < (dropZeros fuel s).digits ∧ (dropZeros fuel s).digits ≤ s.digits ∧
      (s.digits < 10 ^ fuel → (dropZeros fuel s).digits % 10 ≠ 0) := by
  induction fuel generalizing s with
  | zero => exact ⟨rfl, hpos, le_rfl, fun hlt => by omega⟩
  | succ fuel ih =>
    rw [dropZeros]
    split
    · rename_i hzero
      obtain ⟨hvalue, hpos', hle, hlast⟩ := ih ⟨s.digits / 10, s.power + 1⟩ (show 0 < s.digits / 10 by omega)
      refine ⟨hvalue.trans ?_, hpos', hle.trans (Nat.div_le_self _ _), fun hlt => hlast ?_⟩
      · have hten : (s.digits : ℚ) = (s.digits / 10 : Nat) * 10 := by
          exact_mod_cast (Nat.div_mul_cancel (Nat.dvd_of_mod_eq_zero hzero.2)).symm
        rw [Scientific.value, Scientific.value, hten, zpow_add_one₀ (by norm_num)]
        ring
      · exact Nat.div_lt_of_lt_mul (by rwa [Nat.pow_succ, Nat.mul_comm] at hlt)
    · rename_i hnot
      exact ⟨rfl, hpos, le_rfl, fun _ hzero => hnot ⟨hpos.ne', hzero⟩⟩

/-! ### The fewest digits -/

/-- The numbers of digits are tried in order. -/
theorem exists_first {k : Nat} (hk : 0 < k) (hk' : k ≤ 17) (h : ∃ s, withDigits x k = some s) :
    ∃ n s, 0 < n ∧ n ≤ k ∧ withDigits x n = some s ∧
      ((List.range 17).map (· + 1)).findSome? (withDigits x) = some s := by
  have hlist : ((List.range 17).map (· + 1)).Pairwise (· < ·) :=
    List.pairwise_map.2 (List.pairwise_lt_range.imp fun hlt => Nat.succ_lt_succ hlt)
  have hmem : k ∈ (List.range 17).map (· + 1) := List.mem_map.2 ⟨k - 1, List.mem_range.2 (by omega), by omega⟩
  generalize hsteps : (List.range 17).map (· + 1) = steps at *
  obtain ⟨s', hs'⟩ := h
  have hsome : (withDigits x k).isSome := by rw [hs', Option.isSome_some]
  obtain ⟨s, hs⟩ := Option.isSome_iff_exists.1 (List.findSome?_isSome_iff.2 ⟨k, hmem, hsome⟩)
  obtain ⟨before, n, after, rfl, hn, hnone⟩ := List.findSome?_eq_some_iff.1 hs
  have hpos : 0 < n := by
    have hn' : n ∈ (List.range 17).map (· + 1) := hsteps ▸ List.mem_append_right _ List.mem_cons_self
    obtain ⟨i, -, rfl⟩ := List.mem_map.1 hn'
    exact Nat.succ_pos i
  refine ⟨n, s, hpos, ?_, hn, hs⟩
  rcases List.mem_append.1 hmem with hmem | hmem
  · rw [hnone k hmem] at hs'
    cases hs'
  · rcases List.mem_cons.1 hmem with rfl | hmem
    · exact le_rfl
    · exact (List.rel_of_pairwise_cons (List.pairwise_append.1 hlist).2.1 hmem).le

/-- What is printed of a number reads back, its last digit is no zero, and where `k` digits suffice it has no more. -/
theorem shortest_spec (hx : 0 < x.significand) {k : Nat} (hk : 0 < k) (hk' : k ≤ 17)
    (h : ∃ s, withDigits x k = some s) :
    x.Near (shortest x).value ∧ 0 < (shortest x).digits ∧ (shortest x).digits % 10 ≠ 0 ∧
      (shortest x).digits ≤ 10 ^ k ∧ (10 : ℚ) ^ lead x ≤ (shortest x).value := by
  obtain ⟨n, s, hn, hnk, hs, hfirst⟩ := exists_first hk hk' h
  obtain ⟨hpower, hdigits, hnear⟩ := withDigits_spec hx hs
  obtain ⟨hleast, hgreatest⟩ := below_bounds hx hn
  have hpos : 0 < s.digits := by
    have hpow : 0 < 10 ^ (n - 1) := Nat.pow_pos (by decide)
    omega
  have hfew : s.digits < 10 ^ digitCount s.digits :=
    (Nat.length_toDigits_le_iff (by decide) (digitCount_pos _)).1 le_rfl
  obtain ⟨hvalue, hpos', hle, hlast⟩ := dropZeros_spec (digitCount s.digits) s hpos
  have hshortest : shortest x = dropZeros (digitCount s.digits) s := by
    rw [shortest, if_neg hx.ne', hfirst]
    rfl
  rw [hshortest, hvalue]
  refine ⟨hnear, hpos', hlast hfew, hle.trans ((show s.digits ≤ 10 ^ n by omega).trans ?_), ?_⟩
  · exact Nat.pow_le_pow_right (by decide) hnk
  · rw [Scientific.value, hpower]
    have hcast : ((10 ^ (n - 1) : Nat) : ℚ) ≤ s.digits := by exact_mod_cast (show 10 ^ (n - 1) ≤ s.digits by omega)
    calc (10 : ℚ) ^ lead x = (10 ^ (n - 1) : Nat) * 10 ^ (lead x - n + 1) := by
          push_cast
          rw [← zpow_natCast, ← zpow_add₀ (by norm_num)]
          congr 1
          omega
      _ ≤ s.digits * 10 ^ (lead x - n + 1) := by gcongr

/-- One of the numbers of digits that are tried reads back. -/
theorem exists_seventeen (hnormal : x.Normal) (hx : 0 < x.significand) : ∃ s, withDigits x 17 = some s := by
  obtain ⟨c, hc⟩ := seventeen_digits hnormal hx
  exact exists_withDigits hx hc

/-! ### Decimals of fifteen digits -/

/-- Decimals of so few digits lie apart from each other, in proportion to their size. -/
theorem decimal_gap {c c' : Nat} {p p' : Int} (hc : c < 10 ^ 15) (hc' : c' < 10 ^ 15)
    (h : (c * 10 ^ p : ℚ) < c' * 10 ^ p') : (c * 10 ^ p : ℚ) < 10 ^ 15 * (c' * 10 ^ p' - c * 10 ^ p) := by
  have hcast : (c : ℚ) < 10 ^ 15 := by exact_mod_cast hc
  have hcast' : (c' : ℚ) < 10 ^ 15 := by exact_mod_cast hc'
  -- On the finer of the two grids the difference is a whole number of steps.
  have hsteps : ∀ {a b : Nat} {q : Int}, (a * 10 ^ q : ℚ) < b * 10 ^ q → (10 ^ q : ℚ) ≤ b * 10 ^ q - a * 10 ^ q := by
    intro a b q hlt
    have hpos := ten_zpow_pos q
    have hab : (a : ℚ) + 1 ≤ b := by exact_mod_cast Nat.succ_le_of_lt (by exact_mod_cast lt_of_mul_lt_mul_right hlt hpos.le)
    have hmul := mul_le_mul_of_nonneg_right hab hpos.le
    linarith
  have hshift : ∀ {a : Nat} {q r : Int}, q ≤ r → (a * 10 ^ r : ℚ) = (a * 10 ^ (r - q).toNat : Nat) * 10 ^ q := by
    intro a q r hqr
    push_cast
    rw [mul_assoc, ← zpow_natCast, ← zpow_add₀ (by norm_num), Int.toNat_of_nonneg (by omega), sub_add_cancel]
  rcases le_total p p' with hp | hp
  · have hstep := hshift (a := c') hp
    rw [hstep] at h ⊢
    calc (c * 10 ^ p : ℚ) < 10 ^ 15 * 10 ^ p := by
          gcongr
      _ ≤ _ := by
          gcongr
          exact hsteps h
  · have hstep := hshift (a := c) hp
    rw [hstep] at h ⊢
    calc _ < (c' * 10 ^ p' : ℚ) := h
      _ < 10 ^ 15 * 10 ^ p' := by
          gcongr
      _ ≤ _ := by
          gcongr
          exact hsteps h

/-- Two decimals of so few digits that round to one number are the same. -/
theorem decimal_unique {c c' : Nat} {p p' : Int} (hx : Binary64.hidden ≤ x.significand) (hc : c < 10 ^ 15)
    (hc' : c' < 10 ^ 15) (h : x.Near (c * 10 ^ p)) (h' : x.Near (c' * 10 ^ p')) :
    (c * 10 ^ p : ℚ) = c' * 10 ^ p' := by
  have hpos := two_zpow_pos x.exponent
  have hleast : (2 : ℚ) ^ 52 ≤ x.significand := by
    rw [← hidden_eq]
    exact_mod_cast hx
  have hreach := x.reach_bounds
  -- The rationals that round to a number span one unit of its last place; decimals of that size lie four apart.
  have hnot : ∀ {d d' : ℚ}, x.Near d → x.Near d' → ¬ d < 10 ^ 15 * (d' - d) := by
    intro d d' hd hd' hgap
    have hlow := hd.bounds.1
    have hhigh := hd'.bounds.2
    rw [← div_lt_div_iff_of_pos_right hpos, mul_div_assoc, sub_div] at hgap
    linarith
  rcases lt_trichotomy (c * 10 ^ p : ℚ) (c' * 10 ^ p') with hlt | heq | hgt
  · exact absurd (decimal_gap hc hc' hlt) (hnot h h')
  · exact heq
  · exact absurd (decimal_gap hc' hc hgt) (hnot h' h)

/-- **A decimal of fifteen digits is printed as it was read**: it is the shortest one that rounds to its number. -/
theorem shortest_of_near {c : Nat} {p : Int} (hx : Binary64.hidden ≤ x.significand) (hc : c < 10 ^ 15)
    (h : x.Near (c * 10 ^ p)) : (shortest x).value = c * 10 ^ p := by
  have hpos : 0 < x.significand := Nat.lt_of_lt_of_le (by decide) hx
  obtain ⟨hlead, -⟩ := lead_spec hpos
  have hgrid : ∃ s, withDigits x 15 = some s := by
    rcases le_or_gt (lead x - (15 : Nat) + 1) p with hp | hp
    · refine exists_withDigits hpos (c := c * 10 ^ (p - (lead x - (15 : Nat) + 1)).toNat) ?_
      push_cast
      rw [mul_assoc, ← zpow_natCast, ← zpow_add₀ (by norm_num), Int.toNat_of_nonneg (by push_cast at hp ⊢; omega)]
      convert h using 3
      ring
    · -- The decimal lies below the leading digit of the number, which then is near too.
      have hlow : (c * 10 ^ p : ℚ) ≤ 10 ^ lead x := by
        have hcast : (c : ℚ) ≤ 10 ^ 15 := by exact_mod_cast hc.le
        calc (c * 10 ^ p : ℚ) ≤ 10 ^ 15 * 10 ^ (lead x - 15) := by
              gcongr
              · norm_num
              · push_cast at hp
                omega
          _ = 10 ^ lead x := by
              rw [← zpow_natCast, ← zpow_add₀ (by norm_num)]
              congr 1
              push_cast
              ring
      have hten : ((10 ^ 14 : Nat) : ℚ) * 10 ^ (lead x - (15 : Nat) + 1) = 10 ^ lead x := by
        rw [Nat.cast_pow, Nat.cast_ofNat, ← zpow_natCast, ← zpow_add₀ (by norm_num)]
        congr 1
        push_cast
        ring
      exact exists_withDigits hpos (hten ▸ h.between x.near_value hlow hlead)
  obtain ⟨hnear, hdigits, hlast, hfew, -⟩ := shortest_spec hpos (by decide) (by decide) hgrid
  exact decimal_unique hx (by omega) hc hnear h

end PluginShading.Number
