import PluginShading.Proofs.Json.Numerals
import PluginShading.Proofs.Json.Scaling

/-!
How a number reads once it is printed.

In plain decimals (`Scientific.Plain`) it reads as the two numbers around its point (`verdict?_plain`), and beyond, with
an exponent, as no version (`verdict?_beyond`). Printing leaves out the zeros at the end of the decimals, so the number
behind the point may become less (`parts_of_value`, `verdictOf_unpadded`).
-/
namespace PluginShading.Json

open PluginShading.Number PluginShading.Number.Binary64
open Version (spelled Verdict verdict? verdictOf)

variable {s : Scientific} {x : Binary64}

/-! ### Plain decimals -/

/-- The numbers in front of the point and behind it. -/
def parts (s : Scientific) : Nat × Nat :=
  if 0 ≤ s.power then (s.digits * 10 ^ s.power.toNat, 0)
  else (s.digits / 10 ^ (-s.power).toNat, s.digits % 10 ^ (-s.power).toNat)

/-- Numbers of this size are printed without exponent. -/
def Plain (s : Scientific) : Prop := s.value = 0 ∨ 1 / 10 ^ 5 ≤ s.value ∧ s.value < 10 ^ 16

/-- Where the point of a number stands, counted from its first digit. -/
def pointOf (s : Scientific) : Int := digitCount s.digits + s.power

/-- What is printed begins with a digit other than zero and ends with one, or is zero. -/
structure Stripped (s : Scientific) : Prop where
  last : s = ⟨0, 0⟩ ∨ 0 < s.digits ∧ s.digits % 10 ≠ 0
  few : s.digits ≤ 10 ^ 17

theorem stripped_shortest (hx : x.Normal) : Stripped (shortest x) := by
  rcases Nat.eq_zero_or_pos x.significand with hzero | hpos
  · rw [shortest, if_pos hzero]
    exact ⟨.inl rfl, Nat.zero_le _⟩
  · obtain ⟨-, hdigits, hlast, hfew, -⟩ := shortest_spec hpos (by decide) le_rfl (exists_seventeen hx hpos)
    exact ⟨.inr ⟨hdigits, hlast⟩, hfew⟩

theorem value_bounds (hs : 0 < s.digits) : (10 : ℚ) ^ (pointOf s - 1) ≤ s.value ∧ s.value < 10 ^ pointOf s := by
  obtain ⟨hlow, hhigh⟩ := digitCount_bounds hs
  have hpos := ten_zpow_pos s.power
  constructor
  · rw [pointOf, add_sub_right_comm, zpow_add₀ (by norm_num)]
    exact mul_le_mul_of_nonneg_right hlow hpos.le
  · rw [pointOf, zpow_add₀ (by norm_num)]
    exact mul_lt_mul_of_pos_right hhigh hpos

theorem plain_iff (hs : Stripped s) : Plain s ↔ leastPoint ≤ pointOf s ∧ pointOf s ≤ greatestPoint := by
  rcases hs.last with rfl | ⟨hpos, -⟩
  · exact ⟨fun _ => by decide, fun _ => .inl (zero_mul _)⟩
  · obtain ⟨hlow, hhigh⟩ := value_bounds hpos
    have hten : (1 : ℚ) < 10 := by norm_num
    have hleast : (1 / 10 ^ 5 : ℚ) = 10 ^ (-5 : Int) := by norm_num
    have hgreatest : (10 ^ 16 : ℚ) = 10 ^ (16 : Int) := by norm_num
    rw [Plain, hleast, hgreatest, or_iff_right (ne_of_gt ((ten_zpow_pos _).trans_le hlow)), leastPoint, greatestPoint]
    constructor
    · rintro ⟨hsmall, hlarge⟩
      have hsmall' := (zpow_lt_zpow_iff_right₀ hten).1 (hsmall.trans_lt hhigh)
      have hlarge' := (zpow_lt_zpow_iff_right₀ hten).1 (hlow.trans_lt hlarge)
      omega
    · rintro ⟨hsmall, hlarge⟩
      exact ⟨((zpow_le_zpow_iff_right₀ hten).2 (by omega)).trans hlow, hhigh.trans_le ((zpow_le_zpow_iff_right₀ hten).2 hlarge)⟩

theorem plain_of_value {n k : Nat} (h : s.value = n / 10 ^ k) (hn : n < 10 ^ 15) :
    Plain s ↔ ¬ (0 < n ∧ n * 10 ^ 5 < 10 ^ k) := by
  have hk : (1 : ℚ) ≤ 10 ^ k := one_le_pow₀ (by norm_num)
  have hpos : (0 : ℚ) < 10 ^ k := one_pos.trans_le hk
  have hless : (n / 10 ^ k : ℚ) < 10 ^ 16 := by
    have hn' : (n : ℚ) < 10 ^ 15 := by exact_mod_cast hn
    exact (div_le_self (Nat.cast_nonneg n) hk).trans_lt (hn'.trans (by norm_num))
  have hzero : (n / 10 ^ k : ℚ) = 0 ↔ n = 0 := by
    rw [div_eq_zero_iff, or_iff_left hpos.ne', Nat.cast_eq_zero]
  have hlarge : (1 / 10 ^ 5 : ℚ) ≤ n / 10 ^ k ↔ 10 ^ k ≤ n * 10 ^ 5 := by
    rw [div_le_div_iff₀ (by norm_num) hpos, one_mul]
    exact_mod_cast Iff.rfl
  rw [Plain, h, hzero, and_iff_left hless, hlarge]
  omega

/-! ### Digits around the point -/

theorem isDigit_toDigits {n : Nat} {c : Char} (h : c ∈ Nat.toDigits 10 n) : c.isDigit = true :=
  Nat.isDigit_of_mem_toDigits (by decide) (by decide) h

theorem spelled_toDigits (n : Nat) : spelled (Nat.toDigits 10 n) = n := Nat.ofDigitChars_ten_toDigits

theorem isDigit_zeros {n : Nat} {c : Char} (h : c ∈ zeros n) : c.isDigit = true := by
  rw [List.eq_of_mem_replicate h]
  rfl

theorem spelled_zeros (n : Nat) : spelled (zeros n) = 0 := Nat.ofDigitChars_replicate_zero

/-- Two texts of digits, one in front of the point and one behind it. -/
structure Around (text w f : List Char) (a b : Nat) : Prop where
  eq : text = w ++ '.' :: f
  front : w ≠ [] ∧ ∀ c ∈ w, c.isDigit = true
  back : f ≠ [] ∧ ∀ c ∈ f, c.isDigit = true
  front_spelled : spelled w = a
  back_spelled : spelled f = b

theorem layOut_plain (hleast : leastPoint ≤ pointOf s) (hgreatest : pointOf s ≤ greatestPoint) :
    ∃ w f, Around (layOut s) w f (parts s).1 (parts s).2 := by
  have hpoint : ((Nat.toDigits 10 s.digits).length : Int) + s.power = pointOf s := rfl
  have hne : Nat.toDigits 10 s.digits ≠ [] := Nat.toDigits_ne_nil
  have hspelled := spelled_toDigits s.digits
  have hcount : ∀ c ∈ Nat.toDigits 10 s.digits, c.isDigit = true := fun _ => isDigit_toDigits
  unfold layOut parts
  simp only [hpoint]
  generalize Nat.toDigits 10 s.digits = ds at *
  by_cases hpower : 0 ≤ s.power
  · -- All digits stand in front of the point, zeros behind them.
    rw [if_pos ⟨hpower, hgreatest⟩, if_pos hpower]
    refine ⟨ds ++ zeros s.power.toNat, ['0'], by simp, ⟨List.append_ne_nil_of_left_ne_nil hne _, ?_⟩,
      ⟨List.cons_ne_nil _ _, List.forall_mem_singleton.2 (by decide)⟩, ?_, rfl⟩
    · exact fun c hc => (List.mem_append.1 hc).elim (hcount c) isDigit_zeros
    · rw [spelled_append, spelled_zeros, hspelled, zeros, List.length_replicate, Nat.add_zero]
  · rw [if_neg (not_and_of_not_left _ hpower), if_neg hpower]
    by_cases hinside : 0 < pointOf s
    · -- The point stands among the digits.
      rw [if_pos ⟨hinside, hgreatest⟩]
      have hback : (ds.drop (pointOf s).toNat).length = (-s.power).toNat := by
        rw [List.length_drop]
        omega
      have hsplit : s.digits = spelled (ds.take (pointOf s).toNat) * 10 ^ (-s.power).toNat +
          spelled (ds.drop (pointOf s).toNat) := by
        rw [← hback, ← spelled_append, List.take_append_drop, hspelled]
      have hless := spelled_lt fun c hc => hcount c (List.mem_of_mem_drop hc (i := (pointOf s).toNat))
      rw [hback] at hless
      refine ⟨_, _, rfl, ⟨?_, fun c hc => hcount c (List.mem_of_mem_take hc)⟩,
        ⟨?_, fun c hc => hcount c (List.mem_of_mem_drop hc)⟩, ?_, ?_⟩
      · rw [← List.length_pos_iff, List.length_take]
        have := List.length_pos_iff.2 hne
        omega
      · rw [← List.length_pos_iff, hback]
        omega
      · rw [hsplit, Nat.mul_comm, Nat.mul_add_div (Nat.pow_pos (by decide)), Nat.div_eq_of_lt hless, Nat.add_zero]
      · rw [hsplit, Nat.mul_add_mod_self_right, Nat.mod_eq_of_lt hless]
    · -- All digits stand behind the point, zeros in front of them.
      rw [if_neg (not_and_of_not_left _ hinside), if_pos ⟨hleast, not_lt.1 hinside⟩]
      have hless : s.digits < 10 ^ (-s.power).toNat := by
        have hfew := spelled_lt hcount
        rw [hspelled] at hfew
        exact hfew.trans_le (Nat.pow_le_pow_right (by decide) (by omega))
      refine ⟨['0'], zeros (-pointOf s).toNat ++ ds, rfl, ⟨List.cons_ne_nil _ _, List.forall_mem_singleton.2 (by decide)⟩,
        ⟨List.append_ne_nil_of_right_ne_nil _ hne, fun c hc => (List.mem_append.1 hc).elim isDigit_zeros (hcount c)⟩, ?_, ?_⟩
      · rw [Nat.div_eq_of_lt hless]
        rfl
      · rw [spelled_append, spelled_zeros, hspelled, Nat.mod_eq_of_lt hless, Nat.zero_mul, Nat.zero_add]

/-- **Plain decimals are judged by the numbers around the point.** -/
theorem verdict?_plain (hs : Stripped s) (h : Plain s) : verdict? (layOut s) = some (verdictOf (parts s).1 (parts s).2) := by
  obtain ⟨hleast, hgreatest⟩ := (plain_iff hs).1 h
  obtain ⟨w, f, htext⟩ := layOut_plain hleast hgreatest
  have hlimit : (10 ^ 17 : Nat) < Version.limit := by decide
  have hfront : (parts s).1 < Version.limit := by
    unfold parts
    split
    · rename_i hpower
      have hvalue : s.value < 10 ^ 16 := by
        rcases h with h | h
        · rw [h]
          norm_num
        · exact h.2
      rw [Scientific.value, ← Int.toNat_of_nonneg hpower, zpow_natCast] at hvalue
      exact lt_trans (by exact_mod_cast hvalue) (by decide : 10 ^ 16 < Version.limit)
    · exact (Nat.div_le_self _ _).trans_lt (hs.few.trans_lt hlimit)
  have hback : (parts s).2 < Version.limit := by
    unfold parts
    split
    · exact (by decide : 0 < Version.limit)
    · exact (Nat.mod_le _ _).trans_lt (hs.few.trans_lt hlimit)
  rw [htext.eq, Version.verdict?_decimal htext.front.1 htext.front.2 htext.back.1 htext.back.2, htext.front_spelled,
    htext.back_spelled, if_pos ⟨hfront, hback⟩]

/-- With an exponent a number is no version. -/
theorem verdict?_beyond (hs : Stripped s) (h : ¬ Plain s) : verdict? (layOut s) = none := by
  rw [plain_iff hs] at h
  have hpoint : ((Nat.toDigits 10 s.digits).length : Int) + s.power = pointOf s := rfl
  have hcount : ∀ c ∈ Nat.toDigits 10 s.digits, c.isDigit = true := fun _ => isDigit_toDigits
  have hlength := List.length_pos_iff.2 (Nat.toDigits_ne_nil : Nat.toDigits 10 s.digits ≠ [])
  unfold layOut
  simp only [hpoint]
  generalize Nat.toDigits 10 s.digits = ds at *
  rw [leastPoint, greatestPoint] at h
  rw [leastPoint, greatestPoint, if_neg (by omega), if_neg (by omega), if_neg (by omega)]
  generalize htail : (if pointOf s - 1 < 0 then '-' else '+') :: Nat.toDigits 10 (pointOf s - 1).natAbs = tail
  have hmarks : ∀ c ∈ tail, Version.IsNumberMark c := by
    rw [← htail, List.forall_mem_cons]
    refine ⟨?_, fun c hc => Version.isNumberMark_of_isDigit (isDigit_toDigits hc)⟩
    split <;> exact ⟨by decide, by decide⟩
  have hfront : ∀ c ∈ ds.take 1, c.isDigit = true := fun c hc => hcount c (List.mem_of_mem_take hc)
  split
  · rw [List.append_nil]
    exact (Version.verdict?_exponent (f := []) hfront nofun (.inl rfl) hmarks).1
  · rw [List.append_assoc]
    exact (Version.verdict?_exponent hfront (fun c hc => hcount c (List.mem_of_mem_drop hc)) (.inl rfl) hmarks).2

instance (s : Scientific) : Decidable (Plain s) := inferInstanceAs (Decidable (_ ∨ _ ∧ _))

/-- The verdict on what is printed of a number. -/
def printed (s : Scientific) : Option Verdict := if Plain s then some (verdictOf (parts s).1 (parts s).2) else none

theorem verdict?_layOut (hs : Stripped s) : verdict? (layOut s) = printed s := by
  unfold printed
  split
  · exact verdict?_plain hs ‹_›
  · exact verdict?_beyond hs ‹_›

/-! ### Zeros left out -/

/-- The number behind the point loses the zeros at its end, the number in front of it nothing. -/
theorem parts_of_value {n k : Nat} (hs : Stripped s) (h : s.value = n / 10 ^ k) : (parts s).1 = n / 10 ^ k ∧
    ∃ z, n % 10 ^ k = (parts s).2 * 10 ^ z ∧ ((parts s).2 = 0 ∨ (parts s).2 % 10 ≠ 0) := by
  have hten : (10 : ℚ) ^ k ≠ 0 := by positivity
  unfold parts
  split
  · rename_i hpower
    obtain ⟨p, hp⟩ := Int.eq_ofNat_of_zero_le hpower
    have hn : n = s.digits * 10 ^ p * 10 ^ k := by
      rw [Scientific.value, hp, zpow_natCast, eq_div_iff hten] at h
      exact_mod_cast h.symm
    rw [hp, Int.toNat_natCast, hn]
    exact ⟨(Nat.mul_div_cancel _ (Nat.pow_pos (by decide))).symm, 0, by rw [Nat.mul_mod_left, Nat.zero_mul], .inl rfl⟩
  · rename_i hpower
    obtain ⟨j, hj⟩ := Int.eq_ofNat_of_zero_le (show 0 ≤ -s.power by omega)
    have hlast : s.digits % 10 ≠ 0 := by
      rcases hs.last with rfl | ⟨-, hlast⟩
      · exact absurd le_rfl hpower
      · exact hlast
    have hn : s.digits * 10 ^ k = n * 10 ^ j := by
      rw [Scientific.value, show s.power = -(j : Int) by omega, zpow_neg, zpow_natCast, ← div_eq_mul_inv,
        div_eq_div_iff (by positivity) hten] at h
      exact_mod_cast h
    rw [hj, Int.toNat_natCast]
    have hjk : j ≤ k := by
      by_contra hless
      -- Otherwise the digits would end with a zero.
      rw [show j = j - k + k by omega, Nat.pow_add, ← Nat.mul_assoc] at hn
      have hdigits := Nat.eq_of_mul_eq_mul_right (Nat.pow_pos (by decide)) hn
      rw [show j - k = j - k - 1 + 1 by omega, Nat.pow_succ, ← Nat.mul_assoc] at hdigits
      omega
    have hn' : n = s.digits * 10 ^ (k - j) := by
      refine Nat.eq_of_mul_eq_mul_right (Nat.pow_pos (by decide : 0 < 10) (n := j)) ?_
      rw [← hn, Nat.mul_assoc, ← Nat.pow_add, Nat.sub_add_cancel hjk]
    have hk : 10 ^ k = 10 ^ j * 10 ^ (k - j) := by rw [← Nat.pow_add, Nat.add_sub_cancel' hjk]
    have hpos : 0 < 10 ^ (k - j) := Nat.pow_pos (by decide)
    refine ⟨by rw [hn', hk, Nat.mul_div_mul_right _ _ hpos], k - j, by rw [hn', hk, Nat.mul_mod_mul_right], .inr ?_⟩
    rw [Nat.mod_mod_of_dvd _ (dvd_pow_self 10 (by omega))]
    exact hlast

theorem verdictOf_eq_iff {a b c : Nat} : verdictOf a b = verdictOf a c ↔ (a = 3 → (b ≤ 1 ↔ c ≤ 1)) := by
  unfold verdictOf
  by_cases ha : a = 3
  · subst ha
    by_cases hb : b ≤ 1 <;> by_cases hc : c ≤ 1 <;> simp [hb, hc]
  · by_cases hlow : a < 3 <;> simp [ha, hlow]

/-- Zeros at the end count in a minor version, and make a difference where it is one without them. -/
theorem verdictOf_unpadded {a b z : Nat} (hb : b = 0 ∨ b % 10 ≠ 0) :
    verdictOf a (b * 10 ^ z) = verdictOf a b ↔ ¬ (a = 3 ∧ ∃ y, b * 10 ^ z = 10 ^ (y + 1)) := by
  have hone : (∃ y, b * 10 ^ z = 10 ^ (y + 1)) ↔ b = 1 ∧ 0 < z := by
    constructor
    · rintro ⟨y, hy⟩
      rcases le_or_gt z y with hzy | hzy
      · have hpower : b = 10 ^ (y - z) * 10 := by
          refine Nat.eq_of_mul_eq_mul_right (Nat.pow_pos (by decide : 0 < 10) (n := z)) ?_
          rw [hy, ← Nat.pow_succ, ← Nat.pow_add]
          congr 1
          omega
        have hpos := Nat.pow_pos (by decide : 0 < 10) (n := y - z)
        omega
      · have hunit : b * 10 ^ (z - (y + 1)) = 1 := by
          refine Nat.eq_of_mul_eq_mul_right (Nat.pow_pos (by decide : 0 < 10) (n := y + 1)) ?_
          rw [Nat.mul_assoc, ← Nat.pow_add, Nat.sub_add_cancel hzy, hy, Nat.one_mul]
        exact ⟨Nat.eq_one_of_mul_eq_one_right hunit, (Nat.zero_le y).trans_lt hzy⟩
    · rintro ⟨rfl, hz⟩
      exact ⟨z - 1, by rw [Nat.one_mul, Nat.sub_add_cancel hz]⟩
  have hgrow : b * 10 ^ z ≤ 1 ↔ b ≤ 1 ∧ ¬ (b = 1 ∧ 0 < z) := by
    rcases Nat.eq_zero_or_pos z with rfl | hz
    · simp
    · have hlarge : 10 ≤ 10 ^ z := Nat.le_self_pow hz.ne' 10
      rcases Nat.eq_zero_or_pos b with rfl | hpos
      · simp
      · have hmul := Nat.mul_le_mul hpos hlarge
        omega
  rw [hone, verdictOf_eq_iff, hgrow]
  omega

end PluginShading.Json
