import Mathlib.Algebra.Order.Field.Power
import Mathlib.Data.Int.Log
import Mathlib.Data.Rat.Floor
import Mathlib.Tactic.FieldSimp
import Mathlib.Tactic.Linarith
import Mathlib.Tactic.Positivity
import Mathlib.Tactic.Ring
import Stencil.Number.Rounding

namespace Stencil

theorem natCast_twoTo (n : Nat) : (twoTo n : ℚ) = 2 ^ n :=
  Nat.cast_pow 2 n

theorem natCast_tenTo (n : Nat) : (tenTo n : ℚ) = 10 ^ n :=
  Nat.cast_pow 10 n

theorem twoTo_pos (n : Nat) : 0 < twoTo n :=
  Nat.two_pow_pos n

theorem tenTo_pos (n : Nat) : 0 < tenTo n :=
  Nat.pow_pos (by decide)

theorem two_zpow_pos (e : Int) : (0 : ℚ) < 2 ^ e :=
  zpow_pos (by norm_num) e

theorem ten_zpow_pos (e : Int) : (0 : ℚ) < 10 ^ e :=
  zpow_pos (by norm_num) e

-- A power with any exponent, as a quotient of two powers one of which is one.
theorem pow_toNat_div {b : ℚ} (hb : b ≠ 0) (e : Int) : b ^ e.toNat / b ^ (-e).toNat = b ^ e := by
  rw [← zpow_natCast, ← zpow_natCast, ← zpow_sub₀ hb, Int.toNat_sub_toNat_neg]

theorem zpow_le_zpow_of_nonpos {a b : ℚ} {e : Int} (he : e ≤ 0) (ha : 0 < a) (h : a ≤ b) :
    b ^ e ≤ a ^ e := by
  obtain ⟨n, rfl⟩ := Int.exists_eq_neg_ofNat he
  rw [zpow_neg, zpow_neg, zpow_natCast, zpow_natCast]
  exact inv_anti₀ (pow_pos ha n) (pow_le_pow_left₀ ha.le h n)

theorem two_zpow_eq (e : Int) : (2 : ℚ) ^ e = twoTo e.toNat / twoTo (-e).toNat := by
  rw [natCast_twoTo, natCast_twoTo, pow_toNat_div (by norm_num)]

theorem ten_zpow_eq (e : Int) : (10 : ℚ) ^ e = tenTo e.toNat / tenTo (-e).toNat := by
  rw [natCast_tenTo, natCast_tenTo, pow_toNat_div (by norm_num)]

namespace Binary64

variable {x : Binary64} {num den k : Nat} {e : Int}

-- A word consists of a sign and a magnitude, and the magnitude of an exponent and a significand.
theorem ofWord_magnitude (x : Binary64) : ofWord x.isNegative x.magnitude = x := by
  have hlt := x.bits.toNat_lt
  have hw : (if x.isNegative then twoTo 63 + x.magnitude else x.magnitude) = x.bits.toNat := by
    by_cases hs : twoTo 63 ≤ x.word <;> simp only [isNegative, hs, decide_true, decide_false] <;>
      simp only [magnitude, word, twoTo, Nat.pow_eq] at * <;> simp <;> omega
  rw [ofWord, hw, UInt64.ofNat_toNat]

theorem magnitude_eq (x : Binary64) :
    x.magnitude = (x.exponent + 1074).toNat * twoTo 52 + x.significand := by
  unfold exponent significand
  split <;> simp only [twoTo, Nat.pow_eq] at * <;> omega

theorem significand_lt (x : Binary64) : x.significand < twoTo 53 := by
  unfold significand
  split <;> simp only [twoTo, Nat.pow_eq] at * <;> omega

-- Above the least exponent the significand has all of its digits.
theorem significand_ge (x : Binary64) : x.exponent = -1074 ∨ twoTo 52 ≤ x.significand := by
  unfold exponent significand
  split
  case isTrue  => exact .inl rfl
  case isFalse => exact .inr (Nat.le_add_right ..)

theorem exponent_ge (x : Binary64) : -1074 ≤ x.exponent := by
  unfold exponent
  split <;> simp only [twoTo, Nat.pow_eq] at * <;> omega

theorem magnitude_lt (h : x.isFinite = true) : x.magnitude < infiniteMagnitude :=
  of_decide_eq_true h

theorem isNaN_of_isFinite (h : x.isFinite = true) : x.isNaN = false :=
  decide_eq_false (Nat.not_lt_of_lt (magnitude_lt h))

theorem exponent_le (h : x.isFinite = true) : x.exponent ≤ 971 := by
  have hm := magnitude_lt h
  unfold exponent
  split <;> simp only [infiniteMagnitude, twoTo, Nat.pow_eq] at * <;> omega

-- An integer that a value may be rounded to: it is nearest, and even if another one is as near.
structure Near (r : ℚ) (k : Nat) : Prop where
  ge : (k : ℚ) - 1 / 2 ≤ r
  le : r ≤ k + 1 / 2
  gt : k % 2 = 1 → (k : ℚ) - 1 / 2 < r
  lt : k % 2 = 1 → r < k + 1 / 2

theorem nearestQuotient_eq (hd : 0 < den) (h : Near ((num : ℚ) / den) k) :
    nearestQuotient num den = k := by
  have hdq : (0 : ℚ) < den := Nat.cast_pos.mpr hd
  -- the bounds on integers, over a denominator of `2 * den`
  have ge : 2 * k * den ≤ 2 * num + den := by
    have := (le_div_iff₀ hdq).mp h.ge
    have : (2 * k * den : ℚ) ≤ 2 * num + den := by linarith
    exact_mod_cast this
  have le : 2 * num ≤ 2 * k * den + den := by
    have := (div_le_iff₀ hdq).mp h.le
    have : (2 * num : ℚ) ≤ 2 * k * den + den := by linarith
    exact_mod_cast this
  have gt (ho : k % 2 = 1) : 2 * k * den < 2 * num + den := by
    have := (lt_div_iff₀ hdq).mp (h.gt ho)
    have : (2 * k * den : ℚ) < 2 * num + den := by linarith
    exact_mod_cast this
  have lt (ho : k % 2 = 1) : 2 * num < 2 * k * den + den := by
    have := (div_lt_iff₀ hdq).mp (h.lt ho)
    have : (2 * num : ℚ) < 2 * k * den + den := by linarith
    exact_mod_cast this
  have hn := Nat.div_add_mod num den
  have hr := Nat.mod_lt num hd
  have hk : k = num / den ∨ k = num / den + 1 := by
    have hl : num / den < k + 1 := by
      refine Nat.lt_of_mul_lt_mul_left (a := 2 * den) ?_
      linarith [Nat.zero_le (num % den)]
    have hu : k < num / den + 2 := by
      refine Nat.lt_of_mul_lt_mul_left (a := 2 * den) ?_
      linarith
    omega
  dsimp only [nearestQuotient]
  rcases hk with hk | hk
  case inl =>
    have hkd : 2 * k * den = 2 * (den * (num / den)) := by rw [hk]; ring
    split_ifs <;> omega
  case inr =>
    have hkd : 2 * k * den = 2 * (den * (num / den)) + 2 * den := by rw [hk]; ring
    split_ifs <;> omega

-- The value in units of a power of two.
theorem scaled_eq (num : Nat) (hd : 0 < den) (e : Int) :
    0 < (scaled num den e).2 ∧
    ((scaled num den e).1 : ℚ) / (scaled num den e).2 = num / den / 2 ^ e := by
  have hdq : (den : ℚ) ≠ 0 := Nat.cast_ne_zero.mpr hd.ne'
  have hp (n : Nat) : (twoTo n : ℚ) ≠ 0 := Nat.cast_ne_zero.mpr (twoTo_pos n).ne'
  refine ⟨Nat.mul_pos hd (twoTo_pos _), ?_⟩
  have := hp e.toNat
  have := hp (-e).toNat
  simp only [scaled, Nat.cast_mul, two_zpow_eq e]
  field_simp

theorem scaled_div_lt_iff (num : Nat) (hd : 0 < den) (e : Int) (n : Nat) :
    (scaled num den e).1 / (scaled num den e).2 < twoTo n ↔ (num / den : ℚ) < 2 ^ (e + n) := by
  obtain ⟨hpos, hs⟩ := scaled_eq num hd e
  have hposq : (0 : ℚ) < (scaled num den e).2 := Nat.cast_pos.mpr hpos
  calc (scaled num den e).1 / (scaled num den e).2 < twoTo n
    _ ↔ (scaled num den e).1 < twoTo n * (scaled num den e).2 := Nat.div_lt_iff_lt_mul hpos
    _ ↔ ((scaled num den e).1 : ℚ) < 2 ^ n * (scaled num den e).2 := by
      rw [← natCast_twoTo]
      exact_mod_cast Iff.rfl
    _ ↔ (num / den : ℚ) / 2 ^ e < 2 ^ n := by rw [← div_lt_iff₀ hposq, hs]
    _ ↔ (num / den : ℚ) < 2 ^ (e + n) := by
      rw [div_lt_iff₀ (two_zpow_pos e), ← zpow_natCast, ← zpow_add₀ (by norm_num), add_comm]

-- The powers of two around a quotient, from those around its parts.
theorem log2_bounds (hn : 0 < num) (hd : 0 < den) :
    (2 : ℚ) ^ ((num.log2 : Int) - den.log2 - 1) < num / den ∧
    (num / den : ℚ) < 2 ^ ((num.log2 : Int) - den.log2 + 1) := by
  have lower {n : Nat} (h : 0 < n) : ((2 : ℚ) ^ (n.log2 : Int)) ≤ n := by
    rw [zpow_natCast]
    exact_mod_cast Nat.log2_self_le h.ne'
  have upper (n : Nat) : (n : ℚ) < 2 ^ ((n.log2 : Int) + 1) := by
    have := @Nat.lt_log2_self n
    exact_mod_cast this
  have hdq : (0 : ℚ) < den := Nat.cast_pos.mpr hd
  constructor
  case left =>
    rw [lt_div_iff₀ hdq]
    calc (2 : ℚ) ^ ((num.log2 : Int) - den.log2 - 1) * den
      _ < 2 ^ ((num.log2 : Int) - den.log2 - 1) * 2 ^ ((den.log2 : Int) + 1) :=
        mul_lt_mul_of_pos_left (upper den) (two_zpow_pos _)
      _ = 2 ^ (num.log2 : Int) := by
        rw [← zpow_add₀ (by norm_num)]
        congr 1
        omega
      _ ≤ num := lower hn
  case right =>
    rw [div_lt_iff₀ hdq]
    calc (num : ℚ) < 2 ^ ((num.log2 : Int) + 1) := upper num
      _ = 2 ^ ((num.log2 : Int) - den.log2 + 1) * 2 ^ (den.log2 : Int) := by
        rw [← zpow_add₀ (by norm_num)]
        congr 1
        omega
      _ ≤ 2 ^ ((num.log2 : Int) - den.log2 + 1) * den :=
        mul_le_mul_of_nonneg_left (lower hd) (two_zpow_pos _).le

-- The unit in which a value has 53 binary digits before the point, or the least unit.
theorem unitExponent_eq_max (hn : 0 < num) (hd : 0 < den) :
    unitExponent num den = max (Int.log 2 (num / den : ℚ) - 52) (-1074) := by
  have hy : (0 : ℚ) < num / den := div_pos (Nat.cast_pos.mpr hn) (Nat.cast_pos.mpr hd)
  obtain ⟨hlow, hhigh⟩ := log2_bounds hn hd
  have hge : (num.log2 : Int) - den.log2 - 1 ≤ Int.log 2 (num / den : ℚ) :=
    (Int.zpow_le_iff_le_log Nat.one_lt_two hy).mp hlow.le
  have hle : Int.log 2 (num / den : ℚ) < num.log2 - den.log2 + 1 :=
    (Int.lt_zpow_iff_log_lt Nat.one_lt_two hy).mp hhigh
  have hlt := scaled_div_lt_iff num hd (num.log2 - den.log2 - 53) 53
  rw [← Nat.cast_two, Int.lt_zpow_iff_log_lt Nat.one_lt_two hy] at hlt
  dsimp only [unitExponent]
  simp only [hlt]
  split_ifs <;> omega

theorem unitExponent_eq (hn : 0 < num) (hd : 0 < den) (he : -1074 ≤ e)
    (hlt : (num / den : ℚ) < 2 ^ (e + 53)) (hge : e = -1074 ∨ (2 : ℚ) ^ (e + 52) ≤ num / den) :
    unitExponent num den = e := by
  have hy : (0 : ℚ) < num / den := div_pos (Nat.cast_pos.mpr hn) (Nat.cast_pos.mpr hd)
  have hlt : Int.log 2 (num / den : ℚ) < e + 53 :=
    (Int.lt_zpow_iff_log_lt Nat.one_lt_two hy).mp hlt
  have hge : e = -1074 ∨ e + 52 ≤ Int.log 2 (num / den : ℚ) :=
    hge.imp_right (Int.zpow_le_iff_le_log Nat.one_lt_two hy).mp
  rw [unitExponent_eq_max hn hd]
  omega

theorem ofRatio_eq {negative : Bool} (hn : 0 < num) (hd : 0 < den)
    (hk : Near (num / den / 2 ^ unitExponent num den : ℚ) k)
    (hm : (unitExponent num den + 1074).toNat * twoTo 52 + k < infiniteMagnitude) :
    ofRatio negative num den =
    ofWord negative ((unitExponent num den + 1074).toNat * twoTo 52 + k) := by
  obtain ⟨hpos, hs⟩ := scaled_eq num hd (unitExponent num den)
  rw [← hs] at hk
  dsimp only [ofRatio]
  rw [if_neg hn.ne', nearestQuotient_eq hpos hk, if_pos hm]

-- The values next to a number: up to half a unit away on either side, but only a quarter below a
-- power of two, where the numbers lie twice as close.
structure Nearest (x : Binary64) (y : ℚ) : Prop where
  near  : Near (y / 2 ^ x.exponent) x.significand
  below : x.significand = twoTo 52 → -1074 < x.exponent →
    (x.significand - 1 / 4 : ℚ) ≤ y / 2 ^ x.exponent

namespace Nearest

variable {y : ℚ}

theorem lt (h : x.Nearest y) : y < 2 ^ (x.exponent + 53) := by
  have hm : (x.significand : ℚ) + 1 ≤ 2 ^ 53 := by
    rw [← natCast_twoTo]
    exact_mod_cast x.significand_lt
  rw [add_comm, zpow_add₀ (by norm_num), ← div_lt_iff₀ (two_zpow_pos _)]
  calc y / 2 ^ x.exponent ≤ x.significand + 1 / 2 := h.near.le
    _ < x.significand + 1 := by linarith
    _ ≤ 2 ^ (53 : Int) := hm

theorem ge (h : x.Nearest y) (hx : x.significand ≠ 0) : 2 ^ (x.exponent - 1) ≤ y := by
  have hm : (1 : ℚ) ≤ x.significand := by exact_mod_cast Nat.one_le_iff_ne_zero.mpr hx
  rw [zpow_sub_one₀ (by norm_num), mul_comm, ← le_div_iff₀ (two_zpow_pos _)]
  linarith [h.near.ge]

theorem pos (h : x.Nearest y) (hx : x.significand ≠ 0) : 0 < y :=
  (two_zpow_pos _).trans_le (h.ge hx)

theorem div_lt (hy : y < 2 ^ (e + 52)) : y / 2 ^ e < twoTo 52 := by
  rw [add_comm, zpow_add₀ (by norm_num), ← div_lt_iff₀ (two_zpow_pos _)] at hy
  rwa [natCast_twoTo]

-- What lies below the binade of a number is next to the least number of the binade only.
theorem significand_eq (h : x.Nearest y) (he : -1074 < x.exponent)
    (hy : y < 2 ^ (x.exponent + 52)) : x.significand = twoTo 52 := by
  have hge : twoTo 52 ≤ x.significand := x.significand_ge.resolve_left he.ne'
  have hlt : (x.significand : ℚ) < twoTo 52 + 1 := by linarith [h.near.ge, div_lt hy]
  have hlt : x.significand < twoTo 52 + 1 := by exact_mod_cast hlt
  omega

-- In the unit of the binade below, it is next to the end of that binade.
theorem near_half (h : x.Nearest y) (he : -1074 < x.exponent) (hy : y < 2 ^ (x.exponent + 52)) :
    Near (y / 2 ^ (x.exponent - 1)) (twoTo 53) := by
  have hm := h.significand_eq he hy
  have hge := h.below hm he
  have hlt := div_lt hy
  have hd : (y / 2 ^ (x.exponent - 1) : ℚ) = 2 * (y / 2 ^ x.exponent) := by
    rw [zpow_sub_one₀ (by norm_num)]
    field_simp
  have h53 : (twoTo 53 : ℚ) = 2 * twoTo 52 := by norm_num [natCast_twoTo]
  rw [hm] at hge
  exact ⟨by rw [hd, h53]; linarith, by rw [hd, h53]; linarith, nofun, nofun⟩

end Nearest

-- The values next to a number round to it.
theorem ofRatio_of_nearest {negative : Bool} (hf : x.isFinite = true) (hx : x.significand ≠ 0)
    (hd : 0 < den) (h : x.Nearest (num / den)) :
    ofRatio negative num den = ofWord negative x.magnitude := by
  have hn : 0 < num := by
    have hy := h.pos hx
    rw [div_pos_iff_of_pos_right (Nat.cast_pos.mpr hd)] at hy
    exact_mod_cast hy
  have hmag := x.magnitude_eq
  have hlt := magnitude_lt hf
  have he := x.exponent_ge
  by_cases hge : x.exponent = -1074 ∨ (2 : ℚ) ^ (x.exponent + 52) ≤ num / den
  case pos =>
    have hu : unitExponent num den = x.exponent := unitExponent_eq hn hd he h.lt hge
    rw [ofRatio_eq hn hd (hu ▸ h.near) (by rwa [hu, ← hmag]), hu, ← hmag]
  case neg =>
    obtain ⟨hne, hlow⟩ := not_or.mp hge
    have he : -1074 < x.exponent := by omega
    have hm := h.significand_eq he (not_le.mp hlow)
    have hy := not_le.mp hlow
    have hu : unitExponent num den = x.exponent - 1 := by
      refine unitExponent_eq hn hd (by omega) ?lt (.inr ?ge)
      case lt => rwa [show x.exponent - 1 + 53 = x.exponent + 52 by omega]
      case ge =>
        rw [add_comm, zpow_add₀ (by norm_num), ← le_div_iff₀ (two_zpow_pos _)]
        refine le_trans ?_ (h.near_half he hy).ge
        norm_num [natCast_twoTo]
    have hmag : (unitExponent num den + 1074).toNat * twoTo 52 + twoTo 53 = x.magnitude := by
      rw [hmag, h.significand_eq he hy, hu]
      simp only [twoTo, Nat.pow_eq]
      omega
    rw [ofRatio_eq hn hd (hu ▸ h.near_half he hy) (by rwa [hmag]), hmag]

-- The powers of two that the range of a power of ten is checked with.
theorem two_zpow_le_ten_zpow (he : 0 ≤ e) : (2 : ℚ) ^ (3 * e) ≤ 10 ^ e := by
  rw [zpow_mul]
  exact zpow_le_zpow_left₀ he (by norm_num) (by norm_num)

theorem ten_zpow_le_two_zpow (he : e ≤ 0) : (10 : ℚ) ^ e ≤ 2 ^ (3 * e) := by
  rw [zpow_mul]
  exact zpow_le_zpow_of_nonpos he (by norm_num) (by norm_num)

theorem ofDecimal_of_nearest {negative : Bool} {digits : Nat} (hf : x.isFinite = true)
    (hx : x.significand ≠ 0) (h : x.Nearest (digits * 10 ^ e)) :
    ofDecimal negative digits e = ofWord negative x.magnitude := by
  have hd : digits ≠ 0 := by
    rintro rfl
    simpa using h.pos hx
  have hlow : (2 : ℚ) ^ (digits.log2 : Int) ≤ digits := by
    rw [zpow_natCast]
    exact_mod_cast Nat.log2_self_le hd
  have hhigh : (digits : ℚ) < 2 ^ ((digits.log2 : Int) + 1) := by
    have := @Nat.lt_log2_self digits
    exact_mod_cast this
  have hlarge : ¬(0 < e ∧ (1024 : Int) ≤ digits.log2 + 3 * e) := by
    rintro ⟨he, hl⟩
    have := exponent_le hf
    have hlt : (2 : ℚ) ^ ((digits.log2 : Int) + 3 * e) < 2 ^ (x.exponent + 53) := by
      refine lt_of_le_of_lt ?_ h.lt
      rw [zpow_add₀ (by norm_num)]
      exact mul_le_mul hlow (two_zpow_le_ten_zpow he.le) (two_zpow_pos _).le (Nat.cast_nonneg _)
    have := (zpow_lt_zpow_iff_right₀ (by norm_num)).mp hlt
    omega
  have hsmall : ¬(e < 0 ∧ (digits.log2 : Int) + 1 + 3 * e < -1076) := by
    rintro ⟨he, hl⟩
    have hlt : (2 : ℚ) ^ (x.exponent - 1) < 2 ^ ((digits.log2 : Int) + 1 + 3 * e) := by
      refine lt_of_le_of_lt (h.ge hx) ?_
      rw [zpow_add₀ (by norm_num)]
      exact mul_lt_mul hhigh (ten_zpow_le_two_zpow he.le) (ten_zpow_pos _) (two_zpow_pos _).le
    have := (zpow_lt_zpow_iff_right₀ (by norm_num)).mp hlt
    have := x.exponent_ge
    omega
  have hq : (digits * 10 ^ e : ℚ) = (digits * tenTo e.toNat : Nat) / tenTo (-e).toNat := by
    rw [ten_zpow_eq, Nat.cast_mul, mul_div_assoc]
  dsimp only [ofDecimal]
  rw [if_neg hd, if_neg hlarge, if_neg hsmall]
  exact ofRatio_of_nearest hf hx (tenTo_pos _) (hq ▸ h)

end Binary64
end Stencil
