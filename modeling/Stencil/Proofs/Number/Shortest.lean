import Stencil.Number.Shortest
import Stencil.Proofs.Number.Rounding

namespace Stencil
namespace Binary64

variable {x : Binary64} {tie : Decimal.Tie} {k : Int}

namespace Interval

variable {i : Interval} {tie : Decimal.Tie} {k : Int} {c n : Nat}

-- The values in an interval.
structure Holds (i : Interval) (y : ℚ) : Prop where
  ge : (i.low / i.den : ℚ) ≤ y
  le : y ≤ i.high / i.den
  gt : i.closed = false → (i.low / i.den : ℚ) < y
  lt : i.closed = false → y < i.high / i.den

-- The number lies inside of its interval.
structure Proper (i : Interval) : Prop where
  low_lt  : i.low < i.mid
  lt_high : i.mid < i.high
  den_pos : 0 < i.den

-- An end of the interval and a multiple of a power of ten, over a common denominator.
theorem div_den_eq (i : Interval) (a : Nat) (k : Int) :
    (a / i.den : ℚ) = (a * tenTo (-k).toNat : Nat) / (i.den * tenTo (-k).toNat : Nat) := by
  have : (tenTo (-k).toNat : ℚ) ≠ 0 := Nat.cast_ne_zero.mpr (tenTo_pos _).ne'
  rw [Nat.cast_mul, Nat.cast_mul, mul_div_mul_right _ _ this]

theorem mul_zpow_eq (hd : 0 < i.den) (c : Nat) (k : Int) :
    (c * 10 ^ k : ℚ) = (c * (i.den * tenTo k.toNat) : Nat) / (i.den * tenTo (-k).toNat : Nat) := by
  have : (i.den : ℚ) ≠ 0 := Nat.cast_ne_zero.mpr hd.ne'
  rw [ten_zpow_eq]
  push_cast
  rw [mul_left_comm, mul_div_mul_left _ _ this, mul_div_assoc]

theorem onGrid?_cases (h : i.onGrid? tie k = some c) :
    let unit := i.den * tenTo k.toNat
    let up := tenTo (-k).toNat
    (c = i.mid * up / unit ∧ i.low * up ≤ c * unit ∧ (i.closed = false → i.low * up < c * unit)) ∨
    (c = i.mid * up / unit + 1 ∧ c * unit ≤ i.high * up ∧
      (i.closed = false → c * unit < i.high * up)) := by
  intro unit up
  dsimp only [onGrid?] at h
  cases hc : i.closed <;> simp only [hc] at h <;> split_ifs at h <;>
    obtain rfl := Option.some.inj h <;> simp_all [unit, up] <;> omega

theorem holds_mul_zpow (hd : 0 < i.den)
    (ge : i.low * tenTo (-k).toNat ≤ c * (i.den * tenTo k.toNat))
    (le : c * (i.den * tenTo k.toNat) ≤ i.high * tenTo (-k).toNat)
    (gt : i.closed = false → i.low * tenTo (-k).toNat < c * (i.den * tenTo k.toNat))
    (lt : i.closed = false → c * (i.den * tenTo k.toNat) < i.high * tenTo (-k).toNat) :
    i.Holds (c * 10 ^ k) := by
  have hden : (0 : ℚ) < (i.den * tenTo (-k).toNat : Nat) :=
    Nat.cast_pos.mpr (Nat.mul_pos hd (tenTo_pos _))
  rw [mul_zpow_eq hd c k]
  constructor
  case ge => exact i.div_den_eq _ k ▸ (div_le_div_iff_of_pos_right hden).mpr (mod_cast ge)
  case le => exact i.div_den_eq _ k ▸ (div_le_div_iff_of_pos_right hden).mpr (mod_cast le)
  case gt =>
    exact fun h => i.div_den_eq _ k ▸ (div_lt_div_iff_of_pos_right hden).mpr (mod_cast gt h)
  case lt =>
    exact fun h => i.div_den_eq _ k ▸ (div_lt_div_iff_of_pos_right hden).mpr (mod_cast lt h)

theorem mid_lt (hd : 0 < i.den) (k : Int) :
    i.mid * tenTo (-k).toNat <
    (i.mid * tenTo (-k).toNat / (i.den * tenTo k.toNat) + 1) * (i.den * tenTo k.toNat) :=
  Nat.lt_mul_of_div_lt (Nat.lt_add_one _) (Nat.mul_pos hd (tenTo_pos _))

-- A multiple that is found lies in the interval: on one side it was tested, and towards the other
-- side the number comes first.
theorem holds_of_onGrid? (hi : i.Proper) (h : i.onGrid? tie k = some c) : i.Holds (c * 10 ^ k) := by
  have hlow := Nat.mul_lt_mul_of_pos_right hi.low_lt (tenTo_pos (-k).toNat)
  have hhigh := Nat.mul_lt_mul_of_pos_right hi.lt_high (tenTo_pos (-k).toNat)
  have hfloor := Nat.div_mul_le_self (i.mid * tenTo (-k).toNat) (i.den * tenTo k.toNat)
  have hceil := mid_lt hi.den_pos k
  rcases onGrid?_cases h with ⟨rfl, hle, hlt⟩ | ⟨rfl, hle, hlt⟩
  case inl => exact holds_mul_zpow hi.den_pos hle (by omega) hlt (fun _ => by omega)
  case inr => exact holds_mul_zpow hi.den_pos (by omega) hle (fun _ => by omega) hlt

-- A grid that is fine enough has a multiple just below the number.
theorem isSome_onGrid? (hd : 0 < i.den) (h : (10 : ℚ) ^ k ≤ (i.mid - i.low) / i.den) :
    (i.onGrid? tie k).isSome := by
  have hle : i.low * tenTo (-k).toNat + i.den * tenTo k.toNat ≤ i.mid * tenTo (-k).toNat := by
    rw [ten_zpow_eq, div_le_div_iff₀ (Nat.cast_pos.mpr (tenTo_pos _)) (Nat.cast_pos.mpr hd)] at h
    have h : (i.low * tenTo (-k).toNat + i.den * tenTo k.toNat : ℚ) ≤ i.mid * tenTo (-k).toNat := by
      linarith
    exact_mod_cast h
  have hlt : i.low * tenTo (-k).toNat <
      i.mid * tenTo (-k).toNat / (i.den * tenTo k.toNat) * (i.den * tenTo k.toNat) := by
    have hceil := mid_lt hd k
    rw [Nat.succ_mul] at hceil
    omega
  cases hc : i.closed <;> simp only [onGrid?, hc] <;> split_ifs <;> simp_all
  omega

-- The first grid with a multiple is the one that is taken.
theorem onGrid?_coarsest (h : (i.onGrid? tie (k - n)).isSome) :
    i.onGrid? tie (i.coarsest tie k (n + 1)).exponent =
    some (i.coarsest tie k (n + 1)).digits := by
  induction n generalizing k
  case zero      =>
    obtain ⟨c, hc⟩ := Option.isSome_iff_exists.mp h
    simp only [Nat.cast_zero, sub_zero] at hc
    simp only [coarsest, hc]
  case succ n ih =>
    rw [coarsest]
    cases hc : i.onGrid? tie k
    case some => exact hc
    case none => exact ih (by rwa [Nat.cast_succ, add_comm, ← sub_sub] at h)

end Interval

theorem below_le (x : Binary64) : 1 ≤ x.below ∧ x.below ≤ 2 := by
  unfold below
  split <;> decide

theorem proper_interval (hx : x.significand ≠ 0) : x.interval.Proper := by
  obtain ⟨hge, hle⟩ := x.below_le
  have hm : 1 ≤ x.significand := Nat.one_le_iff_ne_zero.mpr hx
  have hs := twoTo_pos x.exponent.toNat
  constructor
  case low_lt  => exact Nat.mul_lt_mul_of_pos_right (by omega) hs
  case lt_high => exact Nat.mul_lt_mul_of_pos_right (by omega) hs
  case den_pos => exact Nat.mul_pos (by decide) (twoTo_pos _)

-- A bound of the interval, in units of the number.
theorem interval_div (x : Binary64) (a : Nat) :
    ((a * twoTo x.exponent.toNat : Nat) / x.interval.den : ℚ) = a / 4 * 2 ^ x.exponent := by
  rw [two_zpow_eq, div_mul_div_comm, interval]
  push_cast
  rfl

theorem low_div (hx : x.significand ≠ 0) :
    (x.interval.low / x.interval.den : ℚ) = (x.significand - x.below / 4) * 2 ^ x.exponent := by
  have hle := x.below_le.2
  refine (x.interval_div (4 * x.significand - x.below)).trans ?_
  rw [Nat.cast_sub (by omega)]
  push_cast
  ring

theorem mid_div (x : Binary64) :
    (x.interval.mid / x.interval.den : ℚ) = x.significand * 2 ^ x.exponent := by
  refine (x.interval_div (4 * x.significand)).trans ?_
  push_cast
  ring

theorem high_div (x : Binary64) :
    (x.interval.high / x.interval.den : ℚ) = (x.significand + 1 / 2) * 2 ^ x.exponent := by
  refine (x.interval_div (4 * x.significand + 2)).trans ?_
  push_cast
  ring

theorem nearest_of_holds (hx : x.significand ≠ 0) {y : ℚ} (h : x.interval.Holds y) :
    x.Nearest y := by
  have hpos := two_zpow_pos x.exponent
  have hb : (x.below : ℚ) ≤ 2 := by exact_mod_cast x.below_le.2
  have hopen (ho : x.significand % 2 = 1) : x.interval.closed = false := by
    simp [interval, ho]
  have hge : (x.significand - x.below / 4 : ℚ) ≤ y / 2 ^ x.exponent := by
    rw [le_div_iff₀ hpos, ← low_div hx]
    exact h.ge
  constructor
  case near  =>
    constructor
    case ge => linarith
    case le =>
      rw [div_le_iff₀ hpos, ← high_div]
      exact h.le
    case gt =>
      intro ho
      have hgt : (x.significand - x.below / 4 : ℚ) < y / 2 ^ x.exponent := by
        rw [lt_div_iff₀ hpos, ← low_div hx]
        exact h.gt (hopen ho)
      linarith
    case lt =>
      intro ho
      rw [div_lt_iff₀ hpos, ← high_div]
      exact h.lt (hopen ho)
  case below =>
    intro hm he
    rwa [below, if_pos ⟨hm, he⟩, Nat.cast_one] at hge

-- A power of ten of no more than a quarter of the unit makes a grid that is fine enough.
theorem isSome_onGrid?_interval (tie : Decimal.Tie) (hx : x.significand ≠ 0)
    (h : (10 : ℚ) ^ k ≤ 2 ^ x.exponent / 4) : (x.interval.onGrid? tie k).isSome := by
  have hb : (1 : ℚ) ≤ x.below := by exact_mod_cast x.below_le.1
  have hpos := two_zpow_pos x.exponent
  refine Interval.isSome_onGrid? (proper_interval hx).den_pos (h.trans ?_)
  rw [sub_div, low_div hx, mid_div]
  nlinarith

theorem ten_zpow_le_of_pow {q e : Int} {m n : Nat} (hn : n ≠ 0)
    (hb : ((10 : ℚ) ^ n) ^ q ≤ (2 ^ m) ^ q) (h : m * q ≤ n * e) : (10 : ℚ) ^ q ≤ 2 ^ e := by
  refine le_of_pow_le_pow_left₀ hn (two_zpow_pos e).le ?_
  calc ((10 : ℚ) ^ q) ^ n
    _ = (10 ^ n) ^ q := by rw [← zpow_natCast, ← zpow_natCast, zpow_comm]
    _ ≤ (2 ^ m) ^ q := hb
    _ = 2 ^ (m * q) := by rw [← zpow_natCast, ← zpow_mul]
    _ ≤ 2 ^ (n * e) := zpow_le_zpow_right₀ (by norm_num) h
    _ = (2 ^ e) ^ n := by rw [← zpow_natCast, ← zpow_mul, mul_comm]

-- Ten is a little less than two to the 10/3, and a little more than two to the 93/28.
theorem ten_zpow_le {q e : Int} (hpos : 0 ≤ q → 10 * q ≤ 3 * e) (hneg : q ≤ 0 → 93 * q ≤ 28 * e) :
    (10 : ℚ) ^ q ≤ 2 ^ e := by
  rcases Int.le_total 0 q with hq | hq
  case inl =>
    have hb : ((10 : ℚ) ^ 3) ^ q ≤ (2 ^ 10) ^ q := zpow_le_zpow_left₀ hq (by norm_num) (by norm_num)
    exact ten_zpow_le_of_pow (by decide) hb (hpos hq)
  case inr =>
    have hb : ((10 : ℚ) ^ 28) ^ q ≤ (2 ^ 93) ^ q :=
      zpow_le_zpow_of_nonpos hq (by norm_num) (by norm_num)
    exact ten_zpow_le_of_pow (by decide) hb (hneg hq)

-- The last of the grids that are tried is fine enough for every number.
theorem ten_zpow_last_le (hf : x.isFinite = true) (hx : x.significand ≠ 0) :
    (10 : ℚ) ^ (((x.significand.log2 : Int) + 1 + x.exponent) * 30103 / 100000 + 1 - 19) ≤
    2 ^ x.exponent / 4 := by
  have hge := x.exponent_ge
  have hle := exponent_le hf
  have hlog : x.significand.log2 < 53 := (Nat.log2_lt hx).mpr x.significand_lt
  have h4 : (2 : ℚ) ^ x.exponent / 4 = 2 ^ (x.exponent - 2) := by
    rw [zpow_sub₀ (by norm_num)]
    norm_num
  rw [h4]
  exact ten_zpow_le (by omega) (by omega)

-- The shortest decimal of a number is next to it.
theorem nearest_shortest (hf : x.isFinite = true) (hx : x.significand ≠ 0) (tie : Decimal.Tie) :
    x.Nearest ((x.shortest tie).digits * 10 ^ (x.shortest tie).exponent) := by
  have hlast := isSome_onGrid?_interval tie hx (ten_zpow_last_le hf hx)
  have hfound := Interval.onGrid?_coarsest (n := 19) hlast
  rw [shortest, if_neg hx]
  exact nearest_of_holds hx (Interval.holds_of_onGrid? (proper_interval hx) hfound)

end Binary64
end Stencil
