import KetSim.Proofs.Rounded
import Mathlib.Algebra.Order.Round
import Mathlib.Data.Int.Log
/-!
# The nearest double

Between two powers of two, doubles are the multiples of a power of two, the unit, down to a least
one. A real number is rounded to the nearest multiple of its unit, halves to the even one
(`nearest`). Crossing a power of two changes the unit, but powers of two are doubles themselves, so
rounding stays monotone (`nearest_mono`); and every multiple of a unit with at most 53 bits is left as
it is (`nearest_eq_self`). So rounding to doubles is a way of rounding as it is assumed of one
(`Rounding.double`).
-/
namespace KetSim.Scalar.Machine

/-! ## Whole numbers -/

/-- The whole number is at most a half away, and even if it is exactly a half. -/
structure IsNearest (n : ℤ) (y : ℝ) : Prop where
  le : n - y ≤ 1 / 2
  ge : y - n ≤ 1 / 2
  even : n - y = 1 / 2 ∨ y - n = 1 / 2 → Even n

/-- Nothing is asked of a number that is less than a half away. -/
theorem IsNearest.of_lt {n : ℤ} {y : ℝ} (hlow : n - y < 1 / 2) (hhigh : y - n < 1 / 2) :
    IsNearest n y := by
  refine ⟨hlow.le, hhigh.le, ?_⟩
  rintro (h | h) <;> linarith

/-- The nearest whole number, halves to the even one. -/
noncomputable def nearestInt (y : ℝ) : ℤ :=
  match compare (Int.fract y + Int.fract y) 1 with
  | .lt => ⌊y⌋
  | .gt => ⌊y⌋ + 1
  | .eq => if Even ⌊y⌋ then ⌊y⌋ else ⌊y⌋ + 1

theorem isNearest_nearestInt (y : ℝ) : IsNearest (nearestInt y) y := by
  have hy := Int.floor_add_fract y
  have hfract := Int.fract_lt_one y
  have hnonneg := Int.fract_nonneg y
  have hsucc : ((⌊y⌋ + 1 : ℤ) : ℝ) = ⌊y⌋ + 1 := by push_cast; rfl
  unfold nearestInt
  split
  · rename_i hlt
    rw [compare_lt_iff_lt] at hlt
    exact .of_lt (by linarith) (by linarith)
  · rename_i hgt
    rw [compare_gt_iff_gt] at hgt
    exact .of_lt (by linarith) (by linarith)
  · rename_i heq
    rw [compare_eq_iff_eq] at heq
    split
    · rename_i heven
      exact ⟨by linarith, by linarith, fun _ => heven⟩
    · rename_i hodd
      refine ⟨by linarith, by linarith, fun _ => ?_⟩
      rw [Int.not_even_iff_odd] at hodd
      exact hodd.add_one

/-- Of two different whole numbers, the smaller one is not the nearest of a larger number. -/
theorem IsNearest.le_of_le {n k : ℤ} {y z : ℝ} (hn : IsNearest n y) (hk : IsNearest k z)
    (hyz : y ≤ z) : n ≤ k := by
  by_contra hlt
  have hsucc : k + 1 ≤ n := by omega
  have hcast : (k : ℝ) + 1 ≤ n := by exact_mod_cast hsucc
  have := hn.le
  have := hk.ge
  -- both are half a unit off, on either side of one number
  have heven : Even n := hn.even (.inl (by linarith))
  have heven' : Even k := hk.even (.inr (by linarith))
  have hnext : (n : ℝ) = k + 1 := by linarith
  have hnext' : n = k + 1 := by exact_mod_cast hnext
  rw [hnext'] at heven
  exact (Int.not_even_iff_odd.2 heven'.add_one) heven

theorem nearestInt_eq {n : ℤ} {y : ℝ} (hn : IsNearest n y) : nearestInt y = n :=
  le_antisymm ((isNearest_nearestInt y).le_of_le hn le_rfl)
    (hn.le_of_le (isNearest_nearestInt y) le_rfl)

theorem nearestInt_mono : Monotone nearestInt := by
  intro y z hyz
  exact (isNearest_nearestInt y).le_of_le (isNearest_nearestInt z) hyz

theorem nearestInt_intCast (n : ℤ) : nearestInt n = n := by
  exact nearestInt_eq (.of_lt (by norm_num) (by norm_num))

theorem nearestInt_neg (y : ℝ) : nearestInt (-y) = -nearestInt y := by
  obtain ⟨hle, hge, heven⟩ := isNearest_nearestInt y
  have hcast : ((-nearestInt y : ℤ) : ℝ) = -nearestInt y := Int.cast_neg _
  apply nearestInt_eq
  refine ⟨by linarith, by linarith, ?_⟩
  rintro (h | h)
  · exact (heven (.inr (by linarith))).neg
  · exact (heven (.inl (by linarith))).neg

/-! ## Units -/

/-- The exponent of the unit of a number: its first 53 bits are whole in it. -/
noncomputable def unitExponent (x : ℝ) : ℤ := max (Int.log 2 |x| - 52) (-1074)

theorem two_zpow_pos (t : ℤ) : (0 : ℝ) < 2 ^ t := zpow_pos (by norm_num) t

theorem natCast_mul_zpow_pos {m : ℕ} (hm : 0 < m) (t : ℤ) : (0 : ℝ) < m * 2 ^ t :=
  mul_pos (by exact_mod_cast hm) (two_zpow_pos t)

theorem unit_pos (x : ℝ) : (0 : ℝ) < 2 ^ unitExponent x := two_zpow_pos _

theorem le_unitExponent (x : ℝ) : -1074 ≤ unitExponent x := le_max_right _ _

theorem two_pow_mul_zpow (k : ℕ) (t : ℤ) : (2 : ℝ) ^ k * 2 ^ t = 2 ^ (t + k) := by
  rw [zpow_add₀ (by norm_num), zpow_natCast, mul_comm]

theorem abs_lt_of_unitExponent (x : ℝ) : |x| < 2 ^ 53 * 2 ^ unitExponent x := by
  have hlog : |x| < (2 : ℕ) ^ (Int.log 2 |x| + 1) := Int.lt_zpow_succ_log_self (by decide) |x|
  rw [Nat.cast_ofNat] at hlog
  rw [two_pow_mul_zpow]
  refine hlog.trans_le (zpow_le_zpow_right₀ (by norm_num) ?_)
  have := le_max_left (Int.log 2 |x| - 52) (-1074)
  unfold unitExponent
  push_cast
  omega

/-- Above the least unit the first of the 53 bits is one. -/
theorem le_abs_of_unitExponent {x : ℝ} (hx : x ≠ 0) (hunit : -1074 < unitExponent x) :
    2 ^ 52 * 2 ^ unitExponent x ≤ |x| := by
  have hlog : ((2 : ℕ) : ℝ) ^ Int.log 2 |x| ≤ |x| :=
    Int.zpow_log_le_self (by decide) (abs_pos.2 hx)
  rw [Nat.cast_ofNat] at hlog
  have heq : unitExponent x + (52 : ℕ) = Int.log 2 |x| := by
    unfold unitExponent at hunit ⊢
    push_cast
    omega
  rwa [two_pow_mul_zpow, heq]

/-- These two properties determine the unit. -/
theorem unitExponent_eq {x : ℝ} (hx : x ≠ 0) {t : ℤ} (hlow : -1074 ≤ t) (hlt : |x| < 2 ^ 53 * 2 ^ t)
    (hle : -1074 < t → 2 ^ 52 * 2 ^ t ≤ |x|) : unitExponent x = t := by
  have hbelow {s u : ℤ} (h : (2 : ℝ) ^ 52 * 2 ^ s < 2 ^ 53 * 2 ^ u) : s ≤ u := by
    rw [two_pow_mul_zpow, two_pow_mul_zpow, zpow_lt_zpow_iff_right₀ (by norm_num)] at h
    push_cast at h
    omega
  have hlow' := le_unitExponent x
  by_contra hne
  rcases lt_or_gt_of_ne hne with h | h
  · have := hbelow ((hle (by omega)).trans_lt (abs_lt_of_unitExponent x))
    omega
  · have := hbelow ((le_abs_of_unitExponent hx (by omega)).trans_lt hlt)
    omega

theorem unitExponent_neg (x : ℝ) : unitExponent (-x) = unitExponent x := by
  unfold unitExponent
  rw [abs_neg]

/-! ## Doubles -/

/-- The double nearest to a number, if doubles had exponents of any size. -/
noncomputable def nearest (x : ℝ) : ℝ :=
  nearestInt (x / (2 : ℕ) ^ unitExponent x) * (2 : ℕ) ^ unitExponent x

theorem nearest_def (x : ℝ) :
    nearest x = nearestInt (x / 2 ^ unitExponent x) * 2 ^ unitExponent x := by
  unfold nearest
  rw [Nat.cast_ofNat]

theorem nearest_neg (x : ℝ) : nearest (-x) = -nearest x := by
  rw [nearest_def, nearest_def, unitExponent_neg, neg_div, nearestInt_neg]
  push_cast
  ring

/-- A multiple of the unit bounds what is rounded as it bounds the number. -/
theorem nearest_le_mul {x : ℝ} {n : ℤ} (h : x ≤ n * 2 ^ unitExponent x) :
    nearest x ≤ n * 2 ^ unitExponent x := by
  have hpos := unit_pos x
  have hle : nearestInt (x / 2 ^ unitExponent x) ≤ n := by
    rw [← nearestInt_intCast n]
    exact nearestInt_mono ((div_le_iff₀ hpos).2 h)
  rw [nearest_def]
  exact mul_le_mul_of_nonneg_right (by exact_mod_cast hle) hpos.le

/-- A number with at most 53 bits and no bit below the least unit. -/
structure IsShort (y : ℝ) : Prop where
  exists_eq : ∃ (n : ℤ) (s : ℤ), -1074 ≤ s ∧ |n| ≤ 2 ^ 53 ∧ y = n * 2 ^ s

theorem isShort_zero : IsShort 0 := ⟨0, 0, by norm_num, by norm_num, by simp⟩

theorem isShort_two_zpow {s : ℤ} (hs : -1074 ≤ s) : IsShort (2 ^ s) :=
  ⟨1, s, hs, by norm_num, by simp⟩

theorem isShort_one : IsShort 1 := by
  simpa using isShort_two_zpow (by norm_num : (-1074 : ℤ) ≤ 0)

theorem isShort_neg {y : ℝ} (hy : IsShort y) : IsShort (-y) := by
  obtain ⟨n, s, hs, hn, rfl⟩ := hy
  exact ⟨-n, s, hs, by rwa [abs_neg], by push_cast; ring⟩

/-- A number of a larger unit is farther from zero than a short number of smaller parts, or as far. -/
theorem abs_mul_zpow_le {n s t : ℤ} (hn : |n| ≤ 2 ^ 53) (hst : s < t) :
    |(n : ℝ) * 2 ^ s| ≤ 2 ^ 52 * 2 ^ t := by
  have htwo := two_zpow_pos s
  have hn' : |(n : ℝ)| ≤ 2 ^ 53 := by exact_mod_cast hn
  rw [abs_mul, abs_of_pos htwo]
  calc |(n : ℝ)| * 2 ^ s ≤ 2 ^ 53 * 2 ^ s := mul_le_mul_of_nonneg_right hn' htwo.le
    _ = 2 ^ 52 * 2 ^ (s + 1) := by rw [zpow_add_one₀ (by norm_num)]; ring
    _ ≤ 2 ^ 52 * 2 ^ t :=
      mul_le_mul_of_nonneg_left (zpow_le_zpow_right₀ (by norm_num) (by omega)) (by positivity)

/-- What is at most a short number is not rounded above it. -/
theorem nearest_le {x y : ℝ} (hy : IsShort y) (hxy : x ≤ y) : nearest x ≤ y := by
  obtain ⟨n, s, hs, hn, rfl⟩ := hy
  by_cases hts : unitExponent x ≤ s
  · -- the short number is a multiple of the unit
    obtain ⟨k, hk⟩ : ∃ k : ℕ, s = unitExponent x + k :=
      ⟨(s - unitExponent x).toNat, by omega⟩
    have hmul : (n : ℝ) * 2 ^ s = ((n * 2 ^ k : ℤ) : ℝ) * 2 ^ unitExponent x := by
      rw [hk, zpow_add₀ (by norm_num), zpow_natCast]
      push_cast
      ring
    rw [hmul] at hxy ⊢
    exact nearest_le_mul hxy
  · -- the first bit of the number is out of its reach
    have hfar := abs_mul_zpow_le hn (lt_of_not_ge hts)
    rcases eq_or_ne x 0 with rfl | hx
    · have hzero : nearest 0 ≤ ((0 : ℤ) : ℝ) * 2 ^ unitExponent 0 := nearest_le_mul (by simp)
      rw [Int.cast_zero, zero_mul] at hzero
      exact hzero.trans hxy
    · have hbit := le_abs_of_unitExponent hx (by omega)
      have hbounds := abs_le.1 hfar
      rcases lt_or_gt_of_ne hx with hneg | hpos
      · rw [abs_of_neg hneg] at hbit
        have hround : nearest x ≤ ((-2 ^ 52 : ℤ) : ℝ) * 2 ^ unitExponent x :=
          nearest_le_mul (by push_cast; linarith)
        push_cast at hround
        linarith
      · rw [abs_of_pos hpos] at hbit
        have hround : nearest x ≤ ((2 ^ 52 : ℤ) : ℝ) * 2 ^ unitExponent x :=
          nearest_le_mul (by push_cast; linarith)
        push_cast at hround
        linarith

theorem le_nearest {x y : ℝ} (hy : IsShort y) (hyx : y ≤ x) : y ≤ nearest x := by
  have hle := nearest_le (isShort_neg hy) (neg_le_neg hyx)
  rw [nearest_neg] at hle
  exact neg_le_neg_iff.1 hle

/-- Short numbers are left as they are. -/
theorem nearest_eq_self {y : ℝ} (hy : IsShort y) : nearest y = y :=
  le_antisymm (nearest_le hy le_rfl) (le_nearest hy le_rfl)

/-- The first bits of a number are 53 at most. -/
theorem abs_nearestInt_le (x : ℝ) : |nearestInt (x / 2 ^ unitExponent x)| ≤ 2 ^ 53 := by
  obtain ⟨hlow, hhigh⟩ := abs_lt.1 (abs_lt_of_unitExponent x)
  have hpos := unit_pos x
  rw [abs_le]
  constructor
  · rw [← nearestInt_intCast (-2 ^ 53)]
    apply nearestInt_mono
    rw [le_div_iff₀ hpos, Int.cast_neg, Int.cast_pow, Int.cast_ofNat]
    linarith
  · rw [← nearestInt_intCast (2 ^ 53)]
    apply nearestInt_mono
    rw [div_le_iff₀ hpos, Int.cast_pow, Int.cast_ofNat]
    exact hhigh.le

/-- Above the least unit, a positive number has all of them. -/
theorem le_nearestInt {x : ℝ} (hx : 0 < x) (hunit : -1074 < unitExponent x) :
    2 ^ 52 ≤ nearestInt (x / 2 ^ unitExponent x) := by
  have hbit := le_abs_of_unitExponent hx.ne' hunit
  rw [abs_of_pos hx] at hbit
  rw [← nearestInt_intCast (2 ^ 52)]
  apply nearestInt_mono
  rw [le_div_iff₀ (unit_pos x), Int.cast_pow, Int.cast_ofNat]
  exact hbit

/-- What is rounded is short. -/
theorem isShort_nearest (x : ℝ) : IsShort (nearest x) :=
  ⟨_, unitExponent x, le_unitExponent x, abs_nearestInt_le x, nearest_def x⟩

/-- Between two numbers of different units lies a power of two, or its negative. -/
theorem exists_isShort_between {x y : ℝ} (hxy : x ≤ y) (hne : unitExponent x ≠ unitExponent y) :
    ∃ b, IsShort b ∧ x ≤ b ∧ b ≤ y := by
  have hlow := le_unitExponent x
  have hlow' := le_unitExponent y
  have hshort {t : ℤ} (ht : -1074 ≤ t) : IsShort (2 ^ 52 * 2 ^ t) := by
    rw [two_pow_mul_zpow]
    exact isShort_two_zpow (by omega)
  have hstep {s t : ℤ} (hst : s < t) : (2 : ℝ) ^ 53 * 2 ^ s ≤ 2 ^ 52 * 2 ^ t := by
    rw [two_pow_mul_zpow, two_pow_mul_zpow]
    exact zpow_le_zpow_right₀ (by norm_num) (by push_cast; omega)
  rcases eq_or_ne x 0 with rfl | hx
  · exact ⟨0, by simpa using isShort_zero, le_rfl, hxy⟩
  rcases eq_or_ne y 0 with rfl | hy
  · exact ⟨0, isShort_zero, hxy, le_rfl⟩
  obtain ⟨hxlow, hxhigh⟩ := abs_lt.1 (abs_lt_of_unitExponent x)
  obtain ⟨hylow, hyhigh⟩ := abs_lt.1 (abs_lt_of_unitExponent y)
  rcases lt_or_gt_of_ne hne with h | h
  · have hbit := le_abs_of_unitExponent hy (by omega)
    have := hstep h
    refine ⟨_, hshort hlow', by linarith, ?_⟩
    rcases le_abs'.1 hbit with hneg | hpos
    · linarith
    · exact hpos
  · have hbit := le_abs_of_unitExponent hx (by omega)
    have := hstep h
    refine ⟨_, isShort_neg (hshort hlow), ?_, by linarith⟩
    rcases le_abs'.1 hbit with hneg | hpos
    · exact hneg
    · linarith

/-- Rounding to doubles is monotone. -/
theorem nearest_mono : Monotone nearest := by
  intro x y hxy
  by_cases hunit : unitExponent x = unitExponent y
  · have hpos := unit_pos y
    have hint : nearestInt (x / 2 ^ unitExponent y) ≤ nearestInt (y / 2 ^ unitExponent y) :=
      nearestInt_mono (div_le_div_of_nonneg_right hxy hpos.le)
    rw [nearest_def, nearest_def, hunit]
    exact mul_le_mul_of_nonneg_right (by exact_mod_cast hint) hpos.le
  · obtain ⟨b, hb, hxb, hby⟩ := exists_isShort_between hxy hunit
    exact (nearest_le hb hxb).trans (le_nearest hb hby)

end KetSim.Scalar.Machine

namespace KetSim

/-- Rounding to doubles. -/
noncomputable def Rounding.double : Rounding where
  round := Scalar.Machine.nearest
  mono := Scalar.Machine.nearest_mono
  round_round x := Scalar.Machine.nearest_eq_self (Scalar.Machine.isShort_nearest x)
  round_zero := Scalar.Machine.nearest_eq_self Scalar.Machine.isShort_zero
  round_one := Scalar.Machine.nearest_eq_self Scalar.Machine.isShort_one
  round_neg_one := Scalar.Machine.nearest_eq_self
    (Scalar.Machine.isShort_neg Scalar.Machine.isShort_one)

end KetSim
