import KetSim.Proofs.DoubleRounding
/-!
# Arithmetic on doubles

Every operation on finite doubles gives the double nearest to the exact result, signs and zeros
included, unless this is too large for a double. For sums and products this is so because the exact
result is itself a mantissa and an exponent; quotients and roots are computed to at least 53 bits, and
what remains tells on which side of a half the rest lies. The length of a vector is the root of a sum
of squares that is not rounded before.
-/
namespace KetSim.Scalar.Machine
open Float.Model (UnpackedFloat Format totalExponent)
open Float.Model.UnpackedFloat

/-! ## Sums and products -/

theorem isShort_value {u : UnpackedFloat} (hu : IsDouble u) : IsShort (value u : ℝ) := by
  cases hu with
  | zero s => simpa using isShort_zero
  | @finite m e s hm h =>
    have hshort : IsShort ((m : ℝ) * 2 ^ e) := by
      refine ⟨m, e, h.le_exponent, ?_, by push_cast; rfl⟩
      rw [Nat.abs_cast]
      exact_mod_cast h.mantissa_lt.le
    rw [value_finite]
    cases s with
    | negative => exact isShort_neg hshort
    | positive => exact hshort

/-- A double is nearest to itself. -/
theorem gives_self {u : UnpackedFloat} (hu : IsDouble u) : Gives u (value u) :=
  ⟨fun _ => ⟨hu, (nearest_eq_self (isShort_value hu)).symm⟩⟩

/-- With the bits that are at hand, every number is rounded. -/
theorem describes_exact_of_eq {m : Nat} {e : Int} {x : ℝ} (h : x = m * 2 ^ e) :
    Describes (.ofMantissaAndAccuracy m .exact) (x / 2 ^ e) := by
  rw [h, mul_div_cancel_right₀ _ (zpow_ne_zero e (by norm_num))]
  exact .exact m

/-- A mantissa that is moved to a smaller exponent stands for the same number. -/
theorem shiftLeft_mul_zpow (m : Nat) {e f : Int} (hfe : f ≤ e) :
    ((m <<< (e - f).toNat : Nat) : ℝ) * 2 ^ f = m * 2 ^ e := by
  obtain ⟨k, rfl⟩ : ∃ k : Nat, e = f + k := ⟨(e - f).toNat, by omega⟩
  have hk : (f + k - f).toNat = k := by omega
  rw [hk, Nat.shiftLeft_eq]
  push_cast
  rw [mul_assoc, two_pow_mul_zpow]

/-- Moved to the left, a number has so many more bits. -/
theorem two_pow_le_shiftLeft {m k b : Nat} (hm : 0 < m) (h : b ≤ m.log2 + k) : 2 ^ b ≤ m <<< k := by
  rw [Nat.shiftLeft_eq]
  calc 2 ^ b ≤ 2 ^ (m.log2 + k) := Nat.pow_le_pow_right (by norm_num) h
    _ = 2 ^ m.log2 * 2 ^ k := pow_add _ _ _
    _ ≤ m * 2 ^ k := Nat.mul_le_mul_right _ (Nat.log2_self_le hm.ne')

theorem isRounded_round (s : Sign) {m : Nat} (hm : 0 < m) (e : Int) :
    IsRounded s (m * 2 ^ e) (UnpackedFloat.round Format.binary64 s m e) := by
  unfold UnpackedFloat.round
  simp only [decreaseExponent, targetExponent_eq, totalExponent]
  obtain ⟨k, hk⟩ : ∃ k, k = (e - max ((m.log2 : Int) + 1 + e - 53) (-1074)).toNat := ⟨_, rfl⟩
  rw [← hk]
  have hexact : (m * 2 ^ e : ℝ) = (m <<< k : Nat) * 2 ^ (e - k) := by
    have hshift : (e - (e - k)).toNat = k := by omega
    rw [← shiftLeft_mul_zpow m (by omega : e - k ≤ e), hshift]
  refine isRounded_roundWithAccuracy s (natCast_mul_zpow_pos hm e) (describes_exact_of_eq hexact) ?_
  by_cases hlow : e - k ≤ -1074
  · exact .inr hlow
  · exact .inl (two_pow_le_shiftLeft hm (by omega))

theorem cast_apply (s : Sign) (n : Nat) : ((s.apply n : Int) : ℝ) = signed s n := by
  cases s <;> simp [Sign.apply, signed]

theorem signed_mul (s : Sign) (x y : ℝ) : signed s x * y = signed s (x * y) := by
  cases s <;> simp [signed]

theorem gives_normalize (m : Int) (e : Int) (s : Sign) :
    Gives (UnpackedFloat.normalize Format.binary64 m e s) (m * 2 ^ e) := by
  unfold UnpackedFloat.normalize
  rcases lt_trichotomy m 0 with hm | rfl | hm
  · obtain ⟨n, rfl⟩ : ∃ n : Nat, m = -n := ⟨m.natAbs, by omega⟩
    have hround := (isRounded_round .negative (m := n) (by omega) e).gives
    rw [compare_lt_iff_lt.2 hm]
    simpa [signed] using hround
  · rw [compare_eq_iff_eq.2 rfl]
    simpa using gives_zero s
  · obtain ⟨n, rfl⟩ : ∃ n : Nat, m = n := ⟨m.toNat, by omega⟩
    have hround := (isRounded_round .positive (m := n) (by omega) e).gives
    rw [compare_gt_iff_gt.2 hm]
    simpa [signed] using hround

theorem gives_add {u v : UnpackedFloat} (hu : IsDouble u) (hv : IsDouble v) :
    Gives (UnpackedFloat.add Format.binary64 u v) (value u + value v) := by
  cases hu with
  | zero s =>
    cases hv with
    | zero t =>
      have hzero (r : Sign) : Gives (.zero r) ((value (.zero s) : ℝ) + value (.zero t)) := by
        simpa using gives_zero r
      show Gives (if s == t then _ else _) _
      split <;> exact hzero _
    | finite t hn h => simpa [UnpackedFloat.add] using gives_self (.finite t hn h)
  | @finite m e s hm h =>
    cases hv with
    | zero t => simpa [UnpackedFloat.add] using gives_self (.finite s hm h)
    | @finite n f t hn h' =>
      have hsum : (value (.finite s m e hm) : ℝ) + value (.finite t n f hn) =
          ((s.apply (m <<< (e - min e f).toNat : Nat) + t.apply (n <<< (f - min e f).toNat : Nat) :
            Int) : ℝ) * 2 ^ min e f := by
        rw [Int.cast_add, add_mul, cast_apply, cast_apply, signed_mul, signed_mul,
          shiftLeft_mul_zpow m (min_le_left e f), shiftLeft_mul_zpow n (min_le_right e f),
          value_finite, value_finite]
      rw [hsum]
      exact gives_normalize _ _ _

theorem signed_mul_signed (s t : Sign) (x y : ℝ) :
    signed s x * signed t y = signed (s * t) (x * y) := by
  cases s <;> cases t
  · exact neg_mul_neg x y
  · exact neg_mul x y
  · exact mul_neg x y
  · rfl

theorem gives_mul {u v : UnpackedFloat} (hu : IsDouble u) (hv : IsDouble v) :
    Gives (UnpackedFloat.mul Format.binary64 u v) (value u * value v) := by
  cases hu with
  | zero s =>
    cases hv with
    | zero t => simpa [UnpackedFloat.mul] using gives_zero (s * t)
    | finite t hn h => simpa [UnpackedFloat.mul] using gives_zero (s * t)
  | @finite m e s hm h =>
    cases hv with
    | zero t => simpa [UnpackedFloat.mul] using gives_zero (s * t)
    | @finite n f t hn h' =>
      have hproduct : (m * 2 ^ e : ℝ) * (n * 2 ^ f) = (m * n : Nat) * 2 ^ (e + f) := by
        rw [zpow_add₀ (by norm_num)]
        push_cast
        ring
      -- a factor with a first bit makes the product long enough
      have hbits : 2 ^ 52 ≤ m * n ∨ e + f ≤ -1074 := by
        have := h.le_exponent
        have := h'.le_exponent
        by_cases he : -1074 < e
        · exact .inl ((h.le_mantissa he).trans (Nat.le_mul_of_pos_right m hn))
        by_cases hf : -1074 < f
        · exact .inl ((h'.le_mantissa hf).trans (Nat.le_mul_of_pos_left n hm))
        · right
          omega
      rw [value_finite, value_finite, signed_mul_signed]
      exact (isRounded_roundWithAccuracy (s * t)
        (mul_pos (natCast_mul_zpow_pos hm e) (natCast_mul_zpow_pos hn f))
        (describes_exact_of_eq hproduct) hbits).gives

/-! ## Quotients -/

/-- A quotient of whole numbers lies where the remainder says. -/
theorem describes_quotient (m : Nat) {n : Nat} (hn : 0 < n) :
    Describes (.ofMantissaAndAccuracy (m / n) (accuracyOfFraction (m % n) n)) ((m : ℝ) / n) := by
  have hn' : (0 : ℝ) < n := by exact_mod_cast hn
  have hdiv : (m : ℝ) / n = (m / n : Nat) + (m % n : Nat) / n := by
    rw [div_eq_iff hn'.ne', add_mul, div_mul_cancel₀ _ hn'.ne', mul_comm]
    exact_mod_cast (Nat.div_add_mod m n).symm
  have hlt : ((m % n : Nat) : ℝ) < n := by exact_mod_cast Nat.mod_lt m hn
  unfold accuracyOfFraction
  split
  · rename_i hzero
    rw [hdiv, hzero, Nat.cast_zero, zero_div, add_zero]
    exact .exact _
  · rename_i hrest
    have hpos : (0 : ℝ) < (m % n : Nat) := by exact_mod_cast Nat.pos_of_ne_zero hrest
    rw [hdiv]
    rcases lt_trichotomy (2 * (m % n)) n with h | h | h
    · rw [compare_lt_iff_lt.2 h]
      have h' : (2 : ℝ) * (m % n : Nat) < n := by exact_mod_cast h
      refine .below (lt_add_of_pos_right _ (div_pos hpos hn')) (add_lt_add_right ?_ _)
      rw [div_lt_div_iff₀ hn' (by norm_num)]
      linarith
    · rw [compare_eq_iff_eq.2 h]
      have h' : (2 : ℝ) * (m % n : Nat) = n := by exact_mod_cast h
      refine .half (congrArg _ ?_)
      rw [div_eq_div_iff hn'.ne' (by norm_num)]
      linarith
    · rw [compare_gt_iff_gt.2 h]
      have h' : (n : ℝ) < 2 * (m % n : Nat) := by exact_mod_cast h
      refine .above (add_lt_add_right ?_ _) (add_lt_add_right ?_ _)
      · rw [div_lt_div_iff₀ (by norm_num) hn']
        linarith
      · rwa [div_lt_one hn']

/-- The dividend is moved so far that the quotient has 53 bits or reaches below the least unit. -/
theorem isRounded_divCore (s : Sign) {m n : Nat} (hm : 0 < m) (hn : 0 < n) (e f : Int) :
    let core := divCore Format.binary64 m e n f
    IsRounded s (m * 2 ^ e / (n * 2 ^ f))
      (roundWithAccuracy Format.binary64 s core.1 core.2.1 core.2.2) := by
  intro core
  have hn' : (0 : ℝ) < n := by exact_mod_cast hn
  obtain ⟨g, hg⟩ : ∃ g, g = min (e - f)
      (Format.binary64.targetExponent (totalExponent m e - totalExponent n f)) := ⟨_, rfl⟩
  obtain ⟨k, hk⟩ : ∃ k : Nat, e - f = g + k := ⟨(e - f - g).toNat, by omega⟩
  have hcore : core = ((m <<< k) / n, g, accuracyOfFraction ((m <<< k) % n) n) := by
    have hshift : (e - f - g).toNat = k := by omega
    simp only [core, divCore, ← hg, hshift]
  rw [hcore]
  have hquotient : (m * 2 ^ e / (n * 2 ^ f) : ℝ) / 2 ^ g = (m <<< k : Nat) / n := by
    have hef : (2 : ℝ) ^ e = 2 ^ f * (2 ^ k * 2 ^ g) := by
      rw [two_pow_mul_zpow, ← hk, ← zpow_add₀ (by norm_num), add_sub_cancel]
    rw [hef, Nat.shiftLeft_eq]
    push_cast
    have := two_zpow_pos f
    have := two_zpow_pos g
    field_simp
  refine isRounded_roundWithAccuracy s (div_pos (natCast_mul_zpow_pos hm e)
    (natCast_mul_zpow_pos hn f)) ?_ ?_
  · rw [hquotient]
    exact describes_quotient _ hn
  · by_cases hlow : g ≤ -1074
    · exact .inr hlow
    · left
      have hlog : n < 2 ^ (n.log2 + 1) := Nat.lt_log2_self
      have hbits : n.log2 + 53 ≤ m.log2 + k := by
        rw [targetExponent_eq, totalExponent, totalExponent] at hg
        omega
      rw [Nat.le_div_iff_mul_le hn]
      calc 2 ^ 52 * n ≤ 2 ^ 52 * 2 ^ (n.log2 + 1) := Nat.mul_le_mul_left _ hlog.le
        _ = 2 ^ (n.log2 + 53) := by rw [← pow_add]; congr 1; omega
        _ ≤ m <<< k := two_pow_le_shiftLeft hm hbits

theorem signed_div_signed (s t : Sign) (x y : ℝ) :
    signed s x / signed t y = signed (s / t) (x / y) := by
  cases s <;> cases t
  · exact neg_div_neg_eq x y
  · exact neg_div y x
  · exact div_neg x
  · rfl

theorem gives_div {u v : UnpackedFloat} (hu : IsDouble u) (hv : IsDouble v)
    (hne : (value v : ℝ) ≠ 0) :
    Gives (UnpackedFloat.div Format.binary64 u v) (value u / value v) := by
  cases hv with
  | zero t => simp at hne
  | @finite n f t hn h' =>
    cases hu with
    | zero s => simpa [UnpackedFloat.div] using gives_zero (s / t)
    | @finite m e s hm h =>
      rw [value_finite, value_finite, signed_div_signed]
      exact (isRounded_divCore (s / t) hm hn e f).gives

/-! ## Roots -/

/-- A root lies where the remainder says. -/
theorem describes_sqrt (m : Nat) :
    Describes (.ofMantissaAndAccuracy m.sqrt (if m - m.sqrt * m.sqrt = 0 then .exact
      else .inexact (if m - m.sqrt * m.sqrt ≤ m.sqrt then .lt else .gt))) √m := by
  have hle : m.sqrt * m.sqrt ≤ m := Nat.sqrt_le m
  have hlt : m < (m.sqrt + 1) * (m.sqrt + 1) := Nat.lt_succ_sqrt m
  generalize m.sqrt = r at hle hlt ⊢
  have hr : (0 : ℝ) ≤ r := Nat.cast_nonneg r
  split
  · rename_i hzero
    have hsquare : m = r * r := by omega
    rw [hsquare, Nat.cast_mul, Real.sqrt_mul_self hr]
    exact .exact r
  · rename_i hrest
    have hlow : (r : ℝ) * r < m := by exact_mod_cast (by omega : r * r < m)
    split
    · rename_i hbelow
      have hhigh : (m : ℝ) ≤ r * r + r := by exact_mod_cast (by omega : m ≤ r * r + r)
      refine .below ?_ ?_
      · rw [Real.lt_sqrt hr, pow_two]
        exact hlow
      · rw [Real.sqrt_lt' (by linarith)]
        nlinarith
    · rename_i habove
      have hhigh : (r : ℝ) * r + r + 1 ≤ m := by exact_mod_cast (by omega : r * r + r + 1 ≤ m)
      have hlt' : (m : ℝ) < (r + 1) * (r + 1) := by exact_mod_cast hlt
      refine .above ?_ ?_
      · rw [Real.lt_sqrt (by linarith)]
        nlinarith
      · rw [Real.sqrt_lt' (by linarith), pow_two]
        exact hlt'

/-- The radicand is moved so far that the root has 53 bits or reaches below the least unit. -/
theorem gives_sqrt_finite {m : Nat} (hm : 0 < m) (e : Int) :
    Gives (UnpackedFloat.sqrt Format.binary64 (.finite .positive m e hm)) √(m * 2 ^ e) := by
  obtain ⟨g, hg⟩ : ∃ g, g = min (e.ediv 2)
      (Format.binary64.targetExponent ((totalExponent m e + 1).ediv 2)) := ⟨_, rfl⟩
  have hhalf : g ≤ e / 2 := hg ▸ min_le_left _ _
  obtain ⟨k, hk⟩ : ∃ k : Nat, e = 2 * g + k := ⟨(e - 2 * g).toNat, by omega⟩
  have hshift : (e - 2 * g).toNat = k := by omega
  have hroot : √(m * 2 ^ e) / 2 ^ g = √((m <<< k : Nat) : ℝ) := by
    have hradicand : (m * 2 ^ e : ℝ) = (m <<< k : Nat) * (2 ^ g * 2 ^ g) := by
      rw [Nat.shiftLeft_eq, ← zpow_add₀ (by norm_num), ← two_mul]
      push_cast
      rw [mul_assoc, two_pow_mul_zpow, ← hk]
    rw [hradicand, Real.sqrt_mul (Nat.cast_nonneg _), Real.sqrt_mul_self (two_zpow_pos g).le,
      mul_div_cancel_right₀ _ (two_zpow_pos g).ne']
  have hbits : 2 ^ 52 ≤ (m <<< k).sqrt ∨ g ≤ -1074 := by
    by_cases hlow : g ≤ -1074
    · exact .inr hlow
    · left
      have hlong : 104 ≤ m.log2 + k := by
        have htarget : g ≤ max ((totalExponent m e + 1) / 2 - 53) (-1074) := hg ▸ min_le_right _ _
        rw [totalExponent] at htarget
        omega
      rw [Nat.le_sqrt, ← pow_add]
      exact two_pow_le_shiftLeft hm hlong
  have hrounded := isRounded_roundWithAccuracy .positive
    (Real.sqrt_pos.2 (natCast_mul_zpow_pos hm e)) (hroot ▸ describes_sqrt (m <<< k)) hbits
  unfold UnpackedFloat.sqrt
  simp only [sqrtCore, ← hg, hshift]
  exact hrounded.gives

theorem gives_sqrt {u : UnpackedFloat} (hu : IsDouble u) (hnonneg : (0 : ℝ) ≤ value u) :
    Gives (UnpackedFloat.sqrt Format.binary64 u) √(value u) := by
  cases hu with
  | zero s => simpa [UnpackedFloat.sqrt] using gives_zero s
  | @finite m e s hm h =>
    have hpos := natCast_mul_zpow_pos hm e
    rw [value_finite] at hnonneg ⊢
    cases s with
    | negative => exact absurd (neg_lt_zero.2 hpos) (not_lt.2 hnonneg)
    | positive => exact gives_sqrt_finite hm e

/-! ## Operations on doubles -/

section
variable {x y : Float} (hx : x.isFinite = true) (hy : y.isFinite = true)
include hx

theorem nearest_real : nearest (real x) = real x :=
  nearest_eq_self (isShort_value (isFinite_iff.1 hx))

theorem computes_sqrt (hnonneg : 0 ≤ real x) : Computes x.sqrt √(real x) :=
  (gives_sqrt (isFinite_iff.1 hx) hnonneg).computes

theorem computes_abs : Computes x.abs |real x| := by
  refine ⟨fun _ => ?_⟩
  have habs := real_abs hx
  refine ⟨isFinite_abs hx, ?_⟩
  rw [← habs, nearest_real (isFinite_abs hx)]

include hy

theorem computes_add : Computes (x + y) (real x + real y) :=
  (gives_add (isFinite_iff.1 hx) (isFinite_iff.1 hy)).computes

theorem computes_mul : Computes (x * y) (real x * real y) :=
  (gives_mul (isFinite_iff.1 hx) (isFinite_iff.1 hy)).computes

theorem computes_div (hne : real y ≠ 0) : Computes (x / y) (real x / real y) :=
  (gives_div (isFinite_iff.1 hx) (isFinite_iff.1 hy) hne).computes

/-- The squares are added exactly, so only the root is rounded. -/
theorem computes_hypot : Computes (hypot x y) √(real x ^ 2 + real y ^ 2) := by
  have hx' := isFinite_iff.1 hx
  have hy' := isFinite_iff.1 hy
  generalize hu : x.toModel.unpack = u at hx'
  generalize hv : y.toModel.unpack = v at hy'
  cases hx' with
  | zero s =>
    have hhypot : hypot x y = y.abs := by
      unfold hypot
      rw [hu, hv]
      cases hy' <;> rfl
    have hzero : real x = 0 := by simp [real, hu]
    rw [hhypot, hzero, zero_pow two_ne_zero, zero_add, Real.sqrt_sq_eq_abs]
    exact computes_abs hy
  | @finite m e s hm h =>
    cases hy' with
    | zero t =>
      have hhypot : hypot x y = x.abs := by
        unfold hypot
        rw [hu, hv]
      have hzero : real y = 0 := by simp [real, hv]
      rw [hhypot, hzero, zero_pow two_ne_zero, add_zero, Real.sqrt_sq_eq_abs]
      exact computes_abs hx
    | @finite n f t hn h' =>
      have hsquare (r : Sign) (z : ℝ) : signed r z ^ 2 = z * z := by
        rw [← sq_abs, abs_signed, sq_abs, pow_two]
      have hsum : real x ^ 2 + real y ^ 2 =
          ((m <<< (e - min e f).toNat * m <<< (e - min e f).toNat +
            n <<< (f - min e f).toNat * n <<< (f - min e f).toNat : Nat) : ℝ) *
              2 ^ (2 * min e f) := by
        unfold real
        rw [hu, hv, value_finite, value_finite, hsquare, hsquare,
          ← shiftLeft_mul_zpow m (min_le_left e f), ← shiftLeft_mul_zpow n (min_le_right e f),
          two_mul, zpow_add₀ (by norm_num)]
        push_cast
        ring
      unfold hypot
      rw [hu, hv, hsum]
      exact (gives_sqrt_finite _ _).computes

end

end KetSim.Scalar.Machine
