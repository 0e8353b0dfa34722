import KetSim.Proofs.Doubles
import KetSim.Proofs.Nearest
/-!
# How results are rounded

An operation on doubles computes the first bits of its exact result, the next one, and whether
anything is left after that (`Describes`). Dropping further bits keeps track of this
(`Describes.shiftRight`), so what is rounded in the end is the exact result, whatever its size
(`isRounded_roundWithAccuracy`). It is a double unless it is too large for one (`IsRounded.gives`).
-/
namespace KetSim.Scalar.Machine
open Float.Model (UnpackedFloat Format totalExponent)
open Float.Model.UnpackedFloat

/-! ## Bits that are left -/

/-- The number is the mantissa, the round bit on its place, and a rest that is zero if the sticky bit
is not set. -/
structure Describes (em : ExtendedMantissa) (y : ℝ) : Prop where
  exists_rest : ∃ rest : ℝ, y = em.mantissa + em.roundBit.toNat / 2 + rest ∧ 0 ≤ rest ∧
    rest < 1 / 2 ∧ (rest = 0 ↔ em.stickyBit = false)

namespace Describes
variable {m : Nat} {em : ExtendedMantissa} {y : ℝ}

theorem exact (m : Nat) : Describes (.ofMantissaAndAccuracy m .exact) m :=
  ⟨0, by simp [ExtendedMantissa.ofMantissaAndAccuracy]⟩

theorem below (h : (m : ℝ) < y) (h' : y < m + 1 / 2) :
    Describes (.ofMantissaAndAccuracy m (.inexact .lt)) y := by
  refine ⟨y - m, ?_, by linarith, by linarith, ?_⟩
  · simp [ExtendedMantissa.ofMantissaAndAccuracy]
  · exact iff_of_false (sub_pos.2 h).ne' (by simp [ExtendedMantissa.ofMantissaAndAccuracy])

theorem half (h : y = m + 1 / 2) : Describes (.ofMantissaAndAccuracy m (.inexact .eq)) y :=
  ⟨0, by simp [ExtendedMantissa.ofMantissaAndAccuracy, h]⟩

theorem above (h : (m : ℝ) + 1 / 2 < y) (h' : y < m + 1) :
    Describes (.ofMantissaAndAccuracy m (.inexact .gt)) y := by
  refine ⟨y - (m + 1 / 2), ?_, by linarith, by linarith, ?_⟩
  · simp [ExtendedMantissa.ofMantissaAndAccuracy]
  · exact iff_of_false (sub_pos.2 h).ne' (by simp [ExtendedMantissa.ofMantissaAndAccuracy])

theorem le (h : Describes em y) : (em.mantissa : ℝ) ≤ y := by
  obtain ⟨rest, heq, hrest, -⟩ := h.exists_rest
  have hbit : (0 : ℝ) ≤ em.roundBit.toNat / 2 := by positivity
  linarith

theorem lt (h : Describes em y) : y < em.mantissa + 1 := by
  obtain ⟨rest, heq, -, hrest, -⟩ := h.exists_rest
  have hbit : (em.roundBit.toNat : ℝ) ≤ 1 := by exact_mod_cast em.roundBit.toNat_le
  linarith

/-- The rounded mantissa is the nearest whole number. -/
theorem nearestInt_eq (h : Describes em y) : nearestInt y = em.roundedMantissa := by
  obtain ⟨m, roundBit, stickyBit⟩ := em
  obtain ⟨rest, heq, hrest, hrest', hzero⟩ := h.exists_rest
  apply Machine.nearestInt_eq
  cases roundBit with
  | false =>
    have hround : ExtendedMantissa.roundedMantissa ⟨m, false, stickyBit⟩ = m := by
      cases stickyBit <;> rfl
    have heq : y = m + rest := by simpa using heq
    rw [hround]
    exact .of_lt (by push_cast; linarith) (by push_cast; linarith)
  | true =>
    have heq : y = m + 1 / 2 + rest := by simpa using heq
    cases stickyBit with
    | true =>
      have hpos : 0 < rest := lt_of_le_of_ne hrest fun h0 => by simpa using hzero.1 h0.symm
      show IsNearest ((m + 1 : Nat) : ℤ) y
      exact .of_lt (by push_cast; linarith) (by push_cast; linarith)
    | false =>
      -- exactly a half: the even one of the two neighbours
      have hrest0 : rest = 0 := hzero.2 rfl
      show IsNearest ((m + m % 2 : Nat) : ℤ) y
      rcases Nat.mod_two_eq_zero_or_one m with hm | hm
      · rw [hm, add_zero]
        refine ⟨by push_cast; linarith, by push_cast; linarith, fun _ => ?_⟩
        exact_mod_cast Nat.even_iff.2 hm
      · rw [hm]
        refine ⟨by push_cast; linarith, by push_cast; linarith, fun _ => ?_⟩
        exact_mod_cast (Nat.odd_iff.2 hm).add_one

/-- One bit less: the last bit of the mantissa is the round bit now, and what was left of the number
is half of it. -/
theorem shiftRightOne (h : Describes em y) : Describes em.shiftRightOne (y / 2) := by
  obtain ⟨m, roundBit, stickyBit⟩ := em
  obtain ⟨rest, heq, hrest, hrest', hzero⟩ := h.exists_rest
  have hm : (m : ℝ) = 2 * (m / 2 : Nat) + (m % 2 : Nat) := by
    exact_mod_cast (Nat.div_add_mod m 2).symm
  have hbit : (m % 2 != 0).toNat = m % 2 := by
    rcases Nat.mod_two_eq_zero_or_one m with h | h <;> rw [h] <;> rfl
  refine ⟨(roundBit.toNat / 2 + rest) / 2, ?_, by positivity, ?_, ?_⟩
  · show y / 2 = (m / 2 : Nat) + (m % 2 != 0).toNat / 2 + _
    rw [hbit, heq]
    simp only
    linarith
  · have hle : (roundBit.toNat : ℝ) ≤ 1 := by exact_mod_cast roundBit.toNat_le
    linarith
  · show _ ↔ (roundBit || stickyBit) = false
    cases roundBit with
    | false => simpa using hzero
    | true =>
      have hpos : (0 : ℝ) < (((true.toNat : ℕ) : ℝ) / 2 + rest) / 2 := by
        simp only [Bool.toNat_true, Nat.cast_one]
        linarith
      simpa using hpos.ne'

/-- Any number of bits less. -/
theorem shiftRight (h : Describes em y) (k : Nat) : Describes (em >>> k) (y / 2 ^ k) := by
  show Describes (k.repeat ExtendedMantissa.shiftRightOne em) _
  induction k with
  | zero => simpa [Nat.repeat] using h
  | succ k ih =>
    rw [Nat.repeat, pow_succ, ← div_div]
    exact ih.shiftRightOne

end Describes

/-! ## The unit of a result -/

theorem targetExponent_eq (total : Int) :
    Format.binary64.targetExponent total = max (total - 53) (-1074) := rfl

theorem mantissa_ofMantissaAndAccuracy (m : Nat) (acc : Accuracy) :
    (ExtendedMantissa.ofMantissaAndAccuracy m acc).mantissa = m := by
  match acc with
  | .exact | .inexact .lt | .inexact .eq | .inexact .gt => rfl

/-- The exponent that is aimed at is that of the unit, provided that enough bits were computed. -/
theorem targetExponent_eq_unitExponent {m : Nat} {e : Int} {acc : Accuracy} {x : ℝ} (hx : 0 < x)
    (h : Describes (.ofMantissaAndAccuracy m acc) (x / 2 ^ e)) (hbits : 2 ^ 52 ≤ m ∨ e ≤ -1074) :
    Format.binary64.targetExponent (totalExponent m e) = unitExponent x := by
  have htwo := two_zpow_pos e
  have hle := h.le
  have hlt := h.lt
  rw [mantissa_ofMantissaAndAccuracy] at hle hlt
  rw [le_div_iff₀ htwo] at hle
  rw [div_lt_iff₀ htwo] at hlt
  have hlog : m + 1 ≤ 2 ^ (m.log2 + 1) := Nat.lt_log2_self
  have hlog' : (m + 1 : ℝ) ≤ 2 ^ (m.log2 + 1) := by exact_mod_cast hlog
  rw [targetExponent_eq, totalExponent]
  symm
  apply unitExponent_eq hx.ne' (le_max_right _ _)
  · rw [abs_of_pos hx, two_pow_mul_zpow]
    calc x < (m + 1) * 2 ^ e := hlt
      _ ≤ 2 ^ (m.log2 + 1) * 2 ^ e := mul_le_mul_of_nonneg_right hlog' htwo.le
      _ = 2 ^ (e + (m.log2 + 1 : Nat)) := two_pow_mul_zpow _ _
      _ ≤ _ := zpow_le_zpow_right₀ (by norm_num) (by push_cast; omega)
  · intro hunit
    have hm : m ≠ 0 := by
      rintro rfl
      rw [Nat.log2_zero] at hunit
      omega
    have hlow : (2 : ℝ) ^ m.log2 ≤ m := by exact_mod_cast Nat.log2_self_le hm
    rw [abs_of_pos hx, two_pow_mul_zpow]
    calc (2 : ℝ) ^ (max ((m.log2 : Int) + 1 + e - 53) (-1074) + (52 : Nat))
        ≤ 2 ^ (e + (m.log2 : Nat)) := zpow_le_zpow_right₀ (by norm_num) (by push_cast; omega)
      _ = 2 ^ m.log2 * 2 ^ e := (two_pow_mul_zpow _ _).symm
      _ ≤ m * 2 ^ e := mul_le_mul_of_nonneg_right hlow htwo.le
      _ ≤ x := hle

/-! ## Rounding -/

/-- The unpacked number is the double nearest to `x` with the given sign, if doubles had exponents of
any size. -/
inductive IsRounded (s : Sign) (x : ℝ) : UnpackedFloat → Prop
  | zero (h : nearest x = 0) : IsRounded s x (.zero s)
  | finite {m : Nat} {e : Int} (hm : 0 < m) (h : Fits m e) (hx : nearest x = m * 2 ^ e) :
      IsRounded s x (.finite s m e hm)

/-- A rounded mantissa of at most 53 bits is left as it is; one that has become a power of two with a
bit more is halved. -/
theorem isRounded_renormalized (s : Sign) {n : Nat} {t : Int} {x : ℝ} (hx : nearest x = n * 2 ^ t)
    (ht : -1074 ≤ t) (hle : n ≤ 2 ^ 53) (hbits : -1074 < t → 2 ^ 52 ≤ n) :
    let shifted := shiftToTargetExponent Format.binary64 n t .exact
    IsRounded s x (if h : shifted.1.mantissa = 0 then .zero s
      else .finite s shifted.1.mantissa shifted.2 (Nat.pos_of_ne_zero h)) := by
  intro shifted
  rcases hle.lt_or_eq with hlt | rfl
  · have hsame : shifted = (.ofMantissaAndAccuracy n .exact, t) := by
      have hlog : n.log2 < 53 := by
        rcases Nat.eq_zero_or_pos n with rfl | hn
        · rw [Nat.log2_zero]
          omega
        · exact (Nat.log2_lt hn.ne').2 hlt
      have hshift : (Format.binary64.targetExponent (totalExponent n t) - t).toNat = 0 := by
        rw [targetExponent_eq, totalExponent]
        omega
      simp only [shifted, shiftToTargetExponent, shiftToExponent, hshift]
      exact congrArg (Prod.mk _) (add_zero t)
    rw [hsame]
    show IsRounded s x (if h : n = 0 then .zero s else .finite s n t (Nat.pos_of_ne_zero h))
    split
    · rename_i hn
      exact .zero (by rw [hx, hn]; simp)
    · exact .finite _ ⟨hlt, ht, hbits⟩ hx
  · have hhalf : shifted = (ExtendedMantissa.shiftRightOne
        (.ofMantissaAndAccuracy (2 ^ 53) .exact), t + 1) := by
      have hshift :
          (Format.binary64.targetExponent (totalExponent (2 ^ 53) t) - t).toNat = 1 := by
        rw [targetExponent_eq, totalExponent, Nat.log2_two_pow]
        omega
      simp only [shifted, shiftToTargetExponent, shiftToExponent, hshift]
      rfl
    rw [hhalf]
    show IsRounded s x (.finite s (2 ^ 52) (t + 1) (Nat.two_pow_pos 52))
    refine .finite _ ⟨by norm_num, by omega, fun _ => le_rfl⟩ ?_
    rw [hx, zpow_add_one₀ (by norm_num)]
    push_cast
    ring

/-- A positive result of which enough bits were computed is rounded to the nearest double. -/
theorem isRounded_roundWithAccuracy (s : Sign) {m : Nat} {e : Int} {acc : Accuracy} {x : ℝ}
    (hx : 0 < x) (h : Describes (.ofMantissaAndAccuracy m acc) (x / 2 ^ e))
    (hbits : 2 ^ 52 ≤ m ∨ e ≤ -1074) :
    IsRounded s x (roundWithAccuracy Format.binary64 s m e acc) := by
  have hunit := targetExponent_eq_unitExponent hx h hbits
  have hlow := le_unitExponent x
  have hle : e ≤ unitExponent x := by
    rcases hbits with hm | he
    · have hlog : 52 ≤ m.log2 := (Nat.le_log2 (by omega)).2 hm
      rw [← hunit, targetExponent_eq, totalExponent]
      omega
    · omega
  obtain ⟨k, hk⟩ : ∃ k : Nat, unitExponent x = e + k := ⟨(unitExponent x - e).toNat, by omega⟩
  have hfirst : shiftToTargetExponent Format.binary64 m e acc =
      (ExtendedMantissa.ofMantissaAndAccuracy m acc >>> k, unitExponent x) := by
    have hshift : (unitExponent x - e).toNat = k := by omega
    simp only [shiftToTargetExponent, shiftToExponent, hunit, hshift]
    rw [hk]
  have hdescribes := h.shiftRight k
  rw [div_div, mul_comm, two_pow_mul_zpow, ← hk] at hdescribes
  have hint := hdescribes.nearestInt_eq
  unfold roundWithAccuracy
  simp only [hfirst]
  refine isRounded_renormalized s ?_ hlow ?_ fun ht => ?_
  · rw [nearest_def, hint]
    rfl
  · have := abs_nearestInt_le x
    rw [hint] at this
    exact_mod_cast (le_abs_self _).trans this
  · have := le_nearestInt hx ht
    rw [hint] at this
    exact_mod_cast this

/-! ## Signs and range -/

def signed : Sign → ℝ → ℝ
  | .negative, x => -x
  | .positive, x => x

theorem value_finite (s : Sign) {m : Nat} (e : Int) (hm : 0 < m) :
    (value (.finite s m e hm) : ℝ) = signed s (m * 2 ^ e) := by
  cases s with
  | negative => rw [value_negative]; push_cast; rfl
  | positive => rw [value_positive]; push_cast; rfl

theorem nearest_signed (s : Sign) (x : ℝ) : nearest (signed s x) = signed s (nearest x) := by
  cases s with
  | negative => exact nearest_neg x
  | positive => rfl

theorem abs_signed (s : Sign) (x : ℝ) : |signed s x| = |x| := by
  cases s with
  | negative => exact abs_neg x
  | positive => rfl

/-- The unpacked number is the double nearest to `x`, unless this is too large for a double. -/
structure Gives (u : UnpackedFloat) (x : ℝ) : Prop where
  of_lt : |nearest x| < 2 ^ 1024 → IsDouble u ∧ (value u : ℝ) = nearest x

theorem nearest_zero : nearest 0 = 0 := nearest_eq_self isShort_zero

theorem gives_zero (s : Sign) : Gives (.zero s) 0 :=
  ⟨fun _ => ⟨.zero s, by rw [nearest_zero, value_zero, Rat.cast_zero]⟩⟩

theorem IsRounded.gives {s : Sign} {x : ℝ} {u : UnpackedFloat} (h : IsRounded s x u) :
    Gives u (signed s x) := by
  refine ⟨fun hlt => ?_⟩
  rw [nearest_signed, abs_signed] at hlt
  rw [nearest_signed]
  cases h with
  | zero h =>
    refine ⟨.zero s, ?_⟩
    rw [h, value_zero, Rat.cast_zero]
    cases s <;> simp [signed]
  | @finite m e hm hfits hx =>
    refine ⟨.finite s hm ⟨hfits, ?_⟩, by rw [value_finite, hx]⟩
    -- with a larger exponent the number would not be below the bound
    by_contra hlarge
    have hbit : (2 : ℝ) ^ 52 ≤ m := by exact_mod_cast hfits.le_mantissa (by omega)
    have hexp : (2 : ℝ) ^ (972 : ℤ) ≤ 2 ^ e := zpow_le_zpow_right₀ (by norm_num) (by omega)
    have hbound : (2 : ℝ) ^ 52 * 2 ^ (972 : ℤ) = 2 ^ 1024 := by
      have hsum : (972 : ℤ) + (52 : ℕ) = (1024 : ℕ) := rfl
      rw [two_pow_mul_zpow, hsum, zpow_natCast]
    have hge : (2 : ℝ) ^ 52 * 2 ^ (972 : ℤ) ≤ m * 2 ^ e := by gcongr
    rw [hbound, ← hx] at hge
    exact absurd (le_abs_self _) (not_le.2 (hlt.trans_le hge))

/-- The double is finite and stands for the double nearest to `x`, unless this is too large. -/
structure Computes (z : Float) (x : ℝ) : Prop where
  of_lt : |nearest x| < 2 ^ 1024 → z.isFinite = true ∧ real z = nearest x

theorem Gives.computes {u : UnpackedFloat} {x : ℝ} (h : Gives u x) :
    Computes (Float.ofModel (Float.Model.pack u)) x := by
  refine ⟨fun hlt => ?_⟩
  obtain ⟨hdouble, hvalue⟩ := h.of_lt hlt
  have hunpack := unpack_ofModel_pack hdouble
  refine ⟨?_, ?_⟩
  · rw [isFinite_iff, hunpack]
    exact hdouble
  · unfold real
    rw [hunpack, hvalue]

end KetSim.Scalar.Machine
