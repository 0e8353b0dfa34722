import KetSim.Scalar.Machine
import KetSim.Proofs.LargestComponent
import Mathlib
/-!
# Doubles as real numbers

A finite double is zero or a sign, a mantissa and an exponent of bounded size (`InRange`), and
stands for a number (`value`). Comparing doubles is comparing these numbers
(`compare_eq_compare_value`), although it is done by exponents first and mantissas second; negation
and magnitude are exact. So finite doubles are scalars that read as real numbers (`reads`).
-/
namespace KetSim.Scalar.Machine
open Float.Model (UnpackedFloat Format)
open Float.Model.UnpackedFloat

/-! ## The range of doubles -/

/-- A mantissa and an exponent as doubles have them: 53 bits, and the first of them is not zero unless
the exponent is the least. -/
structure Fits (m : Nat) (e : Int) : Prop where
  mantissa_lt : m < 2 ^ 53
  le_exponent : -1074 ≤ e
  le_mantissa : -1074 < e → 2 ^ 52 ≤ m

/-- The exponent is not too large for a double either. -/
structure InRange (m : Nat) (e : Int) : Prop extends Fits m e where
  exponent_le : e ≤ 971

theorem inRange_of_unpack {b : BitVec Format.binary64.numBits} {s : Sign} {m : Nat} {e : Int}
    {hm : 0 < m} (h : unpack Format.binary64 b = .finite s m e hm) : InRange m e := by
  have hmantissa := (unpackMantissa b).isLt
  have hexponent := (unpackExponent b).isLt
  have hbias : Format.binary64.exponentBias = 1023 := rfl
  unfold unpack at h
  simp only [hbias] at h hmantissa hexponent
  split at h
  · split at h <;> cases h
  · rename_i hones
    split at h
    · -- no first bit: the least exponent
      rename_i hzero
      split at h
      · cases h
      · injection h with _ hmant hexp
        subst hmant hexp
        rw [hzero]
        exact ⟨⟨by omega, by simp, by simp⟩, by simp⟩
    · rename_i hnonzero
      injection h with _ hmant hexp
      subst hmant hexp
      have hlow : (unpackExponent b).toNat ≠ 0 :=
        fun h0 => hnonzero (BitVec.eq_of_toNat_eq (by simpa using h0))
      have hhigh : (unpackExponent b).toNat ≠ 2047 :=
        fun h0 => hones (BitVec.eq_of_toNat_eq (by simpa using h0))
      have hfirst : (1#1 ++ unpackMantissa b).toNat = 2 ^ 52 + (unpackMantissa b).toNat := by
        rw [BitVec.toNat_append, ← Nat.shiftLeft_add_eq_or_of_lt hmantissa]
        simp [Nat.shiftLeft_eq]
      rw [hfirst]
      exact ⟨⟨by omega, by push_cast; omega, fun _ => by omega⟩, by push_cast; omega⟩

theorem exponentBias_eq : Format.binary64.exponentBias = 1023 := rfl

/-- Written without a first bit, a number has the least exponent. -/
theorem unpack_packComponents_of_lt {s : Sign} {m : Nat} (hm : 0 < m) (hlt : m < 2 ^ 52) :
    unpack Format.binary64 (packComponents Format.binary64 s 0#11 (BitVec.ofNat 52 m)) =
      .finite s m (-1074) hm := by
  have hnonzero : BitVec.ofNat 52 m ≠ 0#52 := by
    rw [ne_eq, ← BitVec.toNat_inj, BitVec.toNat_ofNat, Nat.mod_eq_of_lt hlt]
    exact hm.ne'
  unfold unpack
  simp only [unpackMantissa_packComponents, unpackExponent_packComponents,
    unpackSign_packComponents, Sign.ofBitVec_toBitVec]
  rw [if_neg (by decide), if_pos trivial, dif_neg hnonzero]
  simp only [BitVec.toNat_ofNat, Nat.mod_eq_of_lt hlt, exponentBias_eq]
  rfl

/-- Any other written exponent stands for a number with a first bit. -/
theorem unpack_packComponents_of_le {s : Sign} {m k : Nat} (hm : 0 < m) (hle : 2 ^ 52 ≤ m)
    (hlt : m < 2 ^ 53) (hk : 0 < k) (hk' : k < 2047) :
    unpack Format.binary64 (packComponents Format.binary64 s (BitVec.ofNat 11 k)
      (BitVec.ofNat 52 m)) = .finite s m (k - 1075) hm := by
  have hexp : (BitVec.ofNat 11 k).toNat = k := by
    rw [BitVec.toNat_ofNat, Nat.mod_eq_of_lt (by omega)]
  have hother (v : BitVec 11) (hv : v.toNat ≠ k) : BitVec.ofNat 11 k ≠ v := by
    rintro rfl
    exact hv hexp
  have hones : BitVec.ofNat 11 k ≠ -1#11 := hother _ (by show 2047 ≠ k; omega)
  have hzero : BitVec.ofNat 11 k ≠ 0#11 := hother _ (by show 0 ≠ k; omega)
  have hfirst : (1#1 ++ BitVec.ofNat 52 m).toNat = m := by
    have hmod : m % 2 ^ 52 = m - 2 ^ 52 := by omega
    rw [BitVec.toNat_append, ← Nat.shiftLeft_add_eq_or_of_lt (BitVec.isLt _)]
    simp only [BitVec.toNat_ofNat, hmod, Nat.shiftLeft_eq]
    omega
  unfold unpack
  simp only [unpackMantissa_packComponents, unpackExponent_packComponents,
    unpackSign_packComponents, Sign.ofBitVec_toBitVec]
  rw [if_neg hones, if_neg hzero]
  simp only [hfirst, hexp, exponentBias_eq]
  rfl

/-- A number in range is packed without loss. -/
theorem unpack_pack_finite {s : Sign} {m : Nat} {e : Int} (hm : 0 < m) (h : InRange m e) :
    unpack Format.binary64 (pack Format.binary64 (.finite s m e hm)) = .finite s m e hm := by
  obtain ⟨⟨hlt, hge, hfull⟩, hle⟩ := h
  have hwidth : Format.binary64.mantissaBits = 53 := rfl
  obtain ⟨k, hk⟩ : ∃ k : Nat, e = k - 1075 := ⟨(e + 1075).toNat, by omega⟩
  have hwritten : (e + (1023 : Nat) + (52 : Nat)).toNat = k := by omega
  unfold pack
  simp only [exponentBias_eq, hwidth, hwritten]
  rw [if_neg (by omega)]
  by_cases hsub : m < 2 ^ 52
  · obtain rfl : e = -1074 := by omega
    have hlog : m.log2 < 52 := (Nat.log2_lt hm.ne').2 hsub
    rw [if_neg (by omega)]
    exact unpack_packComponents_of_lt hm hsub
  · have hlog : m.log2 = 52 := (Nat.log2_eq_iff hm.ne').2 ⟨by omega, hlt⟩
    rw [if_pos (by omega), hk]
    exact unpack_packComponents_of_le hm (by omega) hlt (by omega) (by omega)

/-! ## Values -/

/-- The unpacked forms of finite doubles. -/
inductive IsDouble : UnpackedFloat → Prop
  | zero (s : Sign) : IsDouble (.zero s)
  | finite {m : Nat} {e : Int} (s : Sign) (hm : 0 < m) (h : InRange m e) : IsDouble (.finite s m e hm)

theorem unpack_pack {u : UnpackedFloat} (hu : IsDouble u) :
    unpack Format.binary64 (pack Format.binary64 u) = u := by
  cases hu with
  | zero s => exact unpack_packedZero
  | finite s hm h => exact unpack_pack_finite hm h

/-- The number that an unpacked number stands for; zero where it stands for none. -/
def value : UnpackedFloat → ℚ
  | .finite s m e _ => s.apply m * 2 ^ e
  | _ => 0

@[simp] theorem value_zero (s : Sign) : value (.zero s) = 0 := rfl

@[simp] theorem value_positive {m : Nat} (e : Int) (hm : 0 < m) :
    value (.finite .positive m e hm) = m * 2 ^ e := by
  simp [value, Sign.apply]

@[simp] theorem value_negative {m : Nat} (e : Int) (hm : 0 < m) :
    value (.finite .negative m e hm) = -(m * 2 ^ e) := by
  simp [value, Sign.apply]

/-- A number with a smaller exponent is smaller. -/
theorem mul_zpow_lt {m n : Nat} {e f : Int} (hm : Fits m e) (hn : Fits n f) (hef : e < f) :
    (m * 2 ^ e : ℚ) < n * 2 ^ f := by
  have htwo : (0 : ℚ) < 2 ^ e := by positivity
  have hlt : (m : ℚ) < 2 ^ 53 := by exact_mod_cast hm.mantissa_lt
  have hle : (2 : ℚ) ^ 52 ≤ n := by
    exact_mod_cast hn.le_mantissa (lt_of_le_of_lt hm.le_exponent hef)
  calc (m * 2 ^ e : ℚ) < 2 ^ 53 * 2 ^ e := mul_lt_mul_of_pos_right hlt htwo
    _ = 2 ^ 52 * 2 ^ (e + 1) := by rw [zpow_add_one₀ (by norm_num)]; ring
    _ ≤ 2 ^ 52 * 2 ^ f := by gcongr <;> [norm_num; omega]
    _ ≤ n * 2 ^ f := by gcongr

theorem compare_then_compare {m n : Nat} {e f : Int} (hm : Fits m e) (hn : Fits n f) :
    (compare e f).then (compare m n) = compare (m * 2 ^ e : ℚ) (n * 2 ^ f) := by
  rcases lt_trichotomy e f with hef | rfl | hef
  · rw [compare_lt_iff_lt.2 hef, compare_lt_iff_lt.2 (mul_zpow_lt hm hn hef)]
    rfl
  · have htwo : (0 : ℚ) < 2 ^ e := by positivity
    rw [compare_eq_iff_eq.2 rfl, Ordering.eq_then]
    rcases lt_trichotomy m n with hmn | rfl | hmn
    · rw [compare_lt_iff_lt.2 hmn, eq_comm, compare_lt_iff_lt]
      exact mul_lt_mul_of_pos_right (by exact_mod_cast hmn) htwo
    · rw [compare_eq_iff_eq.2 rfl, compare_eq_iff_eq.2 rfl]
    · rw [compare_gt_iff_gt.2 hmn, eq_comm, compare_gt_iff_gt]
      exact mul_lt_mul_of_pos_right (by exact_mod_cast hmn) htwo
  · rw [compare_gt_iff_gt.2 hef, compare_gt_iff_gt.2 (mul_zpow_lt hn hm hef)]
    rfl

theorem compare_neg_neg (a b : ℚ) : compare (-a) (-b) = (compare a b).swap := by
  rw [← Std.OrientedOrd.eq_swap]
  rcases lt_trichotomy a b with hab | rfl | hab
  · rw [compare_gt_iff_gt.2 hab, compare_gt_iff_gt.2 (neg_lt_neg hab)]
  · rw [compare_eq_iff_eq.2 rfl, compare_eq_iff_eq.2 rfl]
  · rw [compare_lt_iff_lt.2 hab, compare_lt_iff_lt.2 (neg_lt_neg hab)]

theorem mul_zpow_pos {m : Nat} (e : Int) (hm : 0 < m) : (0 : ℚ) < m * 2 ^ e := by positivity

/-- Signs are compared first, and magnitudes the other way round below zero. -/
theorem compare_finite_finite (s t : Sign) {m n : Nat} {e f : Int} (hm : 0 < m) (hn : 0 < n)
    (h : Fits m e) (h' : Fits n f) :
    UnpackedFloat.compare (.finite s m e hm) (.finite t n f hn) =
      some (compare (value (.finite s m e hm)) (value (.finite t n f hn))) := by
  have hmpos := mul_zpow_pos e hm
  have hnpos := mul_zpow_pos f hn
  cases s with
  | positive =>
    cases t with
    | positive =>
      rw [value_positive, value_positive, ← compare_then_compare h h']
      rfl
    | negative =>
      rw [value_positive, value_negative,
        compare_gt_iff_gt.2 ((neg_lt_zero.2 hnpos).trans hmpos)]
      rfl
  | negative =>
    cases t with
    | positive =>
      rw [value_negative, value_positive,
        compare_lt_iff_lt.2 ((neg_lt_zero.2 hmpos).trans hnpos)]
      rfl
    | negative =>
      rw [value_negative, value_negative, compare_neg_neg, ← compare_then_compare h h']
      rfl

/-- Doubles are compared as the numbers they stand for. -/
theorem compare_eq_compare_value {u v : UnpackedFloat} (hu : IsDouble u) (hv : IsDouble v) :
    u.compare v = some (compare (value u) (value v)) := by
  cases hu with
  | zero s =>
    cases hv with
    | zero t => simp [UnpackedFloat.compare]
    | @finite n f t hn h' =>
      have hpos := mul_zpow_pos f hn
      cases t with
      | positive =>
        rw [value_zero, value_positive, compare_lt_iff_lt.2 hpos]
        rfl
      | negative =>
        rw [value_zero, value_negative, compare_gt_iff_gt.2 (neg_lt_zero.2 hpos)]
        rfl
  | @finite m e s hm h =>
    cases hv with
    | zero t =>
      have hpos := mul_zpow_pos e hm
      cases s with
      | positive =>
        rw [value_zero, value_positive, compare_gt_iff_gt.2 hpos]
        rfl
      | negative =>
        rw [value_zero, value_negative, compare_lt_iff_lt.2 (neg_lt_zero.2 hpos)]
        rfl
    | finite t hn h' => exact compare_finite_finite s t hm hn h.toFits h'.toFits

/-! ## Finite doubles -/

/-- The real number that a finite double stands for. -/
noncomputable def real (x : Float) : ℝ := (value x.toModel.unpack : ℚ)

theorem isFinite_iff {x : Float} : x.isFinite = true ↔ IsDouble x.toModel.unpack := by
  show x.toModel.unpack.isFinite = true ↔ _
  generalize hu : x.toModel.unpack = u
  constructor
  · intro hx
    cases u with
    | infinity s => cases hx
    | notANumber => cases hx
    | zero s => exact .zero s
    | finite s m e hm => exact .finite s hm (inRange_of_unpack hu)
  · intro hx
    cases hx <;> rfl

theorem le_iff_isLE (x y : Float) :
    x ≤ y ↔ (x.toModel.unpack.compare y.toModel.unpack).any (·.isLE) = true :=
  decide_eq_true_iff

theorem le_iff_real_le {x y : Float} (hx : x.isFinite = true) (hy : y.isFinite = true) :
    x ≤ y ↔ real x ≤ real y := by
  rw [le_iff_isLE, compare_eq_compare_value (isFinite_iff.1 hx) (isFinite_iff.1 hy)]
  rw [real, real, Rat.cast_le]
  exact Std.LawfulBCmp.isLE_iff_le

theorem beq_iff_real_eq {x y : Float} (hx : x.isFinite = true) (hy : y.isFinite = true) :
    (x == y) = true ↔ real x = real y := by
  have hcompare := compare_eq_compare_value (isFinite_iff.1 hx) (isFinite_iff.1 hy)
  show (x.toModel.unpack.compare y.toModel.unpack == some .eq) = true ↔ _
  rw [hcompare, beq_iff_eq, Option.some_inj, compare_eq_iff_eq, real, real, Rat.cast_inj]

/-- The double with a given unpacked form. -/
theorem unpack_ofModel_pack {u : UnpackedFloat} (hu : IsDouble u) :
    (Float.ofModel (Float.Model.pack u)).toModel.unpack = u :=
  unpack_pack hu

/-- The magnitude of a double has the same mantissa and exponent. -/
theorem isDouble_abs {u : UnpackedFloat} (hu : IsDouble u) :
    IsDouble u.abs ∧ value u.abs = |value u| := by
  cases hu with
  | zero s => exact ⟨.zero _, by simp [UnpackedFloat.abs]⟩
  | @finite m e s hm h =>
    refine ⟨.finite _ hm h, ?_⟩
    have hnonneg : (0 : ℚ) ≤ m * 2 ^ e := by positivity
    cases s <;> simp [UnpackedFloat.abs, abs_of_nonneg hnonneg]

theorem isDouble_neg {u : UnpackedFloat} (hu : IsDouble u) :
    IsDouble u.neg ∧ value u.neg = -value u := by
  cases hu with
  | zero s => exact ⟨.zero _, by simp [UnpackedFloat.neg]⟩
  | @finite m e s hm h =>
    refine ⟨.finite _ hm h, ?_⟩
    cases s
    · show value (.finite .positive m e hm) = _
      simp
    · show value (.finite .negative m e hm) = _
      simp

theorem unpack_abs {x : Float} (hx : x.isFinite = true) :
    x.abs.toModel.unpack = x.toModel.unpack.abs :=
  unpack_ofModel_pack (isDouble_abs (isFinite_iff.1 hx)).1

theorem unpack_neg {x : Float} (hx : x.isFinite = true) :
    (-x).toModel.unpack = x.toModel.unpack.neg :=
  unpack_ofModel_pack (isDouble_neg (isFinite_iff.1 hx)).1

theorem isFinite_abs {x : Float} (hx : x.isFinite = true) : x.abs.isFinite = true := by
  rw [isFinite_iff, unpack_abs hx]
  exact (isDouble_abs (isFinite_iff.1 hx)).1

theorem real_abs {x : Float} (hx : x.isFinite = true) : real x.abs = |real x| := by
  unfold real
  rw [unpack_abs hx, (isDouble_abs (isFinite_iff.1 hx)).2, Rat.cast_abs]

theorem unpack_zero : (0.0 : Float).toModel.unpack = .zero .positive :=
  unpack_ofModel_pack (.zero .positive)

theorem isFinite_zero : (0.0 : Float).isFinite = true := isFinite_iff.2 (unpack_zero ▸ .zero _)

theorem real_zero : real 0.0 = 0 := by
  unfold real
  rw [unpack_zero, value_zero, Rat.cast_zero]

/-- Both zeros, and only they, are zero. -/
theorem beq_zero_iff {x : Float} (hx : x.isFinite = true) : (x == 0.0) = true ↔ real x = 0 := by
  rw [beq_iff_real_eq hx isFinite_zero, real_zero]

/-- Finite doubles are compared as real numbers. -/
theorem reads : Scalar.Reads (fun x : Float => x.isFinite = true) real where
  zero := isFinite_zero
  real_zero := real_zero
  abs := isFinite_abs
  real_abs := real_abs
  le_iff hx hy := by
    rw [← le_iff_real_le hx hy]
    exact decide_eq_true_iff

end KetSim.Scalar.Machine
