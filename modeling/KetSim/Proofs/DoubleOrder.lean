import KetSim.Proofs.Doubles
import KetSim.Proofs.MostLikely
/-!
# The order of doubles

A double that is a number is finite or one of the two infinities, and stands for an extended real
number (`extended`). Comparing such doubles is comparing these numbers, so they are scalars in order
(`ordered`), in which only the two zeros are equal without being the same. A not-a-number has no
place in this order: nothing is at most one (`not_le_of_isNaN`).
-/
namespace KetSim.Scalar.Machine
open Float.Model (UnpackedFloat)
open Float.Model.UnpackedFloat

/-! ## Numbers, finite or not -/

/-- The unpacked forms of doubles that are numbers. -/
inductive IsNumber : UnpackedFloat → Prop
  | infinity (s : Sign) : IsNumber (.infinity s)
  | double {u : UnpackedFloat} (hu : IsDouble u) : IsNumber u

/-- The extended real number that an unpacked number stands for. -/
noncomputable def extendedValue : UnpackedFloat → EReal
  | .infinity .positive => ⊤
  | .infinity .negative => ⊥
  | u => ((value u : ℚ) : ℝ)

theorem extendedValue_of_isDouble {u : UnpackedFloat} (hu : IsDouble u) :
    extendedValue u = ((value u : ℚ) : ℝ) := by
  cases hu <;> rfl

theorem compare_infinity_infinity (s t : Sign) :
    compare s t = compare (extendedValue (.infinity s)) (extendedValue (.infinity t)) := by
  have hlt : extendedValue (.infinity .negative) < extendedValue (.infinity .positive) := bot_lt_top
  cases s with
  | positive =>
    cases t with
    | positive => exact (compare_eq_iff_eq.2 rfl).symm
    | negative => exact (compare_gt_iff_gt.2 hlt).symm
  | negative =>
    cases t with
    | positive => exact (compare_lt_iff_lt.2 hlt).symm
    | negative => exact (compare_eq_iff_eq.2 rfl).symm

/-- An infinity is beyond every finite double, on whichever side it stands. -/
theorem compare_infinity (s : Sign) {v : UnpackedFloat} (hv : IsDouble v) :
    UnpackedFloat.compare (.infinity s) v =
        some (compare (extendedValue (.infinity s)) (extendedValue v)) ∧
      v.compare (.infinity s) =
        some (compare (extendedValue v) (extendedValue (.infinity s))) := by
  rw [extendedValue_of_isDouble hv]
  cases s with
  | positive =>
    have hlt : ((value v : ℝ) : EReal) < extendedValue (.infinity .positive) := EReal.coe_lt_top _
    rw [compare_gt_iff_gt.2 hlt, compare_lt_iff_lt.2 hlt]
    cases hv <;> exact ⟨rfl, rfl⟩
  | negative =>
    have hlt : extendedValue (.infinity .negative) < ((value v : ℝ) : EReal) := EReal.bot_lt_coe _
    rw [compare_lt_iff_lt.2 hlt, compare_gt_iff_gt.2 hlt]
    cases hv <;> exact ⟨rfl, rfl⟩

/-- Numbers are compared as the extended real numbers they stand for. -/
theorem compare_eq_compare_extendedValue {u v : UnpackedFloat} (hu : IsNumber u)
    (hv : IsNumber v) : u.compare v = some (compare (extendedValue u) (extendedValue v)) := by
  cases hu with
  | infinity s =>
    cases hv with
    | infinity t => exact congrArg some (compare_infinity_infinity s t)
    | double hv => exact (compare_infinity s hv).1
  | double hu =>
    cases hv with
    | infinity t => exact (compare_infinity t hu).2
    | double hv =>
      have hmono : StrictMono fun q : ℚ => ((q : ℝ) : EReal) :=
        EReal.coe_strictMono.comp Rat.cast_strictMono
      rw [compare_eq_compare_value hu hv, extendedValue_of_isDouble hu,
        extendedValue_of_isDouble hv, ← cmp_eq_compare, ← cmp_eq_compare, hmono.cmp_map_eq]

/-! ## Doubles that are numbers -/

/-- The extended real number that a double stands for; zero where it stands for none. -/
noncomputable def extended (x : Float) : EReal := extendedValue x.toModel.unpack

variable {x y : Float}

theorem extended_of_isFinite (hx : x.isFinite = true) : extended x = real x :=
  extendedValue_of_isDouble (isFinite_iff.1 hx)

theorem isNumber_of_isNaN_eq_false (hx : x.isNaN = false) : IsNumber x.toModel.unpack := by
  by_cases hfin : x.isFinite = true
  · exact .double (isFinite_iff.1 hfin)
  · have hnan : x.toModel.unpack.isNaN = false := hx
    have hinf : ¬ x.toModel.unpack.isFinite = true := hfin
    generalize x.toModel.unpack = u at hnan hinf ⊢
    cases u with
    | infinity s => exact .infinity s
    | notANumber => cases hnan
    | zero s => exact absurd rfl hinf
    | finite s m e hm => exact absurd rfl hinf

theorem isNaN_eq_false_of_isFinite (hx : x.isFinite = true) : x.isNaN = false := by
  have hdouble := isFinite_iff.1 hx
  show x.toModel.unpack.isNaN = false
  generalize x.toModel.unpack = u at hdouble ⊢
  cases hdouble <;> rfl

theorem compare_eq_compare_extended (hx : x.isNaN = false) (hy : y.isNaN = false) :
    x.toModel.unpack.compare y.toModel.unpack = some (compare (extended x) (extended y)) :=
  compare_eq_compare_extendedValue (isNumber_of_isNaN_eq_false hx) (isNumber_of_isNaN_eq_false hy)

theorem le_iff_extended_le (hx : x.isNaN = false) (hy : y.isNaN = false) :
    x ≤ y ↔ extended x ≤ extended y := by
  rw [le_iff_isLE, compare_eq_compare_extended hx hy]
  exact Std.LawfulBCmp.isLE_iff_le

theorem lt_iff_extended_lt (hx : x.isNaN = false) (hy : y.isNaN = false) :
    x < y ↔ extended x < extended y := by
  have hlt : x < y ↔ x.toModel.unpack.compare y.toModel.unpack = some .lt := by
    show x.lt y = true ↔ _
    exact decide_eq_true_iff.trans beq_iff_eq
  rw [hlt, compare_eq_compare_extended hx hy, Option.some_inj, compare_lt_iff_lt]

/-- Doubles that are numbers are compared as extended real numbers. -/
theorem ordered : Scalar.Ordered (fun x : Float => x.isNaN = false) extended where
  le_iff hx hy := decide_eq_true_iff.trans (le_iff_extended_le hx hy)
  lt_iff hx hy := decide_eq_true_iff.trans (lt_iff_extended_lt hx hy)

/-- Nothing is at most a not-a-number. -/
theorem not_le_of_isNaN {top : Float} (htop : top.isNaN = true) : ¬ x ≤ top := by
  rw [le_iff_isLE]
  have hnan : top.toModel.unpack.isNaN = true := htop
  generalize top.toModel.unpack = w at hnan ⊢
  cases w with
  | notANumber => cases x.toModel.unpack <;> simp [Float.Model.UnpackedFloat.compare]
  | infinity s => cases hnan
  | zero s => cases hnan
  | finite s m e hm => cases hnan

/-- What is at most a finite double is at most every double this one is at most. -/
theorem le_trans_of_real_le {top : Float} (hx : x.isFinite = true) (hy : y.isFinite = true)
    (hxy : real x ≤ real y) (hle : y ≤ top) : x ≤ top := by
  have htop : top.isNaN = false := Bool.eq_false_iff.2 fun hnan => not_le_of_isNaN hnan hle
  rw [le_iff_extended_le (isNaN_eq_false_of_isFinite hy) htop] at hle
  rw [le_iff_extended_le (isNaN_eq_false_of_isFinite hx) htop]
  refine le_trans ?_ hle
  rw [extended_of_isFinite hx, extended_of_isFinite hy]
  exact EReal.coe_le_coe_iff.2 hxy

end KetSim.Scalar.Machine
