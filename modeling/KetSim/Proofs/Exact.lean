import KetSim.Amplitude
import KetSim.Settings
import Mathlib.Analysis.Real.Sqrt
import Mathlib.Data.Complex.Basic
/-!
# Exact arithmetic

Real numbers as scalars: every operation is the real one, nothing is rounded and everything is
finite, so what holds of norms and probabilities holds as an equation. `Exact h` are the reals with
`h` as the coefficient of the Hadamard gate; what is known of `h` is said where it is needed. An
amplitude over them is a complex number (`Amplitude.value`).
-/
namespace KetSim

/-- A real number that is computed with exactly. -/
@[ext] structure Exact (h : ℝ) where
  real : ℝ

namespace Exact
variable {h : ℝ}

noncomputable instance : Scalar (Exact h) where
  zero := ⟨0⟩
  one := ⟨1⟩
  neg a := ⟨-a.real⟩
  add a b := ⟨a.real + b.real⟩
  sub a b := ⟨a.real - b.real⟩
  mul a b := ⟨a.real * b.real⟩
  div a b := ⟨a.real / b.real⟩
  abs a := ⟨|a.real|⟩
  sqrt a := ⟨√a.real⟩
  hypot a b := ⟨√(a.real ^ 2 + b.real ^ 2)⟩
  invSqrt2 := ⟨h⟩
  fraction n := ⟨n / 2 ^ 52⟩
  le a b := decide (a.real ≤ b.real)
  lt a b := decide (a.real < b.real)
  same a b := decide (a.real = b.real)
  isFinite _ := true

@[simp] theorem real_zero : (0 : Exact h).real = 0 := rfl

@[simp] theorem real_one : (1 : Exact h).real = 1 := rfl

@[simp] theorem real_neg (a : Exact h) : (-a).real = -a.real := rfl

@[simp] theorem real_add (a b : Exact h) : (a + b).real = a.real + b.real := rfl

@[simp] theorem real_sub (a b : Exact h) : (a - b).real = a.real - b.real := rfl

@[simp] theorem real_mul (a b : Exact h) : (a * b).real = a.real * b.real := rfl

@[simp] theorem real_div (a b : Exact h) : (a / b).real = a.real / b.real := rfl

@[simp] theorem real_sqrt (a : Exact h) : (Scalar.sqrt a).real = √a.real := rfl

@[simp] theorem real_hypot (a b : Exact h) :
    (Scalar.hypot a b).real = √(a.real ^ 2 + b.real ^ 2) := rfl

@[simp] theorem real_abs (a : Exact h) : (Scalar.abs a).real = |a.real| := rfl

@[simp] theorem real_invSqrt2 : (Scalar.invSqrt2 : Exact h).real = h := rfl

@[simp] theorem real_fraction (n : Nat) : (Scalar.fraction n : Exact h).real = n / 2 ^ 52 := rfl

@[simp] theorem le_eq (a b : Exact h) : Scalar.le a b = decide (a.real ≤ b.real) := rfl

@[simp] theorem lt_eq (a b : Exact h) : Scalar.lt a b = decide (a.real < b.real) := rfl

@[simp] theorem same_eq (a b : Exact h) : Scalar.same a b = decide (a.real = b.real) := rfl

@[simp] theorem isFinite_eq (a : Exact h) : Scalar.isFinite a = true := rfl

@[simp] theorem real_larger (a b : Exact h) : (Scalar.larger a b).real = max a.real b.real := by
  rw [Scalar.larger, max_def]
  by_cases hab : a.real ≤ b.real <;> simp [hab]

@[simp] theorem real_cap (a top : Exact h) : (Scalar.cap a top).real = min a.real top.real := by
  rw [Scalar.cap, min_def]
  by_cases hab : a.real ≤ top.real <;> simp [hab]

/-- A sum of exact numbers. The minus zero it starts at is no different from zero. -/
@[simp] theorem real_sum (xs : List (Exact h)) : (Scalar.sum xs).real = (xs.map real).sum := by
  have from_start : ∀ (xs : List (Exact h)) (a : Exact h),
      (xs.foldl (· + ·) a).real = a.real + (xs.map real).sum := by
    intro xs
    induction xs with
    | nil => simp
    | cons x xs ih => intro a; simp [ih, add_assoc]
  simp [Scalar.sum, from_start]

/-- What is known of the coefficient of the Hadamard gate holds of one over the root of two. -/
theorem two_mul_inv_sqrt_two_sq : 2 * (√2 : ℝ)⁻¹ ^ 2 = 1 := by
  rw [inv_pow, Real.sq_sqrt (by norm_num)]
  norm_num

/-- Settings for exact numbers: twenty qubits, only the all-zero state is zero, a drift of one. -/
noncomputable def settings : Settings (Exact h) := ⟨20, 0, 1⟩

theorem validate_settings : (settings : Settings (Exact h)).validate = .ok () := by
  simp [settings, Settings.validate, Settings.qubitLimit]

end Exact

namespace Amplitude
variable {h : ℝ}

@[simp] theorem isFinite_exact (a : Amplitude (Exact h)) : a.isFinite = true := rfl

def value (a : Amplitude (Exact h)) : ℂ := ⟨a.re.real, a.im.real⟩

theorem value_injective : Function.Injective (value : Amplitude (Exact h) → ℂ) := by
  rintro ⟨⟨ar⟩, ⟨ai⟩⟩ ⟨⟨br⟩, ⟨bi⟩⟩ e
  obtain ⟨hr, hi⟩ := Complex.ext_iff.1 e
  simp only [value] at hr hi
  rw [hr, hi]

@[simp] theorem value_re (a : Amplitude (Exact h)) : a.value.re = a.re.real := rfl

@[simp] theorem value_im (a : Amplitude (Exact h)) : a.value.im = a.im.real := rfl

@[simp] theorem value_zero : (0 : Amplitude (Exact h)).value = 0 := rfl

@[simp] theorem value_one : (1 : Amplitude (Exact h)).value = 1 := rfl

@[simp] theorem value_imaginary : (Coefficient.imaginary : Amplitude (Exact h)).value = Complex.I :=
  rfl

@[simp] theorem value_invSqrt2 : (Coefficient.invSqrt2 : Amplitude (Exact h)).value = (h : ℂ) := rfl

@[simp] theorem value_neg (a : Amplitude (Exact h)) : (-a).value = -a.value := rfl

@[simp] theorem value_add (a b : Amplitude (Exact h)) : (a + b).value = a.value + b.value := rfl

@[simp] theorem value_mul (a b : Amplitude (Exact h)) : (a * b).value = a.value * b.value := rfl

@[simp] theorem value_scaleDown (a : Amplitude (Exact h)) (s : Exact h) :
    (a.scaleDown s).value = a.value / s.real := by
  apply Complex.ext
  · rw [Complex.div_ofReal_re]
    rfl
  · rw [Complex.div_ofReal_im]
    rfl

@[simp] theorem real_normSq (a : Amplitude (Exact h)) :
    a.normSq.real = Complex.normSq a.value := by
  rw [Complex.normSq_apply]
  rfl

@[simp] theorem real_magnitude (a : Amplitude (Exact h)) :
    a.magnitude.real = √(Complex.normSq a.value) := by
  rw [magnitude, Exact.real_hypot, Complex.normSq_apply, ← pow_two, ← pow_two]
  rfl

end Amplitude

end KetSim
