import KetSim.Proofs.Exact
import KetSim.Proofs.Kernels
import Mathlib.Tactic.LinearCombination
/-!
# Gates in exact arithmetic

In exact arithmetic the zeros and ones of a matrix leave no trace: an `x` moves the coefficients of
a pair, a `z` changes the sign of one of them, a controlled flip moves coefficients where its
control is one. Matrices on one place multiply (`mixed_mixed_mul`), that of a gate with itself to
one (`Gate.matrix_mul_self`). Matrices on different places, each under conditions that the other
leaves alone, can be applied in either order (`mixedIf_comm`).
-/
namespace KetSim

variable {h : ℝ}

/-! ## Single gates -/

namespace StateVector
open Index

/-- An `x` moves every coefficient to the other index of its pair. -/
theorem mixed_x (k : Nat) (f : Nat → Amplitude (Exact h)) (j : Nat) :
    mixed Gate.x.matrix k f j = f (flip k j) := by
  apply Amplitude.value_injective
  cases hj : j.testBit k <;> simp [mixed, Gate.matrix, hj]

/-- A `y` moves every coefficient to the other index of its pair, with a quarter turn. -/
theorem mixed_y (k : Nat) (f : Nat → Amplitude (Exact h)) (j : Nat) :
    mixed Gate.y.matrix k f j =
      (if j.testBit k then Coefficient.imaginary else -Coefficient.imaginary) * f (flip k j) := by
  apply Amplitude.value_injective
  cases hj : j.testBit k <;> simp [mixed, Gate.matrix, hj]

/-- A `z` changes the sign of the coefficients whose bit is one. -/
theorem mixed_z (k : Nat) (f : Nat → Amplitude (Exact h)) (j : Nat) :
    mixed Gate.z.matrix k f j = if j.testBit k then -f j else f j := by
  apply Amplitude.value_injective
  cases hj : j.testBit k <;> simp [mixed, Gate.matrix, hj]

/-- A controlled flip moves the coefficients whose control bit is one. -/
theorem mixedWhere_cnot (c t : Nat) (f : Nat → Amplitude (Exact h)) (j : Nat) :
    mixedWhere Gate.cnot.matrix c t f j = f (if j.testBit c then flip t j else j) := by
  have hx : mixed Gate.cnot.matrix t f j = f (flip t j) := mixed_x t f j
  rw [mixedWhere, hx]
  split <;> rfl

end StateVector

/-! ## Matrices on one place -/

namespace Gate.Matrix
variable {A : Type} [Add A] [Mul A]

/-- The matrix of two matrices one after the other, the right one first. -/
def mul (M N : Gate.Matrix A) : Gate.Matrix A where
  m00 := M.m00 * N.m00 + M.m01 * N.m10
  m01 := M.m00 * N.m01 + M.m01 * N.m11
  m10 := M.m10 * N.m00 + M.m11 * N.m10
  m11 := M.m10 * N.m01 + M.m11 * N.m11

def scale (k : A) (M : Gate.Matrix A) : Gate.Matrix A :=
  ⟨k * M.m00, k * M.m01, k * M.m10, k * M.m11⟩

def one {A : Type} [Zero A] [One A] : Gate.Matrix A := ⟨1, 0, 0, 1⟩

theorem eq_of_value {M N : Gate.Matrix (Amplitude (Exact h))} (h00 : M.m00.value = N.m00.value)
    (h01 : M.m01.value = N.m01.value) (h10 : M.m10.value = N.m10.value)
    (h11 : M.m11.value = N.m11.value) : M = N := by
  cases M
  cases N
  rw [mk.injEq]
  exact ⟨Amplitude.value_injective h00, Amplitude.value_injective h01,
    Amplitude.value_injective h10, Amplitude.value_injective h11⟩

end Gate.Matrix

/-- The matrix of a gate undoes itself. -/
theorem Gate.matrix_mul_self (hh : 2 * h ^ 2 = 1) (g : Gate) :
    (g.matrix : Gate.Matrix (Amplitude (Exact h))).mul g.matrix = .one := by
  have hc : (2 : ℂ) * (h : ℂ) ^ 2 = 1 := by exact_mod_cast hh
  cases g with
  | h =>
    apply Matrix.eq_of_value <;> simp [matrix, Matrix.mul, Matrix.one]
    · linear_combination hc
    · linear_combination hc
  | _ => apply Matrix.eq_of_value <;> simp [matrix, Matrix.mul, Matrix.one]

namespace StateVector
open Index

theorem mixed_one (k : Nat) (f : Nat → Amplitude (Exact h)) : mixed .one k f = f := by
  funext j
  apply Amplitude.value_injective
  cases hj : j.testBit k <;> simp [mixed, Gate.Matrix.one, hj]

theorem mixed_scale (x : Amplitude (Exact h)) (M : Gate.Matrix (Amplitude (Exact h))) (k : Nat)
    (f : Nat → Amplitude (Exact h)) (j : Nat) : mixed (M.scale x) k f j = x * mixed M k f j := by
  apply Amplitude.value_injective
  cases hj : j.testBit k <;> simp [mixed, Gate.Matrix.scale, hj] <;> ring

theorem mixed_mixed_mul (M N : Gate.Matrix (Amplitude (Exact h))) (k : Nat)
    (f : Nat → Amplitude (Exact h)) : mixed M k (mixed N k f) = mixed (M.mul N) k f := by
  funext j
  apply Amplitude.value_injective
  cases hj : j.testBit k <;> simp [mixed, Gate.Matrix.mul, hj] <;> ring

/-- Matrices around a controlled one on the same place: where the control is zero, only they are
left. -/
theorem mixed_mixedWhere_mixed {U M V : Gate.Matrix (Amplitude (Exact h))} (hUV : U.mul V = .one)
    {c t : Nat} (hct : c ≠ t) (f : Nat → Amplitude (Exact h)) :
    mixed U t (mixedWhere M c t (mixed V t f)) = mixedWhere (U.mul (M.mul V)) c t f := by
  funext j
  have hc : (flip t j).testBit c = j.testBit c := by simp [Ne.symm hct]
  cases hj : j.testBit c with
  | false =>
    calc mixed U t (mixedWhere M c t (mixed V t f)) j
      _ = mixed U t (mixed V t f) j := by simp [mixed, mixedWhere, hc, hj]
      _ = mixedWhere (U.mul (M.mul V)) c t f j := by
        rw [mixed_mixed_mul, hUV, mixed_one]
        simp [mixedWhere, hj]
  | true =>
    calc mixed U t (mixedWhere M c t (mixed V t f)) j
      _ = mixed U t (mixed M t (mixed V t f)) j := by simp [mixed, mixedWhere, hc, hj]
      _ = mixedWhere (U.mul (M.mul V)) c t f j := by
        rw [mixed_mixed_mul M, mixed_mixed_mul]
        simp [mixedWhere, hj]

/-! ## Matrices on different places -/

/-- The matrix on those pairs of values that satisfy a condition. -/
def mixedIf {A : Type} [Add A] [Mul A] (p : Nat → Bool) (M : Gate.Matrix A) (place : Nat)
    (f : Nat → A) (j : Nat) : A :=
  if p j then mixed M place f j else f j

theorem mixed_comm (M N : Gate.Matrix (Amplitude (Exact h))) {k p : Nat} (hkp : k ≠ p)
    (f : Nat → Amplitude (Exact h)) : mixed M k (mixed N p f) = mixed N p (mixed M k f) := by
  funext j
  apply Amplitude.value_injective
  cases hk : j.testBit k <;> cases hp : j.testBit p <;>
    simp [mixed, hk, hp, hkp, Ne.symm hkp, flip_comm p k] <;> ring

/-- Matrices on different places commute, provided that the condition of each does not ask for the
place of the other. -/
theorem mixedIf_comm (M N : Gate.Matrix (Amplitude (Exact h))) {p q : Nat → Bool} {s t : Nat}
    (hst : s ≠ t) (hp : ∀ j, p (flip t j) = p j) (hq : ∀ j, q (flip s j) = q j)
    (f : Nat → Amplitude (Exact h)) :
    mixedIf p M s (mixedIf q N t f) = mixedIf q N t (mixedIf p M s f) := by
  funext j
  cases hpj : p j <;> cases hqj : q j
  · simp [mixedIf, hpj, hqj]
  · simp [mixedIf, mixed, hp, hpj, hqj]
  · simp [mixedIf, mixed, hq, hpj, hqj]
  · have := congrFun (mixed_comm M N hst f) j
    simpa [mixedIf, mixed, hp, hq, hpj, hqj] using this

end StateVector

end KetSim
