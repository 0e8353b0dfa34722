import KetSim.Scalar
/-!
# Amplitudes

The gate kernels compute with coefficients of any kind that can be added and multiplied
(`Coefficient`); the simulator runs them on complex numbers over a scalar type (`Amplitude`). Each
component of a complex operation is written out in the order in which it is rounded.
-/
namespace KetSim

/-- What gate matrices are built from and gate kernels compute with. -/
class Coefficient (A : Type) extends Zero A, One A, Neg A, Add A, Mul A where
  /-- The imaginary unit. -/
  imaginary : A
  /-- One over the square root of two. -/
  invSqrt2 : A

/-- The complex coefficient of one basis state. -/
structure Amplitude (R : Type) where
  re : R
  im : R
  deriving Repr, BEq, DecidableEq

namespace Amplitude
variable {R : Type} [Scalar R]

instance : Coefficient (Amplitude R) where
  zero := ⟨0, 0⟩
  one := ⟨1, 0⟩
  neg a := ⟨-a.re, -a.im⟩
  add a b := ⟨a.re + b.re, a.im + b.im⟩
  mul a b := ⟨a.re * b.re - a.im * b.im, a.re * b.im + a.im * b.re⟩
  imaginary := ⟨0, 1⟩
  invSqrt2 := ⟨Scalar.invSqrt2, 0⟩

def scaleDown (a : Amplitude R) (s : R) : Amplitude R := ⟨a.re / s, a.im / s⟩

def normSq (a : Amplitude R) : R := a.re * a.re + a.im * a.im

/-- The magnitude, rounded once. -/
def magnitude (a : Amplitude R) : R := Scalar.hypot a.re a.im

def isFinite (a : Amplitude R) : Bool := Scalar.isFinite a.re && Scalar.isFinite a.im

end Amplitude

end KetSim
