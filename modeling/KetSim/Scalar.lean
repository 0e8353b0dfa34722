/-!
# Real scalars

Everything the simulator does with real numbers goes through one class, so the same definitions run
on machine floats and can be read over exact or rounded reals. The class states no laws: it lists
the operations, and a reader who needs laws picks an instance that has them.
-/
namespace KetSim

/-- The operations on real numbers that the simulator uses. Comparisons answer `Bool`, since on
floats "not at most" and "greater" differ. -/
class Scalar (R : Type) extends Zero R, One R, Neg R, Add R, Sub R, Mul R, Div R where
  abs : R → R
  sqrt : R → R
  /-- The length of the vector with the two given components, rounded once. -/
  hypot : R → R → R
  /-- The coefficient of the Hadamard gate, one over the square root of two. -/
  invSqrt2 : R
  /-- The fraction `n / 2^52`. -/
  fraction : Nat → R
  le : R → R → Bool
  lt : R → R → Bool
  /-- Numeric equality: the two zeros are equal, and nothing equals a NaN. -/
  same : R → R → Bool
  isFinite : R → Bool

namespace Scalar
variable {R : Type} [Scalar R]

/-- The larger of two numbers; the second one when they are equal. -/
def larger (a b : R) : R := if le a b then b else a

/-- The number itself where it is at most the cap, else the cap. -/
def cap (a top : R) : R := if le a top then a else top

/-- A sum from left to right. It starts at minus zero, the neutral element of float addition, so an
empty sum is minus zero. -/
def sum (xs : List R) : R := xs.foldl (· + ·) (-0)

end Scalar

end KetSim
