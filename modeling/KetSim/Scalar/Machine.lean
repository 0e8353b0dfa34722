import KetSim.Scalar
/-!
# Machine floats as scalars

Double precision, each operation rounded once to nearest. The length of a vector is the root of its
exact squared length, rounded once, so no intermediate square overflows or vanishes.
-/
namespace KetSim.Scalar.Machine
open Float.Model

/-- A sum of squares with a positive term is positive. -/
theorem squares_pos {m : Nat} (n : Nat) (h : 0 < m) : 0 < m * m + n * n :=
  Nat.add_pos_left (Nat.mul_pos h h) _

theorem shifted_pos {m : Nat} (k : Nat) (h : 0 < m) : 0 < m <<< k := by
  rw [Nat.shiftLeft_eq]; exact Nat.mul_pos h (Nat.two_pow_pos k)

def hypot (x y : Float) : Float :=
  match x.toModel.unpack, y.toModel.unpack with
  | .finite _ m e hm, .finite _ n f _ =>
    let low := min e f
    let a := m <<< (e - low).toNat
    let b := n <<< (f - low).toNat
    ⟨pack (UnpackedFloat.sqrt Format.binary64
      (.finite .positive (a * a + b * b) (2 * low) (squares_pos b (shifted_pos _ hm))))⟩
  | .infinity _, _ => 1.0 / 0.0
  | _, .infinity _ => 1.0 / 0.0
  | .zero _, _ => y.abs
  | _, .zero _ => x.abs
  | .notANumber, _ => x
  | _, .notANumber => y

instance : Scalar Float where
  zero := 0.0
  one := 1.0
  abs := Float.abs
  sqrt := Float.sqrt
  hypot := hypot
  invSqrt2 := 0.7071067811865476
  fraction n := n.toFloat / 4503599627370496.0
  le x y := x ≤ y
  lt x y := x < y
  same x y := x == y
  isFinite := Float.isFinite

end KetSim.Scalar.Machine
