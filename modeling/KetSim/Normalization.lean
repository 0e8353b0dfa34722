import KetSim.Amplitude
import KetSim.Error
/-!
# Normalization and length

Two tests on a vector of amplitudes: whether its squared magnitudes add up to one, and how many
qubits a vector of its length describes.
-/
namespace KetSim.Amplitude
variable {R : Type} [Scalar R]

def totalNormSq (amps : List (Amplitude R)) : R := Scalar.sum (amps.map normSq)

/-- The squared magnitudes add up to one within the tolerance, and to a finite number. A tolerance
that is no number accepts every finite sum. -/
def checkNormalized (tolerance : R) (amps : List (Amplitude R)) : Except (Error R) Unit :=
  let s := totalNormSq amps
  if Scalar.lt tolerance (Scalar.abs (s - 1)) || !Scalar.isFinite s then .error (.notNormalized s)
  else .ok ()

omit [Scalar R] in
/-- The number of qubits whose basis states a vector of this length lists: the exponent, where the
length is a power of two. -/
def qubitCount (length : Nat) : Except (Error R) Nat :=
  if length = 0 then .error .emptyVector
  else if 1 <<< length.log2 = length then .ok length.log2
  else .error (.lengthNotPowerOfTwo length)

end KetSim.Amplitude
