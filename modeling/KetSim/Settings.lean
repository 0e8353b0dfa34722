import KetSim.Error
import KetSim.Scalar
/-!
# Settings

The limits of an engine and of the transform to probabilities. Settings are checked before an engine
is built from them; a value by itself may hold anything.
-/
namespace KetSim

structure Settings (R : Type) where
  /-- The widest register that is simulated. -/
  maxQubits : Nat
  /-- States whose largest component is at most this are taken for zero. -/
  zeroNormTolerance : R
  /-- How far the squared norm may drift from one before a warning. -/
  normalizationTolerance : R
  deriving Repr, DecidableEq

namespace Settings

/-- The settings where nothing is said: twenty qubits, only the all-zero state is zero, a drift of
a billionth. -/
def standard : Settings Float := ⟨20, 0.0, 1e-9⟩

variable {R : Type} [Scalar R]

/-- A basis index has one bit for each qubit, and a word has one bit more than it can index. -/
def qubitLimit : Nat := 63

/-- The settings can be honoured. The first problem in the order of the fields is named. -/
def validate (s : Settings R) : Except (SettingsProblem R) Unit :=
  if s.maxQubits = 0 ∨ qubitLimit < s.maxQubits then .error (.qubitLimit s.maxQubits)
  else if !(Scalar.le 0 s.zeroNormTolerance && Scalar.isFinite s.zeroNormTolerance) then
    .error (.zeroNormTolerance s.zeroNormTolerance)
  else if !(Scalar.lt 0 s.normalizationTolerance && Scalar.isFinite s.normalizationTolerance) then
    .error (.normalizationTolerance s.normalizationTolerance)
  else .ok ()

end Settings

end KetSim
