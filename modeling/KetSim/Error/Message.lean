import KetSim.Error
import KetSim.Scalar.Machine
import KetSim.Scalar.Text
import KetSim.Settings
/-!
# Error texts

The wording of every cause, in one place.
-/
namespace KetSim
open Scalar.Machine

def SettingsProblem.text : SettingsProblem Float → String
  | .qubitLimit got =>
    "max_qubits must be between 1 and " ++ toString Settings.qubitLimit ++ ", got " ++ toString got
  | .zeroNormTolerance got =>
    "zero_norm_tolerance must be a finite non-negative number, got " ++ fullText got
  | .normalizationTolerance got =>
    "normalization_tolerance must be a finite positive number, got " ++ fullText got
  | .environment name text => name ++ ": invalid value '" ++ text ++ "'"
  | .document => "the document cannot be read"

def SettingsProblem.message (p : SettingsProblem Float) : String :=
  "invalid configuration: " ++ p.text

def FailureReason.text : FailureReason Float → String
  | .stated text => text
  | .settings problem => problem.message
  | .abandoned => "engine bootstrap dropped before completing"

/-- The start of a message about a statement. -/
def atRecord (position : Nat) : String := "record " ++ toString position ++ ": "

/-- The start of a message about a gate call. -/
def atGate (position : Nat) (gate : String) : String :=
  atRecord position ++ "gate '" ++ gate ++ "' "

def Error.message : Error Float → String
  | .noRegister => "program does not declare a qubit register"
  | .registerSize position size =>
    atRecord position ++ "register size " ++ toString size ++ " is not a positive integer"
  | .targetOutOfRange position gate index width =>
    atGate position gate ++ "targets qubit " ++ toString index ++ ", register has "
      ++ toString width ++ " qubits"
  | .arity position gate expected got =>
    atGate position gate ++ "takes " ++ toString expected ++ " qubit(s), got " ++ toString got
  | .repeatedTarget position gate index =>
    atGate position gate ++ "uses qubit " ++ toString index ++ " as both control and target"
  | .emptyVector => "amplitude vector is empty"
  | .lengthNotPowerOfTwo length =>
    "amplitude vector length " ++ toString length ++ " is not a power of two"
  | .zeroNorm length => "amplitude vector of length " ++ toString length ++ " has zero norm"
  | .notNormalized normSq => "state is not normalized: sum of |a|^2 = " ++ fullText normSq
  | .registerTooWide requested limit =>
    "register of " ++ toString requested ++ " qubits exceeds the engine limit of " ++ toString limit
  | .engineNotReady => "simulation engine is not ready yet"
  | .engineFailed reason => "simulation engine failed to initialize: " ++ reason.text
  | .settings problem => problem.message
  | .serialization reason => "serialization failed: " ++ reason
  | .fault _ => "an operation left its domain"

end KetSim
