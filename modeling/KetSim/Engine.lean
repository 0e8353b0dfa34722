import KetSim.Circuit
import KetSim.Event
import KetSim.Normalization
import KetSim.Settings
import KetSim.StateVector
/-!
# The engine

An engine runs a circuit on a fresh register, all digits zero. It refuses circuits that are too wide
or do not fit, and warns when rounding has moved the squared norm away from one. It keeps nothing
between runs.

A `Backend` is anything that answers a circuit with amplitudes; the engine is one.
-/
namespace KetSim

/-- Anything that runs circuits. -/
structure Backend (R : Type) where
  name : String
  run : Circuit → Report R (Array (Amplitude R))
  /-- The zero-norm tolerance for what it answers. -/
  zeroNormTolerance : R

namespace Backend
variable {R : Type}

/-- A backend that answers every circuit with the same amplitudes. -/
def fixed (name : String) (amps : Array (Amplitude R)) (tolerance : R) : Backend R :=
  ⟨name, fun _ => pure amps, tolerance⟩

/-- A backend that refuses every circuit. -/
def failing (name : String) (error : Error R) (tolerance : R) : Backend R :=
  ⟨name, fun _ => throw error, tolerance⟩

end Backend

/-- The dense state vector engine. -/
structure Engine (R : Type) where
  settings : Settings R
  deriving Repr

namespace Engine

def standard : Engine Float := ⟨Settings.standard⟩

variable {R : Type} [Scalar R]

/-- An engine with settings that can be honoured. -/
def create (s : Settings R) : Except (SettingsProblem R) (Engine R) := do
  s.validate
  return ⟨s⟩

/-- Run a circuit and give the final state. -/
def prepare (e : Engine R) (c : Circuit) : Report R (StateVector (Amplitude R)) := do
  if e.settings.maxQubits < c.width then
    throw (.registerTooWide c.width e.settings.maxQubits)
  Report.ofExcept c.check
  let start ← Report.ofChecked (StateVector.zeroState c.width)
  let final ← Report.ofChecked (start.applyAll c.operations)
  match Amplitude.checkNormalized e.settings.normalizationTolerance final.amplitudes.toList with
  | .error drift => Report.note (.normDrifted drift)
  | .ok () => pure ()
  Report.note (.statePrepared final.amplitudes.size)
  return final

def backend (e : Engine R) : Backend R where
  name := "statevector"
  run c := do return (← e.prepare c).amplitudes
  zeroNormTolerance := e.settings.zeroNormTolerance

end Engine

end KetSim
