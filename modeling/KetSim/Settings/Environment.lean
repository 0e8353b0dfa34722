import KetSim.Numeral
import KetSim.Scalar.Machine
import KetSim.Settings
/-!
# Settings from the environment

Three variables override the settings, one after the other. A text that is no number of its kind
ends the work; what was overridden before stays so. At the end the settings are checked.
-/
namespace KetSim
open Scalar.Machine

/-- What the variables hold: each is unset, or a sequence of bytes. -/
abbrev Environment := String → Option ByteArray

namespace Environment

/-- The text of a variable. One that holds no valid text counts as unset. -/
def text? (env : Environment) (name : String) : Option String := (env name).bind String.fromUTF8?

end Environment

namespace Settings

/-- Settings change step by step until a step fails; they keep what was done before. -/
abbrev Change := ExceptT (SettingsProblem Float) (StateM (Settings Float))

/-- Override one setting by a variable. -/
def override {α : Type} (env : Environment) (name : String) (read : String → Option α)
    (put : α → Settings Float → Settings Float) : Change Unit :=
  match env.text? name with
  | none => pure ()
  | some text =>
    match read text with
    | some a => modify (put a)
    | none => throw (.environment name text)

/-- Override the settings by the environment, and check them. -/
def overrideAll (env : Environment) : Change Unit := do
  override env "QDIST_MAX_QUBITS" Numeral.word? fun n s => { s with maxQubits := n }
  override env "QDIST_ZERO_NORM_TOLERANCE" Numeral.float?
    fun x s => { s with zeroNormTolerance := x }
  override env "QDIST_NORMALIZATION_TOLERANCE" Numeral.float?
    fun x s => { s with normalizationTolerance := x }
  MonadExcept.ofExcept (← get).validate

/-- The settings after the environment has been applied to them, and whether that went well. -/
def apply (s : Settings Float) (env : Environment) :
    Except (SettingsProblem Float) Unit × Settings Float :=
  (overrideAll env).run s

/-- The standard settings overridden by the environment. -/
def ofEnvironment (env : Environment) : Except (SettingsProblem Float) (Settings Float) :=
  match standard.apply env with
  | (.ok (), s) => .ok s
  | (.error e, _) => .error e

end Settings

end KetSim
