import KetSim.Json.Codec
import KetSim.Settings
/-!
# Stored settings

Settings that are not written take their standard values; an array may end early.
-/
namespace KetSim.Stored
open Json

def settingNames : List String := ["max_qubits", "zero_norm_tolerance", "normalization_tolerance"]

/-- The written settings: members of an object, or the start of the list of all. -/
def settingFields? : Value → Option (List (Option Value))
  | .array items =>
    if items.length ≤ settingNames.length then
      some (items.map some ++ List.replicate (settingNames.length - items.length) none)
    else none
  | v => Codec.fields? settingNames v

/-- A setting that takes its standard value where it is not written. -/
def settingOr {α : Type} [Codec α] (standard : α) : Option Value → Option α
  | none => some standard
  | some v => Codec.decode v

instance : Codec (Settings Float) where
  encode s :=
    .record [("max_qubits", Codec.encode s.maxQubits),
      ("zero_norm_tolerance", Codec.encode s.zeroNormTolerance),
      ("normalization_tolerance", Codec.encode s.normalizationTolerance)]
  decode v := do
    match ← settingFields? v with
    | [maxQubits, zeroNorm, normalization] =>
      return ⟨← settingOr Settings.standard.maxQubits maxQubits,
        ← settingOr Settings.standard.zeroNormTolerance zeroNorm,
        ← settingOr Settings.standard.normalizationTolerance normalization⟩
    | _ => none

end KetSim.Stored
